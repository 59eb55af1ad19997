import ProtectedRegions.Flow.Reachability

/-!
# The flow of a body

All that is known about a body before it is laid out: which scope contains which, where the
jumps go, and what control can reach. Only bodies that keep the rules of jumps and rethrows
have a flow.
-/

namespace ProtectedRegions

/-- A body whose jumps are resolved, with its numbering and its reachable nodes
(`analysis/cfg/graph:115–127`). -/
structure Flow where
  body : Body
  numbering : Numbering
  /-- The route of each statement that is a jump. -/
  routes : Array (Option Route)
  reach : Reachability

namespace Flow

/-- Analyses a body, checking its statements in id order (`analysis/cfg/graph:141–188`). -/
def ofBody (body : Body) : Except Error Flow := do
  let numbering := Numbering.ofBody body
  let routes ← body.ids.mapM (body.route? numbering)
  return {
    body
    numbering
    routes := routes.toArray
    reach := .ofBody body (routes.filterMap id) }

/-- Whether `inner` is `outer` or lies inside it (`analysis/cfg/graph:337–343`). -/
def contains (flow : Flow) (outer inner : StmtId) : Bool := flow.numbering.contains outer inner

/-- The root of the method of a statement: the outer one for an id that names no statement
(`analysis/cfg/graph:345–353`). -/
def methodOf (flow : Flow) (stmt : StmtId) : StmtId :=
  flow.numbering.methodOf flow.body.root stmt

/-- The target of a jump (`analysis/cfg/graph:363–365`). -/
def target? (flow : Flow) (stmt : StmtId) : Option JumpTarget :=
  (flow.routes[stmt.index]?.join).map (·.target)

/-- Whether the statement can start (`analysis/cfg/graph:408–410`). -/
def isReachable (flow : Flow) (stmt : StmtId) : Bool := flow.reach.contains (.entry stmt)

/-- Whether the statement can complete normally (`analysis/cfg/graph:414–416`). -/
def completes (flow : Flow) (stmt : StmtId) : Bool := flow.reach.contains (.ending stmt)

/-- Whether control can arrive where the jump goes, by whatever path
(`analysis/cfg/graph:423–427`). -/
def targetReachable (flow : Flow) (stmt : StmtId) : Bool :=
  (flow.target? stmt).any fun target ↦ flow.reach.contains target.arrival

/-- The number of jumps. -/
def jumpCount (flow : Flow) : Nat := flow.routes.toList.countP (·.isSome)

end Flow
end ProtectedRegions
