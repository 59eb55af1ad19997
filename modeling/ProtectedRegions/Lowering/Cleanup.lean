import ProtectedRegions.Exit.Query
import ProtectedRegions.Policy

/-!
# Cleanup decisions

The cleanup of a synthetic statement runs in a `finally` if the policy asks for it or if an
exit crosses the body; otherwise it follows the body directly. Returns out of pinned memory
count only if the configuration says so.
-/

namespace ProtectedRegions

/-- What was decided about a synthetic statement, with the exits of its body
(`regions/builder:215–218`). -/
structure CleanupDecision where
  exits : ExitSet
  /-- The number of exits that need the cleanup. -/
  crossing : Nat
  isProtected : Bool
  deriving DecidableEq, Repr

/-- Whether an exit that crosses the body needs the cleanup (`regions/builder:206–210`). -/
def Config.needsCleanup (config : Config) (kind : SyntheticKind) (edge : ExitEdge) : Bool :=
  kind != .fixed || config.cleanupOnFixedReturn || edge.target != .methodExit

namespace Flow

/-- The decision about a synthetic statement with the given body. -/
def decideCleanup (flow : Flow) (config : Config) (kind : SyntheticKind) (stmt body : StmtId) :
    CleanupDecision :=
  let exits := flow.exits (.ofScope body stmt)
  let crossing := exits.leaves.countP (config.needsCleanup kind)
  { exits
    crossing
    isProtected := config.policy kind = .always || 0 < crossing }

/-- Decides about a synthetic statement when the walk leaves it, the latest decision first
(`regions/builder:178–200`). -/
def decideAt (flow : Flow) (config : Config) :
    Visit → List (StmtId × CleanupDecision) → Logged (List (StmtId × CleanupDecision))
  | .enter _, decisions => pure decisions
  | .leave stmt, decisions =>
    match flow.body.get? stmt with
    | some (.synthetic kind body) => do
      let exits ← flow.analyze (.ofScope body stmt)
      let crossing := exits.leaves.countP (config.needsCleanup kind)
      let isProtected := config.policy kind = .always || 0 < crossing
      Logged.report (.decided kind stmt crossing isProtected)
      return (stmt, ⟨exits, crossing, isProtected⟩) :: decisions
    | _ => pure decisions

/-- Decides about all synthetic statements of the method at `root`, inner ones first
(`regions/builder:156–204`). -/
def decideMethod (flow : Flow) (config : Config) (root : StmtId) :
    Logged (List (StmtId × CleanupDecision)) :=
  workOff (flow.decideAt config) flow.body.visitsInMethod flow.body.walkSteps [.enter root] []

end Flow
end ProtectedRegions
