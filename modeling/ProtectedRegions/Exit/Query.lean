import ProtectedRegions.Flow.Basic
import ProtectedRegions.Logged

/-!
# Exits of scopes

A query names the statements to search, the boundary a jump has to cross to count, and where
normal completion goes. Its answer lists the live jumps that cross the boundary and the live
rethrows of one catch body, in document order, and the fall through last.
-/

namespace ProtectedRegions

/-- Which exits are asked for (`analysis/exits:197–206`). -/
structure ExitQuery where
  /-- The statements that are searched, in document order. -/
  sources : List StmtId
  /-- The scope that a jump must leave to count. -/
  boundary : StmtId
  /-- The statement at whose end a normal completion arrives. -/
  continuation : StmtId
  /-- The catch body whose rethrows count. -/
  rethrowOwner : Option StmtId
  deriving DecidableEq, Repr

namespace ExitQuery

/-- The exits of one scope that completes into the end of `continuation`
(`analysis/exits:211–218`). -/
def ofScope (scope continuation : StmtId) : ExitQuery := ⟨[scope], scope, continuation, none⟩

/-- The exits of several scopes taken as one (`analysis/exits:222–233`). -/
def ofParts (sources : List StmtId) (boundary continuation : StmtId) : ExitQuery :=
  ⟨sources, boundary, continuation, none⟩

/-- Counts the rethrows of a catch body too (`analysis/exits:237–240`). -/
def owning (query : ExitQuery) (owner : StmtId) : ExitQuery :=
  { query with rethrowOwner := some owner }

/-- All statements that the query names (`analysis/exits:268–271`). -/
def named (query : ExitQuery) : List StmtId :=
  query.sources ++ [query.boundary, query.continuation] ++ query.rethrowOwner.toList

end ExitQuery

namespace Flow

/-- Whether a jump to the target leaves the boundary. A return leaves every scope
(`analysis/exits:325–328`). -/
def crosses (flow : Flow) (boundary : StmtId) (target : JumpTarget) : Bool :=
  target.isReturn || !flow.contains boundary target.scope

/-- The edge of a live jump that leaves the boundary (`analysis/exits:318–336`). -/
def leaveEdge? (flow : Flow) (boundary stmt : StmtId) : Option ExitEdge :=
  if flow.isReachable stmt then
    match flow.target? stmt with
    | some target =>
      if flow.crosses boundary target then
        some ⟨stmt, target.exitTarget, .leave, flow.targetReachable stmt⟩
      else none
    | none => none
  else none

/-- The edge of a live rethrow of the exception that the owner caught (`analysis/exits:281–293`). -/
def rethrowEdge? (flow : Flow) (owner : Option StmtId) (stmt : StmtId) : Option ExitEdge :=
  if owner.isSome && flow.isReachable stmt && flow.body.rethrowOwner? stmt == owner then
    some ⟨stmt, .unwind, .rethrow, true⟩
  else none

/-- The exit edge at a single statement. -/
def exitAt? (flow : Flow) (query : ExitQuery) (stmt : StmtId) : Option ExitEdge :=
  match flow.body.get? stmt with
  | some (.jump _) => flow.leaveEdge? query.boundary stmt
  | some .rethrow => flow.rethrowEdge? query.rethrowOwner stmt
  | _ => none

/-- The statements a query searches, in the order in which it does. -/
def searched (flow : Flow) (query : ExitQuery) : List StmtId :=
  query.sources.flatMap flow.body.inMethod

/-- The normal completion of the searched statements (`analysis/exits:306–313`). -/
def fallThrough? (flow : Flow) (query : ExitQuery) : Option ExitEdge :=
  if query.sources.any flow.completes then
    some ⟨query.boundary, .endOf query.continuation, .fallThrough,
      flow.completes query.continuation⟩
  else none

/-- The exits that a query over statements of the body asks for. -/
def exits (flow : Flow) (query : ExitQuery) : ExitSet :=
  (flow.searched query).filterMap (flow.exitAt? query) ++ (flow.fallThrough? query).toList

/-- What the search for exits reports at a single statement: dead jumps and leaves. -/
def exitEvent? (flow : Flow) (query : ExitQuery) (stmt : StmtId) : Option Event :=
  match flow.body.get? stmt with
  | some (.jump _) =>
    if flow.isReachable stmt then
      (flow.leaveEdge? query.boundary stmt).map (.exitFound query.boundary)
    else some (.deadJump stmt)
  | _ => none

/-- What the search for exits reports. -/
def exitEvents (flow : Flow) (query : ExitQuery) : List Event :=
  (flow.searched query).filterMap (flow.exitEvent? query)

/-- Looks for the exit of a jump, and reports a jump that is dead (`analysis/exits:316–338`). -/
def jumpExit (flow : Flow) (boundary jump : StmtId) : Logged (Option ExitEdge) :=
  if flow.isReachable jump then pure (flow.leaveEdge? boundary jump)
  else do
    Logged.report (.deadJump jump)
    return none

/-- Adds the exit at a single statement to those found before (`analysis/exits:279–300`). -/
def searchAt (flow : Flow) (query : ExitQuery) (stmt : StmtId) (edges : ExitSet) :
    Logged ExitSet :=
  match flow.body.get? stmt with
  | some .rethrow => pure (edges ++ (flow.rethrowEdge? query.rethrowOwner stmt).toList)
  | some (.jump _) => do
    match ← flow.jumpExit query.boundary stmt with
    | some edge =>
      Logged.report (.exitFound query.boundary edge)
      return edges ++ [edge]
    | none => return edges
  | _ => pure edges

/-- Searches the sources of a query one after the other, each with a walk of its own, provided
that the query names statements of the body (`analysis/exits:266–313`). -/
def analyze (flow : Flow) (query : ExitQuery) : Logged ExitSet :=
  match query.named.find? (!flow.body.has ·) with
  | some stmt => .ofResult (.error (.unknownStatement stmt))
  | none => do
    let edges ← query.sources.foldlM (fun edges source ↦
      workOff (flow.searchAt query) flow.body.belowInMethod flow.body.walkSteps [source] edges) []
    return edges ++ (flow.fallThrough? query).toList

/-- The exits that a query asks for. -/
def exits? (flow : Flow) (query : ExitQuery) : Except Error ExitSet := (flow.analyze query).result

end Flow
end ProtectedRegions
