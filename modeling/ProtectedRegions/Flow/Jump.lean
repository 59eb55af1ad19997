import ProtectedRegions.Error
import ProtectedRegions.Exit.Edge
import ProtectedRegions.Flow.Node
import ProtectedRegions.Flow.Numbering
import ProtectedRegions.Flow.Role

/-!
# Jump targets and routes

Where each jump goes and what it runs on the way. A jump may neither leave a `finally` or
`fault` handler nor enter a protected scope; leaving a protected part of a `try` runs the
`finally` of that `try`.
-/

namespace ProtectedRegions

/-- The place a jump arrives at (`analysis/cfg/graph:46–60`). -/
inductive JumpTarget where
  /-- The statement that defines the label. -/
  | atLabel (label : LabelId) (stmt : StmtId)
  | breakOf (construct : StmtId)
  | continueOf (loop : StmtId)
  /-- Out of the method with the given root. -/
  | returnFrom (root : StmtId)
  deriving DecidableEq, Repr

namespace JumpTarget

/-- The scope the jump lands in: a jump leaves the scopes that do not contain it
(`analysis/cfg/graph:67–74`). -/
def scope : JumpTarget → StmtId
  | .atLabel _ stmt => stmt
  | .breakOf construct => construct
  | .continueOf loop => loop
  | .returnFrom root => root

/-- The flow node at which control arrives (`analysis/cfg/graph:78–85`). -/
def arrival : JumpTarget → FlowNode
  | .atLabel _ stmt => .entry stmt
  | .breakOf construct => .ending construct
  | .continueOf loop => .entry loop
  | .returnFrom root => .exit root

/-- The target as an exit edge names it (`analysis/exits:77–86`). -/
def exitTarget : JumpTarget → ExitTarget
  | .atLabel label _ => .label label
  | .breakOf construct => .breakOf construct
  | .continueOf loop => .continueOf loop
  | .returnFrom _ => .methodExit

/-- Whether the jump leaves the method. -/
def isReturn : JumpTarget → Bool
  | .returnFrom _ => true
  | _ => false

instance : ToString JumpTarget where
  toString
    | .atLabel label _ => s!"label {label}"
    | .breakOf _ => "break"
    | .continueOf _ => "continue"
    | .returnFrom _ => "return"

end JumpTarget

namespace Body

/-- The innermost statement around `stmt`, inside its method, whose shape is accepted
(`analysis/cfg/graph:222–227`). -/
def enclosing? (body : Body) (accepts : Statement → Bool) (stmt : StmtId) : Option StmtId :=
  ((body.ancestors stmt).takeWhile (!body.isLambda ·)).find? fun scope ↦
    (body.get? scope).any accepts

/-- The target of a jump (`analysis/cfg/graph:221–262`). -/
def resolve (body : Body) (numbering : Numbering) (stmt : StmtId) :
    Jump → Except Error JumpTarget
  | .goto label =>
    match body.labelTarget? label with
    | none => .error (.unresolvedLabel label)
    | some target =>
      if numbering.methodOf body.root target = numbering.methodOf body.root stmt then
        .ok (.atLabel label target)
      else .error (.malformed (.gotoAcrossLambda stmt label))
  | .breakOut =>
    match body.enclosing? Statement.isBreakable stmt with
    | some construct => .ok (.breakOf construct)
    | none => .error (.malformed (.breakOutside stmt))
  | .continueLoop =>
    match body.enclosing? Statement.isLoop stmt with
    | some loop => .ok (.continueOf loop)
    | none => .error (.malformed (.continueOutside stmt))
  | .returnOut => .ok (.returnFrom (numbering.methodOf body.root stmt))

/-- The kind of the handler that a scope is the body of. -/
def handlerKind? (body : Body) (scope : StmtId) : Option HandlerKind :=
  match body.role? scope with
  | some (.handler kind) => some kind
  | _ => none

/-- A scope has the kind of the handler that it is the body of. -/
theorem handlerKind?_eq_some {body : Body} {scope : StmtId} {kind : HandlerKind} :
    body.handlerKind? scope = some kind ↔ body.role? scope = some (.handler kind) := by
  rw [handlerKind?]
  split
  · next role =>
    rw [role, Option.some_inj, Option.some_inj, Role.handler.injEq]
  · next other =>
    exact ⟨nofun, fun role ↦ (other kind role).elim⟩

/-- Walks from a jump outward, at most `steps` scopes far, to the first scope that holds where the
jump lands. Gives that scope and the `finally` bodies of the scopes left before it, after those
that are given (`analysis/cfg/graph:269–291`). -/
def leaveScopes (body : Body) (numbering : Numbering) (stmt : StmtId) (form : Jump)
    (landing : StmtId) : Nat → StmtId → List StmtId → Except Error (StmtId × List StmtId)
  | 0, current, requires => .ok (current, requires)
  | steps + 1, current, requires =>
    if numbering.contains current landing then .ok (current, requires)
    else match body.handlerKind? current with
      | some kind => .error (.malformed (.leavesHandler form stmt kind))
      | none =>
        let requires := requires ++ (body.finallyOf? current).toList
        match body.parent? current with
        | some parent => body.leaveScopes numbering stmt form landing steps parent requires
        | none => .ok (current, requires)

/-- Walks from the target of a `goto` outward, at most `steps` scopes far, to the scope at which
the walk from the jump has stopped (`analysis/cfg/graph:294–308`). -/
def enterScopes (body : Body) (stmt common : StmtId) : Nat → StmtId → Except Error Unit
  | 0, _ => .ok ()
  | steps + 1, entered =>
    if entered = common then .ok ()
    else if (body.role? entered).any (·.isProtected) then
      .error (.malformed (.entersProtected stmt entered))
    else match body.parent? entered with
      | some parent => body.enterScopes stmt common steps parent
      | none => .ok ()

/-- Only a `goto` enters scopes (`analysis/cfg/graph:293–309`). -/
def enterTarget (body : Body) (stmt common : StmtId) : JumpTarget → Except Error Unit
  | .atLabel _ dest => body.enterScopes stmt common body.size dest
  | _ => .ok ()

/-- Checks the scopes that a jump leaves and enters, and gives the `finally` bodies that it
runs on its way, innermost first (`analysis/cfg/graph:264–312`). -/
def checkJump (body : Body) (numbering : Numbering) (stmt : StmtId) (form : Jump)
    (target : JumpTarget) : Except Error (List StmtId) := do
  let (common, requires) ←
    body.leaveScopes numbering stmt form target.scope body.size stmt []
  body.enterTarget stmt common target
  return requires

end Body

/-- A jump with its target and the `finally` bodies it runs, innermost first
(`analysis/cfg/reachability:25–32`). -/
structure Route where
  source : StmtId
  target : JumpTarget
  requires : List StmtId
  deriving DecidableEq, Repr

namespace Body

/-- Checks a statement against the rules of jumps and rethrows; a jump has a route
(`analysis/cfg/graph:155–178`). -/
def route? (body : Body) (numbering : Numbering) (stmt : StmtId) :
    Except Error (Option Route) :=
  match body.get? stmt with
  | some (.jump form) => do
    let target ← body.resolve numbering stmt form
    let requires ← body.checkJump numbering stmt form target
    return some ⟨stmt, target, requires⟩
  | some .rethrow =>
    if (body.rethrowOwner? stmt).isNone then .error (.malformed (.rethrowOutside stmt))
    else .ok none
  | _ => .ok none

end Body
end ProtectedRegions
