import ProtectedRegions.Body.Basic

/-!
# Traversals with a stack

The walks over a body keep what is still to do on a stack. A task is taken off the top, acts on
what the walk has gathered so far, and pushes further tasks. What is pushed last is done first,
so a walk in document order pushes the children of a statement from the last to the first.
-/

namespace ProtectedRegions

/-- Works off a stack, the top first, in at most `steps` steps: each task acts on the state and
then pushes further tasks, one after the other. -/
def workOff {m : Type → Type} [Monad m] {τ σ : Type} (act : τ → σ → m σ) (pushes : τ → List τ) :
    Nat → List τ → σ → m σ
  | 0, _, state => pure state
  | _ + 1, [], state => pure state
  | steps + 1, task :: rest, state => do
    workOff act pushes steps ((pushes task).reverse ++ rest) (← act task state)

/-- A visit of a walk that comes to each statement twice, before and after all that is in it. -/
inductive Visit where
  | enter (stmt : StmtId)
  | leave (stmt : StmtId)
  deriving DecidableEq, Repr

namespace Body

/-- No walk over a body takes more steps: two for each statement. -/
def walkSteps (body : Body) : Nat := 2 * body.size

/-- What a visit pushes on a walk through the whole body: the visit that leaves the statement,
and on top of it those that enter its children (`analysis/cfg/graph:207–217`). -/
def visits (body : Body) : Visit → List Visit
  | .enter stmt => .leave stmt :: (body.children stmt).reverse.map .enter
  | .leave _ => []

/-- What a visit pushes on a walk that leaves lambdas out (`regions/builder:168–175`). -/
def visitsInMethod (body : Body) : Visit → List Visit
  | .enter stmt => if body.isLambda stmt then [] else body.visits (.enter stmt)
  | .leave _ => []

/-- What a statement pushes on a walk that comes to each statement once and leaves lambdas out
(`analysis/exits:277–302`). -/
def belowInMethod (body : Body) (stmt : StmtId) : List StmtId :=
  if body.isLambda stmt then [] else (body.children stmt).reverse

end Body
end ProtectedRegions
