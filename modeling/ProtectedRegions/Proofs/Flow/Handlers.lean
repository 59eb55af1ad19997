import ProtectedRegions.Flow.Jump
import ProtectedRegions.Proofs.Body.Lineage

/-!
# Handlers around statements

The bodies of the `finally` and `fault` handlers that a statement lies in. Only the step into the
body of a handler adds one.
-/

namespace ProtectedRegions

namespace Body

/-- The bodies of the `finally` and `fault` handlers around a statement, innermost first. -/
def handlersAround (body : Body) (stmt : StmtId) : List StmtId :=
  (body.lineage stmt).filter fun scope ↦ (body.handlerKind? scope).isSome

/-- A scope whose role is that of no handler is none. -/
theorem handlerKind?_eq_none {body : Body} {scope : StmtId}
    (other : ∀ kind, body.role? scope ≠ some (.handler kind)) :
    body.handlerKind? scope = none :=
  Option.eq_none_iff_forall_ne_some.mpr fun kind found ↦
    other kind (handlerKind?_eq_some.mp found)

namespace IsTree

variable {body : Body} (tree : body.IsTree)

include tree

/-- The handlers around a child are those around its parent, and the child if it is one. -/
theorem handlersAround_child {stmt child : StmtId} (mem : child ∈ body.children stmt) :
    body.handlersAround child =
      if (body.handlerKind? child).isSome then child :: body.handlersAround stmt
      else body.handlersAround stmt := by
  rw [handlersAround, tree.lineage_child mem, List.filter_cons]
  rfl

/-- Around a child that is no handler are the handlers around its parent. -/
theorem handlersAround_of_none {stmt child : StmtId} (mem : child ∈ body.children stmt)
    (none : body.handlerKind? child = none) :
    body.handlersAround child = body.handlersAround stmt := by
  rw [tree.handlersAround_child mem, none]
  rfl

/-- Only a `try` has a handler. -/
theorem handlersAround_of_plain {stmt child : StmtId} {shape : Statement}
    (found : body.get? stmt = some shape) (mem : child ∈ shape.children)
    (plain : ∀ parts, shape ≠ .tryBlock parts) :
    body.handlersAround child = body.handlersAround stmt := by
  refine tree.handlersAround_of_none (mem_children_of_get? found mem) ?_
  rw [handlerKind?, tree.role?_child mem found]
  cases shape with
  | tryBlock parts => exact (plain parts rfl).elim
  | _ => rfl

/-- A protected part of a `try` is no handler. -/
theorem handlersAround_protectedPart {stmt part : StmtId} {parts : TryStatement}
    (found : body.get? stmt = some (.tryBlock parts)) (mem : part ∈ parts.protectedParts) :
    body.handlersAround part = body.handlersAround stmt := by
  refine tree.handlersAround_of_none
    (mem_children_of_get? found (List.mem_append_left _ mem)) ?_
  rw [handlerKind?]
  rcases (tree.role?_protectedPart found mem).1 with role | ⟨place, role⟩ <;> rw [role]

/-- The body of a handler is around itself. -/
theorem handlersAround_handlerBody {stmt : StmtId} {parts : TryStatement} {clause : HandlerClause}
    (found : body.get? stmt = some (.tryBlock parts)) (handler : parts.handler = some clause) :
    body.handlersAround clause.body = clause.body :: body.handlersAround stmt := by
  have mem : clause.body ∈ body.children stmt :=
    Body.mem_children_of_get? found (by simp [Statement.children, handler])
  rw [tree.handlersAround_child mem,
    Body.handlerKind?_eq_some.mpr (tree.role?_handlerBody found handler)]
  rfl

/-- Scopes between which there is no handler have the same handlers around them. -/
theorem handlersAround_of_inside {outer inner : StmtId} (inside : body.Inside outer inner)
    (none : ∀ scope, body.Inside scope inner → ¬ body.Inside scope outer →
      body.handlerKind? scope = none) :
    body.handlersAround inner = body.handlersAround outer := by
  induction inside with
  | refl => rfl
  | @child parent stmt outside mem ih =>
    rw [tree.handlersAround_of_none mem (none stmt .refl fun within ↦
      tree.not_inside_parent mem (within.trans outside))]
    exact ih fun scope within ↦ none scope (.child within mem)

/-- Statements that are in the same handlers have the same handlers around them. -/
theorem handlersAround_eq {first second : StmtId} (has : body.has first = true)
    (has' : body.has second = true)
    (left : ∀ scope, body.Inside scope first → ¬ body.Inside scope second →
      body.handlerKind? scope = none)
    (right : ∀ scope, body.Inside scope second → ¬ body.Inside scope first →
      body.handlerKind? scope = none) :
    body.handlersAround first = body.handlersAround second := by
  revert left right
  refine tree.inductionDown (motive := fun first ↦
    (∀ scope, body.Inside scope first → ¬ body.Inside scope second →
      body.handlerKind? scope = none) →
    (∀ scope, body.Inside scope second → ¬ body.Inside scope first →
      body.handlerKind? scope = none) →
    body.handlersAround first = body.handlersAround second) ?_ ?_ has
  · intro _ right
    exact (tree.handlersAround_of_inside (tree.inside_root has') right).symm
  · intro parent stmt mem ih left right
    by_cases inside : body.Inside stmt second
    · exact (tree.handlersAround_of_inside inside right).symm
    · rw [tree.handlersAround_of_none mem (left stmt .refl inside)]
      refine ih (fun scope around ↦ left scope (.child around mem)) fun scope around outside ↦
        right scope around fun within ↦ ?_
      rcases (tree.inside_child_iff mem).mp within with rfl | within
      · exact inside around
      · exact outside within

end IsTree
end Body

end ProtectedRegions
