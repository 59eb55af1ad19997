import Mathlib.Data.List.Nodup
import ProtectedRegions.Proofs.Body.Lineage

/-!
# The statements of a method

What a walk over a scope lists: the statements inside it that run in the same method, other than
those that create closures.
-/

namespace ProtectedRegions
namespace Body.IsTree

variable {body : Body} (tree : body.IsTree)

include tree

/-- Below a lambda nothing runs in its method. -/
theorem not_inside_of_lambda {stmt child inner : StmtId} (lambda : body.isLambda stmt = true)
    (mem : child ∈ body.children stmt) (inside : body.Inside child inner)
    (has : body.has inner = true) : body.methodOf inner ≠ body.methodOf stmt := by
  intro same
  have own : body.methodOf child = child := by
    rw [tree.methodOf_child mem, if_pos lambda]
  have below : body.Inside child (body.methodOf inner) := by
    rcases tree.methodOf_of_inside inside has with h | ⟨h, -⟩
    · rw [h, own]
      exact .refl
    · exact h
  rw [same] at below
  have around := (tree.methodOf_spec (has_of_mem_children mem)).2
  exact tree.not_inside_parent mem (below.trans around)

/-- What is inside a scope in the same method is the scope itself or inside a child. -/
private theorem inside_method_iff {scope stmt : StmtId} (has : body.has stmt = true) :
    body.Inside scope stmt ∧ body.methodOf stmt = body.methodOf scope ∧
        body.isLambda stmt = false ↔
      body.isLambda scope = false ∧ (stmt = scope ∨ ∃ child ∈ body.children scope,
        body.Inside child stmt ∧ body.methodOf stmt = body.methodOf child ∧
          body.isLambda stmt = false) := by
  have down (open' : body.isLambda scope = false) {child : StmtId}
      (mem : child ∈ body.children scope) : body.methodOf child = body.methodOf scope := by
    rw [tree.methodOf_child mem, open']
    rfl
  constructor
  · rintro ⟨inside, same, open'⟩
    rcases exists_child_of_inside inside with rfl | ⟨child, mem, inside⟩
    · exact ⟨open', .inl rfl⟩
    · have outer : body.isLambda scope = false := by
        by_contra lambda
        rw [Bool.not_eq_false] at lambda
        exact tree.not_inside_of_lambda lambda mem inside has same
      exact ⟨outer, .inr ⟨child, mem, inside, same.trans (down outer mem).symm, open'⟩⟩
  · rintro ⟨outer, rfl | ⟨child, mem, inside, same, open'⟩⟩
    · exact ⟨.refl, rfl, outer⟩
    · exact ⟨(Inside.of_child mem).trans inside, same.trans (down outer mem), open'⟩

/-- A walk over a scope visits nothing of a lambda, and any other scope before its children. -/
theorem inMethod_eq {scope : StmtId} (has : body.has scope = true) : body.inMethod scope =
    if body.isLambda scope then [] else scope :: (body.children scope).flatMap body.inMethod := by
  rw [inMethod, tree.recurse_eq (fun stmt below below' same ↦ ?_) has]
  rw [List.flatMap_congr same]

/-- What a walk over a scope lists, one step into the scope. -/
theorem mem_inMethod_step {scope stmt : StmtId} (has : body.has scope = true) :
    stmt ∈ body.inMethod scope ↔ body.isLambda scope = false ∧
      (stmt = scope ∨ ∃ child ∈ body.children scope, stmt ∈ body.inMethod child) := by
  rw [tree.inMethod_eq has]
  cases body.isLambda scope <;> simp

/-- A walk over a scope lists the statements of the method inside the scope. -/
theorem mem_inMethod {scope stmt : StmtId} (has : body.has scope = true)
    (has' : body.has stmt = true) : stmt ∈ body.inMethod scope ↔
      body.Inside scope stmt ∧ body.methodOf stmt = body.methodOf scope ∧
        body.isLambda stmt = false := by
  refine tree.inductionBelow (motive := fun scope ↦ stmt ∈ body.inMethod scope ↔
    body.Inside scope stmt ∧ body.methodOf stmt = body.methodOf scope ∧ body.isLambda stmt = false)
    (fun scope has ih ↦ ?_) has
  rw [tree.mem_inMethod_step has, tree.inside_method_iff has']
  refine and_congr_right fun _ ↦ or_congr_right (exists_congr fun child ↦ ?_)
  exact and_congr_right fun mem ↦ ih child mem

end Body.IsTree
end ProtectedRegions
