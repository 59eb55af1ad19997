import Mathlib.Data.List.Find
import ProtectedRegions.Proofs.Body.Methods
import ProtectedRegions.Proofs.Flow.Meeting

/-!
# Methods that two bodies share

Two bodies may have one method in common, whatever else is in them. Within the method they agree
on containment, on the roles of scopes and on what is found by looking outward: no search from a
statement of a method looks past the root of the method.
-/

namespace ProtectedRegions
namespace Body

/-- Whether the statement belongs to the method at `root`. -/
def RunsIn (body : Body) (root stmt : StmtId) : Prop :=
  body.has stmt = true ∧ body.methodOf stmt = root

/-- Whether the statements of the method at `root` are the same in both bodies, with the same
shapes. -/
def AgreeOn (body body' : Body) (root : StmtId) : Prop :=
  ∀ stmt shape, body.methodOf stmt = root ∧ body.get? stmt = some shape ↔
    body'.methodOf stmt = root ∧ body'.get? stmt = some shape

/-- Whether the statements outside of a lambda body are the same in both bodies, with the same
shapes. -/
def AgreeOutside (body body' : Body) (inner : StmtId) : Prop :=
  ∀ stmt shape, ¬ body.Inside inner stmt ∧ body.get? stmt = some shape ↔
    ¬ body'.Inside inner stmt ∧ body'.get? stmt = some shape

/-- A method that two well-formed bodies share. -/
structure Shared (body body' : Body) (root : StmtId) : Prop where
  wellFormed : body.WellFormed
  wellFormed' : body'.WellFormed
  member : root ∈ body.methods
  member' : root ∈ body'.methods
  agree : body.AgreeOn body' root

/-- Agreement on a part of the statements is settled by those that one of the bodies has. -/
theorem agree_iff {body body' : Body} {part part' : StmtId → Bool} :
    (∀ stmt shape, part stmt = true ∧ body.get? stmt = some shape ↔
      part' stmt = true ∧ body'.get? stmt = some shape) ↔
    ∀ stmt ∈ body.ids ++ body'.ids,
      (body.get? stmt).filter (fun _ ↦ part stmt) =
        (body'.get? stmt).filter (fun _ ↦ part' stmt) := by
  have shown {body : Body} {part : StmtId → Bool} {stmt : StmtId} {shape : Statement} :
      part stmt = true ∧ body.get? stmt = some shape ↔
        (body.get? stmt).filter (fun _ ↦ part stmt) = some shape := by
    rw [Option.filter_eq_some_iff, and_comm]
  have listed {body : Body} {part : StmtId → Bool} {stmt : StmtId} {shape : Statement}
      (found : (body.get? stmt).filter (fun _ ↦ part stmt) = some shape) : stmt ∈ body.ids :=
    StatementTable.mem_ids.mpr
      (of_decide_eq_true (has_iff_get?.mpr ⟨shape, (shown.mpr found).2⟩))
  simp only [shown]
  constructor
  · intro agree stmt _
    exact Option.ext fun shape ↦ agree stmt shape
  · intro agree stmt shape
    constructor <;> intro found
    · rw [← agree stmt (List.mem_append_left _ (listed found)), found]
    · rw [agree stmt (List.mem_append_right _ (listed found)), found]

instance (body body' : Body) (root : StmtId) : Decidable (body.AgreeOn body' root) :=
  decidable_of_iff (∀ stmt ∈ body.ids ++ body'.ids,
    (body.get? stmt).filter (fun _ ↦ decide (body.methodOf stmt = root)) =
      (body'.get? stmt).filter (fun _ ↦ decide (body'.methodOf stmt = root)))
    (agree_iff.symm.trans (by simp only [decide_eq_true_iff, AgreeOn]))

/-- Agreement outside of a lambda body can be told from the chains of scopes. -/
theorem agreeOutside_iff {body body' : Body} (tree : body.IsTree) (tree' : body'.IsTree)
    {inner : StmtId} : body.AgreeOutside body' inner ↔
      ∀ stmt ∈ body.ids ++ body'.ids,
        (body.get? stmt).filter (fun _ ↦ decide (inner ∉ body.lineage stmt)) =
          (body'.get? stmt).filter (fun _ ↦ decide (inner ∉ body'.lineage stmt)) := by
  have outside {body : Body} (tree : body.IsTree) (stmt : StmtId) (shape : Statement) :
      ¬ body.Inside inner stmt ∧ body.get? stmt = some shape ↔
        decide (inner ∉ body.lineage stmt) = true ∧ body.get? stmt = some shape :=
    and_congr_left fun found ↦ by
      rw [decide_eq_true_iff, tree.mem_lineage (has_iff_get?.mpr ⟨shape, found⟩)]
  simp only [AgreeOutside, outside tree, outside tree', agree_iff]

section Steps

variable {body : Body} (tree : body.IsTree) {parent stmt : StmtId}

include tree

private theorem apart_step (mem : stmt ∈ body.children parent) (numbering : Numbering)
    (other : StmtId) : body.apart numbering stmt other =
      if numbering.contains stmt other then [] else stmt :: body.apart numbering parent other := by
  rw [apart, apart, tree.lineage_child mem, List.takeWhile_cons]
  cases numbering.contains stmt other <;> rfl

private theorem enclosing?_step (mem : stmt ∈ body.children parent) {shape : Statement}
    (found : body.get? parent = some shape) (plain : shape.isLambda = false)
    (accepts : Statement → Bool) : body.enclosing? accepts stmt =
      if accepts shape then some parent else body.enclosing? accepts parent := by
  have passes : body.isLambda parent = false := by
    rw [isLambda, found]
    exact plain
  rw [enclosing?, enclosing?, tree.ancestors_child mem, lineage_eq_cons,
    List.takeWhile_cons_of_pos (by simp [passes]), List.find?_cons, found, Option.any_some]
  cases accepts shape <;> rfl

private theorem rethrowOwner?_step (mem : stmt ∈ body.children parent) :
    body.rethrowOwner? stmt =
      if (body.role? stmt).any (·.endsRethrow) then
        if (body.role? stmt).any (·.isCatch) then some stmt else none
      else body.rethrowOwner? parent := by
  rw [rethrowOwner?, rethrowOwner?, tree.lineage_child mem, List.find?_cons]
  cases (body.role? stmt).any (·.endsRethrow) with
  | false => rfl
  | true => rfl

end Steps

namespace IsTree

variable {body : Body} (tree : body.IsTree) {root : StmtId} (member : root ∈ body.methods)

include tree

/-- The children of a statement other than a lambda run in its method. -/
theorem runsIn_child {parent stmt : StmtId} {shape : Statement} (runs : body.RunsIn root parent)
    (found : body.get? parent = some shape) (plain : shape.isLambda = false)
    (mem : stmt ∈ shape.children) : body.RunsIn root stmt := by
  have child := mem_children_of_get? found mem
  refine ⟨tree.has_child child, ?_⟩
  rw [tree.methodOf_child child, isLambda, found, Option.any_some, plain]
  exact runs.2

/-- A statement other than a lambda runs in the method of its children. -/
theorem runsIn_parent {parent stmt : StmtId} {shape : Statement}
    (found : body.get? parent = some shape) (plain : shape.isLambda = false)
    (mem : stmt ∈ shape.children) (runs : body.RunsIn root stmt) : body.RunsIn root parent := by
  have method := runs.2
  rw [tree.methodOf_child (mem_children_of_get? found mem), isLambda, found, Option.any_some,
    plain] at method
  exact ⟨has_iff_get?.mpr ⟨shape, found⟩, method⟩

/-- What is listed of a method inside a scope runs in the method. -/
theorem runsIn_of_mem_inMethod {scope stmt : StmtId} (runs : body.RunsIn root scope)
    (mem : stmt ∈ body.inMethod scope) : body.RunsIn root stmt := by
  refine tree.inductionUp (motive := fun scope ↦ body.RunsIn root scope →
    stmt ∈ body.inMethod scope → body.RunsIn root stmt)
    (fun scope shape found ih runs mem ↦ ?_) runs.1 runs mem
  obtain ⟨plain, rfl | ⟨child, listed, mem⟩⟩ := (tree.mem_inMethod_step runs.1).mp mem
  · exact runs
  · rw [children_of_get? found] at listed
    rw [isLambda, found, Option.any_some] at plain
    exact ih child listed (tree.runsIn_child runs found plain listed) mem

include member

theorem runsIn_root : body.RunsIn root root :=
  ⟨tree.has_of_mem_methods member, tree.methodOf_of_mem_methods member⟩

/-- The root of a method is the child of a lambda or of nothing. -/
theorem isLambda_of_root {parent : StmtId} (mem : root ∈ body.children parent) :
    body.isLambda parent = true := by
  rcases mem_methods.mp member with rfl | ⟨stmt, found⟩
  · exact (tree.root_not_mem parent mem).elim
  · rw [tree.parent_unique mem (mem_children_of_get? found List.mem_cons_self)]
    exact isLambda_iff.mpr ⟨root, found⟩

omit member in
/-- Induction over a method from its root down. -/
theorem inductionMethod {motive : StmtId → Prop} (base : motive root)
    (child : ∀ parent stmt shape, body.RunsIn root parent → body.get? parent = some shape →
      shape.isLambda = false → stmt ∈ shape.children → motive parent → motive stmt)
    {stmt : StmtId} (runs : body.RunsIn root stmt) : motive stmt := by
  refine tree.inductionDown (motive := fun stmt ↦ body.RunsIn root stmt → motive stmt)
    (fun runs ↦ ?_) (fun parent stmt mem ih runs ↦ ?_) runs.1 runs
  · rwa [← tree.methodOf_root, runs.2]
  · obtain ⟨shape, found, listed⟩ := get?_of_mem_children mem
    have method := runs.2
    rw [tree.methodOf_child mem] at method
    split at method
    · rwa [method]
    · next plain =>
      have runs' : body.RunsIn root parent := ⟨has_of_mem_children mem, method⟩
      rw [isLambda, found, Option.any_some, Bool.not_eq_true] at plain
      exact child parent stmt shape runs' found plain listed (ih runs')

omit tree in
/-- The root of a method is the root of the body or the child of a lambda. -/
theorem root_cases : root = body.root ∨
    ∃ stmt, root ∈ body.children stmt ∧ body.isLambda stmt = true := by
  rcases mem_methods.mp member with same | ⟨stmt, found⟩
  · exact .inl same
  · exact .inr ⟨stmt, mem_children_of_get? found List.mem_cons_self, isLambda_iff.mpr ⟨root, found⟩⟩

/-- The root of a method has no role, or that of a lambda body. -/
theorem role?_cases : body.role? root = none ∨ body.role? root = some .lambdaBody := by
  rcases root_cases member with rfl | ⟨stmt, mem, lambda⟩
  · exact .inl tree.role?_root
  · exact .inr ((tree.role?_eq_lambdaBody mem).mpr lambda)

theorem handlerKind?_root : body.handlerKind? root = none := by
  rcases tree.role?_cases member with role | role <;> rw [handlerKind?, role]

theorem finallyOf?_root : body.finallyOf? root = none := by
  rcases tree.role?_cases member with role | role <;> rw [finallyOf?, role]

/-- The search for a construct looks no further than the root of a method. -/
theorem enclosing?_root (accepts : Statement → Bool) : body.enclosing? accepts root = none := by
  rcases root_cases member with rfl | ⟨stmt, mem, lambda⟩
  · rw [enclosing?, ancestors, tree.lineage_root]
    rfl
  · rw [enclosing?, tree.ancestors_child mem, lineage_eq_cons,
      List.takeWhile_cons_of_neg (by simp [lambda])]
    rfl

/-- The search for a catch body looks no further than the root of a method. -/
theorem rethrowOwner?_root : body.rethrowOwner? root = none := by
  rcases root_cases member with rfl | ⟨stmt, mem, lambda⟩
  · simp [rethrowOwner?, tree.lineage_root, tree.role?_root]
  · simp [rethrowOwner?_step tree mem, (tree.role?_eq_lambdaBody mem).mpr lambda,
      Role.endsRethrow, Role.isCatch]

/-- A statement of a method that contains the root of it is the root. -/
theorem eq_of_inside_root {outer : StmtId} (runs : body.RunsIn root outer)
    (inside : body.Inside outer root) : outer = root := by
  have around := (tree.methodOf_spec runs.1).2
  rw [runs.2] at around
  exact tree.inside_antisymm (tree.has_of_mem_methods member) inside around

/-- The root of a method holds the statements of the method. -/
theorem apart_root {other : StmtId} (runs : body.RunsIn root other) :
    body.apart (Numbering.ofBody body) root other = [] := by
  have around := (tree.methodOf_spec runs.1).2
  rw [runs.2] at around
  have holds := (Numbering.contains_iff tree (tree.has_of_mem_methods member) runs.1).mpr around
  rw [apart, lineage_eq_cons, List.takeWhile_cons_of_neg (by simp [holds])]

end IsTree

namespace Shared

variable {body body' : Body} {root : StmtId} (shared : body.Shared body' root)

include shared

theorem symm : body'.Shared body root :=
  ⟨shared.wellFormed', shared.wellFormed, shared.member', shared.member,
    fun stmt shape ↦ (shared.agree stmt shape).symm⟩

variable {stmt : StmtId} (runs : body.RunsIn root stmt)

include runs

/-- The statements of the method have the same shapes. -/
theorem get?_eq : body'.get? stmt = body.get? stmt := by
  obtain ⟨shape, found⟩ := has_iff_get?.mp runs.1
  rw [found]
  exact ((shared.agree stmt shape).mp ⟨runs.2, found⟩).2

/-- The statements of the method belong to it in both bodies. -/
theorem runsIn : body'.RunsIn root stmt := by
  obtain ⟨shape, found⟩ := has_iff_get?.mp runs.1
  obtain ⟨method, found⟩ := (shared.agree stmt shape).mp ⟨runs.2, found⟩
  exact ⟨has_iff_get?.mpr ⟨shape, found⟩, method⟩

omit runs in
/-- Induction over the method from its root down, in both bodies. -/
theorem induction {motive : StmtId → Prop} (base : motive root)
    (child : ∀ parent stmt shape, body.RunsIn root parent → body.get? parent = some shape →
      body'.get? parent = some shape → shape.isLambda = false → stmt ∈ shape.children →
      body.RunsIn root stmt → motive parent → motive stmt)
    {stmt : StmtId} (runs : body.RunsIn root stmt) : motive stmt :=
  shared.wellFormed.toIsTree.inductionMethod base (fun parent stmt shape runs found plain mem ih ↦
    child parent stmt shape runs found ((shared.get?_eq runs).trans found) plain mem
      (shared.wellFormed.toIsTree.runsIn_child runs found plain mem) ih) runs

/-- Containment within the method is the same. -/
theorem inside_iff {outer : StmtId} (runs' : body.RunsIn root outer) :
    body'.Inside outer stmt ↔ body.Inside outer stmt := by
  have tree := shared.wellFormed.toIsTree
  have tree' := shared.wellFormed'.toIsTree
  refine shared.induction (motive := fun stmt ↦ body'.Inside outer stmt ↔ body.Inside outer stmt)
    ?_ (fun parent stmt shape _ found found' _ mem _ ih ↦ ?_) runs
  · constructor <;> intro inside
    · rw [tree'.eq_of_inside_root shared.member' (shared.runsIn runs') inside]
      exact .refl
    · rw [tree.eq_of_inside_root shared.member runs' inside]
      exact .refl
  · rw [tree.inside_child_iff (mem_children_of_get? found mem),
      tree'.inside_child_iff (mem_children_of_get? found' mem), ih]

/-- The numberings agree on containment within the method. -/
theorem contains_eq {outer : StmtId} (runs' : body.RunsIn root outer) :
    (Numbering.ofBody body').contains outer stmt = (Numbering.ofBody body).contains outer stmt := by
  rw [Bool.eq_iff_iff, Numbering.contains_iff shared.wellFormed.toIsTree runs'.1 runs.1,
    Numbering.contains_iff shared.wellFormed'.toIsTree (shared.runsIn runs').1
      (shared.runsIn runs).1, shared.inside_iff runs runs']

/-- The scopes around a statement that do not hold another one are the same. -/
theorem apart_eq {other : StmtId} (runs' : body.RunsIn root other) :
    body'.apart (Numbering.ofBody body') stmt other =
        body.apart (Numbering.ofBody body) stmt other ∧
      ∀ scope ∈ body.apart (Numbering.ofBody body) stmt other, body.RunsIn root scope := by
  have tree := shared.wellFormed.toIsTree
  have tree' := shared.wellFormed'.toIsTree
  refine shared.induction (motive := fun stmt ↦
    body'.apart (Numbering.ofBody body') stmt other =
        body.apart (Numbering.ofBody body) stmt other ∧
      ∀ scope ∈ body.apart (Numbering.ofBody body) stmt other, body.RunsIn root scope)
    ?_ (fun parent stmt shape _ found found' _ mem runs ih ↦ ?_) runs
  · rw [tree.apart_root shared.member runs', tree'.apart_root shared.member' (shared.runsIn runs')]
    exact ⟨rfl, List.forall_mem_nil _⟩
  · rw [apart_step tree (mem_children_of_get? found mem),
      apart_step tree' (mem_children_of_get? found' mem), shared.contains_eq runs' runs, ih.1]
    refine ⟨rfl, ?_⟩
    split
    · exact List.forall_mem_nil _
    · exact List.forall_mem_cons.mpr ⟨runs, ih.2⟩

/-- The search for a construct around a statement finds the same. -/
theorem enclosing?_eq (accepts : Statement → Bool) :
    body'.enclosing? accepts stmt = body.enclosing? accepts stmt := by
  have tree := shared.wellFormed.toIsTree
  have tree' := shared.wellFormed'.toIsTree
  refine shared.induction (motive := fun stmt ↦
    body'.enclosing? accepts stmt = body.enclosing? accepts stmt)
    ?_ (fun parent stmt shape _ found found' plain mem _ ih ↦ ?_) runs
  · rw [tree.enclosing?_root shared.member, tree'.enclosing?_root shared.member']
  · rw [enclosing?_step tree (mem_children_of_get? found mem) found plain,
      enclosing?_step tree' (mem_children_of_get? found' mem) found' plain, ih]

/-- A statement other than the root has the same parent, which is in the method. -/
theorem parent?_eq (inner : stmt ≠ root) : body'.parent? stmt = body.parent? stmt ∧
    ∀ parent, body.parent? stmt = some parent → body.RunsIn root parent := by
  have tree := shared.wellFormed.toIsTree
  have tree' := shared.wellFormed'.toIsTree
  refine shared.induction (motive := fun stmt ↦ stmt ≠ root →
    body'.parent? stmt = body.parent? stmt ∧
      ∀ parent, body.parent? stmt = some parent → body.RunsIn root parent)
    (absurd rfl) (fun parent stmt shape runs found found' _ mem _ _ _ ↦ ?_) runs inner
  rw [tree.parent?_eq_some.mpr (mem_children_of_get? found mem),
    tree'.parent?_eq_some.mpr (mem_children_of_get? found' mem)]
  exact ⟨rfl, fun other same ↦ Option.some.inj same ▸ runs⟩

/-- A statement other than the root has a parent of the same shape. -/
theorem parentShape?_eq (inner : stmt ≠ root) :
    body'.parentShape? stmt = body.parentShape? stmt := by
  obtain ⟨same, within⟩ := shared.parent?_eq runs inner
  rw [parentShape?, parentShape?, same]
  cases outer : body.parent? stmt with
  | none => rfl
  | some parent => exact shared.get?_eq (within parent outer)

/-- A statement other than the root plays the same part. -/
theorem role?_eq (inner : stmt ≠ root) : body'.role? stmt = body.role? stmt := by
  rw [role?, role?, shared.parentShape?_eq runs inner]

/-- A rethrow belongs to the same catch body. -/
theorem rethrowOwner?_eq : body'.rethrowOwner? stmt = body.rethrowOwner? stmt := by
  have tree := shared.wellFormed.toIsTree
  have tree' := shared.wellFormed'.toIsTree
  refine shared.induction (motive := fun stmt ↦
    body'.rethrowOwner? stmt = body.rethrowOwner? stmt)
    ?_ (fun parent stmt shape _ found found' plain mem _ ih ↦ ?_) runs
  · rw [tree.rethrowOwner?_root shared.member, tree'.rethrowOwner?_root shared.member']
  · rw [rethrowOwner?_step tree (mem_children_of_get? found mem),
      rethrowOwner?_step tree' (mem_children_of_get? found' mem), ih,
      tree.role?_child mem found, tree'.role?_child mem found']

/-- A handler body is one in both bodies. -/
theorem handlerKind?_eq : body'.handlerKind? stmt = body.handlerKind? stmt := by
  by_cases inner : stmt = root
  · rw [inner, shared.wellFormed.toIsTree.handlerKind?_root shared.member,
      shared.wellFormed'.toIsTree.handlerKind?_root shared.member']
  · rw [handlerKind?, handlerKind?, shared.role?_eq runs inner]

/-- A protected scope is one in both bodies. -/
theorem isProtected_eq : (body'.role? stmt).any (·.isProtected) =
    (body.role? stmt).any (·.isProtected) := by
  by_cases inner : stmt = root
  · rw [inner, shared.wellFormed.toIsTree.not_protected_of_mem_methods shared.member,
      shared.wellFormed'.toIsTree.not_protected_of_mem_methods shared.member']
  · rw [shared.role?_eq runs inner]

/-- The same `finally` runs when a part is left. -/
theorem finallyOf?_eq : body'.finallyOf? stmt = body.finallyOf? stmt := by
  by_cases inner : stmt = root
  · rw [inner, shared.wellFormed.toIsTree.finallyOf?_root shared.member,
      shared.wellFormed'.toIsTree.finallyOf?_root shared.member']
  · rw [finallyOf?, finallyOf?, shared.role?_eq runs inner, shared.parentShape?_eq runs inner]

/-- A jump that resolves goes to the same place. -/
theorem resolve_eq_ok {form : Jump} {target : JumpTarget}
    (resolves : body.resolve (Numbering.ofBody body) stmt form = .ok target) :
    body'.resolve (Numbering.ofBody body') stmt form = .ok target := by
  have tree := shared.wellFormed.toIsTree
  have tree' := shared.wellFormed'.toIsTree
  have method {dest : StmtId} (runs : body.RunsIn root dest) :
      (Numbering.ofBody body').methodOf body'.root dest = root :=
    (Numbering.methodOf_ofBody tree' (shared.runsIn runs).1).trans (shared.runsIn runs).2
  cases form with
  | goto label =>
    rw [resolve] at resolves
    split at resolves
    · cases resolves
    next dest found =>
    split at resolves
    · next same =>
      cases resolves
      obtain ⟨inner, shaped⟩ := shared.wellFormed.labelTarget?_eq_some.mp found
      have has := has_iff_get?.mpr ⟨_, shaped⟩
      rw [Numbering.methodOf_ofBody tree has, Numbering.methodOf_ofBody tree runs.1] at same
      have dests : body.RunsIn root dest := ⟨has, same.trans runs.2⟩
      have found' := shared.wellFormed'.labelTarget?_eq_some.mpr
        ⟨inner, (shared.get?_eq dests).trans shaped⟩
      rw [resolve, found']
      exact if_pos ((method dests).trans (method runs).symm)
    · cases resolves
  | breakOut | continueLoop => rwa [resolve, shared.enclosing?_eq runs]
  | returnOut =>
    rw [resolve, Numbering.methodOf_ofBody tree runs.1, runs.2] at resolves
    rwa [resolve, method runs]

/-- A jump to a statement of the method passes or fails the same checks. -/
theorem checkJump_eq {form : Jump} {target : JumpTarget} (runs' : body.RunsIn root target.scope) :
    body'.checkJump (Numbering.ofBody body') stmt form target =
      body.checkJump (Numbering.ofBody body) stmt form target := by
  obtain ⟨left, within⟩ := shared.apart_eq runs runs'
  have handlers : (body.apart (Numbering.ofBody body) stmt target.scope).findSome?
      body'.handlerKind? = (body.apart (Numbering.ofBody body) stmt target.scope).findSome?
        body.handlerKind? := by
    rw [← List.head?_filterMap, ← List.head?_filterMap,
      List.filterMap_congr fun scope mem ↦ shared.handlerKind?_eq (within scope mem)]
  have entered : body'.enteredScope? (Numbering.ofBody body') stmt target =
      body.enteredScope? (Numbering.ofBody body) stmt target := by
    cases target with
    | atLabel label dest =>
      obtain ⟨entered, within⟩ := shared.apart_eq runs' runs
      rw [enteredScope?, enteredScope?]
      rw [show body'.apart _ dest stmt = _ from entered]
      exact List.find?_congr fun scope mem ↦ shared.isProtected_eq (within scope mem)
    | breakOf | continueOf | returnFrom => rfl
  rw [shared.wellFormed.toIsTree.checkJump_eq runs.1 runs'.1,
    shared.wellFormed'.toIsTree.checkJump_eq (shared.runsIn runs).1 (shared.runsIn runs').1,
    left, handlers, entered,
    List.filterMap_congr fun scope mem ↦ shared.finallyOf?_eq (within scope mem)]

/-- The statements of the method inside a scope are the same. -/
theorem inMethod_eq : body'.inMethod stmt = body.inMethod stmt := by
  have tree := shared.wellFormed.toIsTree
  have tree' := shared.wellFormed'.toIsTree
  refine tree.inductionUp (motive := fun stmt ↦ body.RunsIn root stmt →
    body'.inMethod stmt = body.inMethod stmt) (fun stmt shape found ih runs ↦ ?_) runs.1 runs
  have found' := (shared.get?_eq runs).trans found
  rw [tree.inMethod_eq runs.1, tree'.inMethod_eq (shared.runsIn runs).1,
    children_of_get? found, children_of_get? found', isLambda, isLambda, found, found',
    Option.any_some]
  cases plain : shape.isLambda with
  | true => rfl
  | false =>
    rw [List.flatMap_congr fun child mem ↦ ih child mem (tree.runsIn_child runs found plain mem)]

end Shared

namespace AgreeOutside

variable {body body' : Body} {inner : StmtId} (agree : body.AgreeOutside body' inner)
  (tree : body.IsTree) (tree' : body'.IsTree)

include agree

theorem symm : body'.AgreeOutside body inner := fun stmt shape ↦ (agree stmt shape).symm

/-- What is outside of the lambda body in one body is so in the other. -/
theorem outside {stmt : StmtId} (has : body.has stmt = true) (out : ¬ body.Inside inner stmt) :
    ¬ body'.Inside inner stmt := by
  obtain ⟨shape, found⟩ := has_iff_get?.mp has
  exact ((agree stmt shape).mp ⟨out, found⟩).1

include tree tree'

/-- A method outside of the lambda body is a method of both bodies. -/
theorem mem_methods {root : StmtId} (member : root ∈ body.methods)
    (out : ¬ body.Inside inner root) : root ∈ body'.methods := by
  have out' := agree.outside (tree.has_of_mem_methods member) out
  rcases Body.mem_methods.mp member with rfl | ⟨stmt, found⟩
  · obtain ⟨shape, found⟩ := has_iff_get?.mp tree.has_root
    obtain ⟨-, found'⟩ := (agree _ _).mp ⟨out, found⟩
    rcases tree'.exists_parent (has_iff_get?.mpr ⟨shape, found'⟩) with same | ⟨parent, mem⟩
    · exact Body.mem_methods.mpr (.inl same)
    -- A parent would be one in the first body as well.
    · obtain ⟨shape, found, listed⟩ := get?_of_mem_children mem
      obtain ⟨-, found⟩ := (agree parent shape).mpr ⟨fun around ↦ out' (.child around mem), found⟩
      exact (tree.root_not_mem parent (mem_children_of_get? found listed)).elim
  · have around : ¬ body.Inside inner stmt := fun around ↦
      out (.child around (mem_children_of_get? found List.mem_cons_self))
    exact Body.mem_methods.mpr (.inr ⟨stmt, ((agree _ _).mp ⟨around, found⟩).2⟩)

private theorem methodOf_eq (lambda : inner ∈ body.methods) {root stmt : StmtId}
    (member : root ∈ body.methods) (out : ¬ body.Inside inner root)
    (runs : body.RunsIn root stmt) : ¬ body.Inside inner stmt ∧ body'.methodOf stmt = root := by
  refine tree.inductionMethod
    (motive := fun stmt ↦ ¬ body.Inside inner stmt ∧ body'.methodOf stmt = root)
    ⟨out, tree'.methodOf_of_mem_methods (agree.mem_methods tree tree' member out)⟩
    (fun parent stmt shape _ found plain mem ih ↦ ?_) runs
  obtain ⟨around, same⟩ := ih
  have child := mem_children_of_get? found mem
  have found' := ((agree parent shape).mp ⟨around, found⟩).2
  constructor
  · rw [tree.inside_child_iff child]
    rintro (rfl | inside)
    · have isLambda := tree.isLambda_of_root lambda child
      rw [Body.isLambda, found, Option.any_some, plain] at isLambda
      cases isLambda
    · exact around inside
  · rw [tree'.methodOf_child (mem_children_of_get? found' mem), Body.isLambda, found',
      Option.any_some, plain]
    exact same

/-- The methods outside of the lambda body are the same. -/
theorem agreeOn (lambda : inner ∈ body.methods) (lambda' : inner ∈ body'.methods) {root : StmtId}
    (member : root ∈ body.methods) (out : ¬ body.Inside inner root) :
    body.AgreeOn body' root := by
  have member' := agree.mem_methods tree tree' member out
  have out' := agree.outside (tree.has_of_mem_methods member) out
  intro stmt shape
  constructor
  · rintro ⟨method, found⟩
    obtain ⟨around, method'⟩ := agree.methodOf_eq tree tree' lambda member out
      ⟨has_iff_get?.mpr ⟨shape, found⟩, method⟩
    exact ⟨method', ((agree stmt shape).mp ⟨around, found⟩).2⟩
  · rintro ⟨method, found⟩
    obtain ⟨around, method'⟩ := agree.symm.methodOf_eq tree' tree lambda' member' out'
      ⟨has_iff_get?.mpr ⟨shape, found⟩, method⟩
    exact ⟨method', ((agree stmt shape).mpr ⟨around, found⟩).2⟩

end AgreeOutside
end Body
end ProtectedRegions
