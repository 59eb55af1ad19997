import Mathlib.Data.List.Nodup
import ProtectedRegions.Body.Draft
import ProtectedRegions.Proofs.BitSet
import ProtectedRegions.Proofs.Body.Tree
import ProtectedRegions.Proofs.Lookup
import ProtectedRegions.Proofs.Outcome

/-!
# Drafts that are trees

What the checks of a draft establish. The census finds every label and every catch local once
and all children in range, the adoptions give each child its one parent, and nothing is left
detached: the body of an accepted draft is a tree whose labels and locals are defined once.
-/

namespace ProtectedRegions

namespace Statement

/-- The label that a shape defines. -/
def definedLabel? : Statement → Option LabelId
  | .labeled label _ => some label
  | _ => none

end Statement

/-- The labels that the entries of a table define. -/
def definitionsOf (entries : List (StmtId × Statement)) : List (LabelId × StmtId) :=
  entries.filterMap fun (stmt, shape) ↦ shape.definedLabel?.map (·, stmt)

/-! ### The census -/

namespace Draft

variable {draft : Draft}

/-- A child passes if it is a statement other than the root. -/
theorem checkChild_eq_ok {stmt child : StmtId} :
    draft.checkChild stmt child = .ok () ↔ child.index < draft.size ∧ child ≠ draft.root := by
  unfold checkChild
  split
  · next outside => simp [Nat.not_lt.mpr outside]
  · next inside => split <;> simp_all

private theorem bind_all {binders : List LocalId} {before after : Census}
    (h : binders.foldlM Census.bind before = .ok after) :
    after.definitions = before.definitions ∧ after.binders = binders.reverse ++ before.binders ∧
      (before.binders.Nodup → after.binders.Nodup) := by
  induction binders generalizing before with
  | nil =>
    cases h
    simp
  | cons binder rest ih =>
    rw [List.foldlM_cons, Outcome.bind_eq_ok] at h
    obtain ⟨middle, bound, h⟩ := h
    obtain ⟨definitions, binders, nodup⟩ := ih h
    unfold Census.bind at bound
    split at bound
    · cases bound
    · next fresh =>
      cases bound
      refine ⟨definitions, by simp [binders], fun start ↦ nodup (List.nodup_cons.mpr ?_)⟩
      exact ⟨fresh, start⟩

/-- What the census learns from one statement. -/
theorem record_eq_ok {before after : Census} {stmt : StmtId} {shape : Statement}
    (h : Census.record draft before (stmt, shape) = .ok after) :
    (∀ child ∈ shape.children, child.index < draft.size ∧ child ≠ draft.root) ∧
      shape.IsComplete ∧
      after.definitions =
        (shape.definedLabel?.map (·, stmt)).toList ++ before.definitions ∧
      after.binders = shape.binders.reverse ++ before.binders ∧
      ((before.definitions.map (·.1)).Nodup → (after.definitions.map (·.1)).Nodup) ∧
      (before.binders.Nodup → after.binders.Nodup) := by
  unfold Census.record at h
  obtain ⟨⟨⟩, checked, h⟩ := Outcome.bind_eq_ok.mp h
  refine ⟨fun child mem ↦ checkChild_eq_ok.mp (Outcome.forM_eq_ok.mp checked child mem), ?_⟩
  cases shape with
  | labeled label body =>
    simp only [Census.defineLabel] at h
    split at h
    · cases h
    · split at h
      · cases h
      · next fresh =>
        cases h
        refine ⟨trivial, rfl, rfl, fun nodup ↦ ?_, id⟩
        exact List.nodup_cons.mpr ⟨lookup_eq_none.mp fresh, nodup⟩
  | tryBlock parts =>
    simp only at h
    split at h
    · cases h
    · next complete =>
      obtain ⟨definitions, binders, nodup⟩ := bind_all h
      refine ⟨?_, definitions, binders, by simp [definitions], nodup⟩
      cases catches : parts.catches <;> cases handler : parts.handler <;>
        simp_all [Statement.IsComplete]
  | switch sections default =>
    cases default with
    | none =>
      cases h
      exact ⟨trivial, rfl, rfl, id, id⟩
    | some default =>
      simp only at h
      split at h
      · cases h
      · next inside =>
        cases h
        exact ⟨Nat.lt_of_not_le inside, rfl, rfl, id, id⟩
  | _ =>
    cases h
    exact ⟨trivial, rfl, rfl, id, id⟩

private theorem record_all {entries : List (StmtId × Statement)} {before after : Census}
    (h : entries.foldlM (Census.record draft) before = .ok after) :
    (∀ entry ∈ entries, (∀ child ∈ entry.2.children,
        child.index < draft.size ∧ child ≠ draft.root) ∧ entry.2.IsComplete) ∧
      after.definitions = (definitionsOf entries).reverse ++ before.definitions ∧
      after.binders = (bindersOf entries).reverse ++ before.binders ∧
      ((before.definitions.map (·.1)).Nodup → (after.definitions.map (·.1)).Nodup) ∧
      (before.binders.Nodup → after.binders.Nodup) := by
  induction entries generalizing before with
  | nil =>
    cases h
    simp [definitionsOf, bindersOf]
  | cons entry rest ih =>
    obtain ⟨stmt, shape⟩ := entry
    rw [List.foldlM_cons, Outcome.bind_eq_ok] at h
    obtain ⟨middle, recorded, h⟩ := h
    obtain ⟨children, complete, definitions, binders, nodup, nodup'⟩ := record_eq_ok recorded
    obtain ⟨later, definitions', binders', nodup'', nodup'''⟩ := ih h
    refine ⟨List.forall_mem_cons.mpr ⟨⟨children, complete⟩, later⟩, ?_, ?_,
      fun start ↦ nodup'' (nodup start), fun start ↦ nodup''' (nodup' start)⟩
    · rw [definitions', definitions]
      cases label : shape.definedLabel? <;> simp [definitionsOf, label]
    · rw [binders', binders]
      simp [bindersOf]

/-- What the census establishes: children are in range and not the root, shapes are complete,
each label is defined and each catch local bound once. -/
theorem census_eq_ok {census : Census} (h : draft.census = .ok census) :
    (∀ stmt shape, draft.statements.shape? stmt = some shape →
      (∀ child ∈ shape.children, child.index < draft.size ∧ child ≠ draft.root) ∧
        shape.IsComplete) ∧
      (∀ label stmt, census.definitions.lookup label = some stmt ↔
        ∃ body, draft.statements.shape? stmt = some (.labeled label body)) ∧
      (bindersOf draft.statements.entries).Nodup := by
  obtain ⟨checked, definitions, binders, nodup, nodup'⟩ := record_all h
  refine ⟨fun stmt shape found ↦ checked (stmt, shape) (StatementTable.mem_entries.mpr found),
    fun label stmt ↦ ?_, ?_⟩
  · rw [lookup_eq_some (nodup (by simp)), definitions]
    simp only [List.append_nil, List.mem_reverse, definitionsOf, List.mem_filterMap,
      Option.map_eq_some_iff, Prod.exists, Prod.mk.injEq]
    constructor
    · rintro ⟨other, shape, mem, found, defined, rfl, rfl⟩
      cases shape <;> simp only [Statement.definedLabel?, Option.some.injEq,
        reduceCtorEq] at defined
      exact ⟨_, defined ▸ StatementTable.mem_entries.mp mem⟩
    · rintro ⟨body, found⟩
      exact ⟨stmt, _, StatementTable.mem_entries.mpr found, label, rfl, rfl, rfl⟩
  · have := nodup' List.nodup_nil
    rw [binders, List.append_nil] at this
    exact List.nodup_reverse.mp this

/-! ### Parents -/

/-- Entering the parent of one child leaves the other parents alone. -/
theorem join_setIfInBounds {parents : Array (Option StmtId)} {child parent : StmtId}
    (lt : child.index < parents.size) (other : StmtId) :
    ((parents.setIfInBounds child.index (some parent))[other.index]?).join =
      if other = child then some parent else parents[other.index]?.join := by
  rw [Array.getElem?_setIfInBounds]
  by_cases same : other = child
  · subst same
    simp [lt]
  · have : ¬ child.index = other.index := fun e ↦ same (by cases other; cases child; simp_all)
    simp [same, this]

/-- What the adoptions of a list enter: its pairs, of different statements that had no parent. -/
theorem adopt_all {n : Nat} {adoptions : List (StmtId × StmtId)}
    {before after : Array (Option StmtId)} (size : before.size = n)
    (inside : ∀ adoption ∈ adoptions, adoption.1.index < n)
    (h : adoptions.foldlM adopt before = .ok after) :
    (∀ child parent, after[child.index]?.join = some parent ↔
        (child, parent) ∈ adoptions ∨ before[child.index]?.join = some parent) ∧
      (adoptions.map (·.1)).Nodup ∧
      ∀ adoption ∈ adoptions, before[adoption.1.index]?.join = none := by
  induction adoptions generalizing before with
  | nil =>
    cases h
    simp
  | cons adoption rest ih =>
    obtain ⟨child, parent⟩ := adoption
    rw [List.foldlM_cons, Outcome.bind_eq_ok] at h
    obtain ⟨middle, adopted, h⟩ := h
    simp only [adopt] at adopted
    split at adopted
    · cases adopted
    · next free =>
      cases adopted
      obtain ⟨parents, nodup, free'⟩ := ih (by simpa using size)
        (fun adoption mem ↦ inside adoption (List.mem_cons_of_mem _ mem)) h
      have entered (other : StmtId) :
          ((before.setIfInBounds child.index (some parent))[other.index]?).join =
            if other = child then some parent else before[other.index]?.join :=
        join_setIfInBounds (size.symm ▸ inside (child, parent) List.mem_cons_self) other
      refine ⟨fun other outer ↦ ?_, ?_, ?_⟩
      · rw [parents, entered]
        by_cases same : other = child
        · subst same
          simp [free, eq_comm, or_comm]
        · simp [same, Prod.ext_iff]
      · rw [List.map_cons, List.nodup_cons]
        refine ⟨fun mem ↦ ?_, nodup⟩
        obtain ⟨adoption, mem, same⟩ := List.mem_map.mp mem
        have := free' adoption mem
        rw [same, entered] at this
        simp at this
      · refine List.forall_mem_cons.mpr ⟨free, fun adoption mem ↦ ?_⟩
        have := free' adoption mem
        rw [entered] at this
        split at this
        · cases this
        · exact this

/-- The adoptions are the pairs of a child and its parent. -/
theorem mem_adoptions {child parent : StmtId} :
    (child, parent) ∈ draft.adoptions ↔ child ∈ draft.statements.childrenOf parent := by
  simp only [adoptions, List.mem_flatMap, List.mem_map, Prod.mk.injEq, Prod.exists,
    StatementTable.mem_entries, StatementTable.childrenOf]
  constructor
  · rintro ⟨stmt, shape, found, other, mem, rfl, rfl⟩
    rw [found]
    exact mem
  · intro mem
    split at mem
    · next shape found => exact ⟨parent, shape, found, child, mem, rfl, rfl⟩
    · cases mem

/-- What the adoptions establish: the parents are those of the children, and no child is
named twice. -/
theorem parents_eq_ok {parents : Array (Option StmtId)} (h : draft.parents = .ok parents)
    (inside : ∀ child parent, child ∈ draft.statements.childrenOf parent →
      child.index < draft.size) :
    (∀ child parent, parents[child.index]?.join = some parent ↔
        child ∈ draft.statements.childrenOf parent) ∧
      ∀ parent, (draft.statements.childrenOf parent).Nodup := by
  obtain ⟨entered, nodup, -⟩ := adopt_all (Array.size_replicate ..)
    (fun adoption mem ↦ inside _ _ (mem_adoptions.mp mem)) h
  refine ⟨fun child parent ↦ ?_, fun parent ↦ ?_⟩
  · rw [entered, mem_adoptions]
    have blank : ((Array.replicate draft.size none)[child.index]?).join ≠ some parent := by
      rw [Array.getElem?_replicate]
      split <;> simp
    simp only [blank, or_false]
  · cases found : draft.statements.shape? parent with
    | none => simp [StatementTable.childrenOf, found]
    | some shape =>
      have mem := StatementTable.mem_entries.mpr found
      rw [adoptions, List.map_flatMap, List.nodup_flatMap] at nodup
      have := nodup.1 _ mem
      simpa [StatementTable.childrenOf, found, Function.comp_def] using this

/-! ### Attachment -/

private theorem path_of_mem_preorder {body : Body} {stmt : StmtId} {fuel : Nat} :
    ∀ {depth : Nat} {start : StmtId}, body.AtDepth depth start →
      stmt ∈ StatementTable.descend (fun stmt below ↦
        stmt :: (body.statements.childrenOf stmt).flatMap below) [] fuel start →
      ∃ extra < fuel, body.AtDepth (depth + extra) stmt := by
  induction fuel with
  | zero =>
    intro depth start _ mem
    cases mem
  | succ fuel ih =>
    intro depth start at_depth mem
    rcases List.mem_cons.mp mem with rfl | mem
    · exact ⟨0, Nat.succ_pos _, at_depth⟩
    · obtain ⟨child, below, mem⟩ := List.mem_flatMap.mp mem
      obtain ⟨extra, lt, found⟩ := ih (.child at_depth below) mem
      exact ⟨extra + 1, by omega, by simpa only [Nat.add_assoc, Nat.add_comm 1] using found⟩

private theorem mem_preorder_of_attached (h : draft.detached? = none) {stmt : StmtId}
    (lt : stmt.index < draft.size) : stmt ∈ draft.statements.preorder draft.root := by
  have attached := List.find?_eq_none.mp h stmt (StatementTable.mem_ids.mpr lt)
  simp only [Bool.not_eq_true', Bool.not_eq_false] at attached
  obtain ⟨other, mem, same⟩ := List.mem_map.mp (BitSet.contains_ofList.mp attached).1
  obtain ⟨index⟩ := stmt
  obtain ⟨index'⟩ := other
  cases same
  exact mem

/-- The parts of the check of a draft, all of them passed. -/
theorem toBody_eq_ok {body : Body} (h : draft.toBody = .ok body) :
    ∃ census parents, draft.root.index < draft.size ∧ draft.census = .ok census ∧
      draft.parents = .ok parents ∧ draft.detached? = none ∧
      draft.undefinedLabel? census.definitions = none ∧
      body = ⟨draft.statements, draft.root, parents, census.definitions, draft.localCount⟩ := by
  rcases Nat.lt_or_ge draft.root.index draft.size with inside | outside
  · simp only [toBody, Nat.not_le.mpr inside, if_false, Outcome.bind_eq_ok] at h
    obtain ⟨census, counted, parents, adopted, h⟩ := h
    split at h
    · cases h
    · next attached =>
      split at h
      · cases h
      · next defined =>
        cases h
        exact ⟨census, parents, inside, counted, adopted,
          Option.eq_none_iff_forall_ne_some.mpr attached,
          Option.eq_none_iff_forall_ne_some.mpr defined, rfl⟩
  · simp only [toBody, if_pos outside] at h
    cases h

/-- The body of an accepted draft is a tree, with its labels and locals defined once. -/
theorem wellFormed_of_toBody {body : Body} (h : draft.toBody = .ok body) : body.WellFormed := by
  obtain ⟨census, parents, inside, counted, adopted, attached, -, rfl⟩ := toBody_eq_ok h
  obtain ⟨checked, defined, bound⟩ := census_eq_ok counted
  have children (child parent : StmtId) (mem : child ∈ draft.statements.childrenOf parent) :
      child.index < draft.size ∧ child ≠ draft.root := by
    unfold StatementTable.childrenOf at mem
    split at mem
    · next shape found => exact (checked parent shape found).1 child mem
    · cases mem
  obtain ⟨entered, nodup⟩ := parents_eq_ok adopted fun child parent mem ↦
    (children child parent mem).1
  refine ⟨⟨decide_eq_true inside, fun mem ↦ decide_eq_true (children _ _ mem).1,
    entered _ _, ?_, nodup, fun has ↦ ?_⟩, defined _ _, fun found ↦ (checked _ _ found).2, bound⟩
  · cases outer : parents[draft.root.index]?.join with
    | none => exact outer
    | some parent => exact absurd rfl (children _ _ ((entered _ _).mp outer)).2
  · have mem := mem_preorder_of_attached attached (of_decide_eq_true has)
    obtain ⟨extra, lt, found⟩ := @path_of_mem_preorder ⟨draft.statements, draft.root,
      parents, census.definitions, draft.localCount⟩ _ _ _ _ .root mem
    exact ⟨extra, lt, by simpa using found⟩

end Draft
end ProtectedRegions
