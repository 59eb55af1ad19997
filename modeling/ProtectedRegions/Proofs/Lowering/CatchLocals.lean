import ProtectedRegions.Lowering.CatchLocals
import ProtectedRegions.Proofs.Flow.Routes

/-!
# Reads in scope

What the check of catch locals establishes: each read of a local that a catch clause binds
stands in the body of the clause, or in a filter that may see the local.
-/

namespace ProtectedRegions
namespace Body

/-- The clause at a place of a `try` binds a local. -/
def Binds (body : Body) (stmt : StmtId) (place : Nat) (clause : CatchClause) (binder : LocalId) :
    Prop :=
  ∃ parts, body.get? stmt = some (.tryBlock parts) ∧ parts.catches[place]? = some clause ∧
    clause.binder = some binder

/-- Every read of a catch local is in the scope of the local: an expression is inside the body of
the clause, and a filter belongs to the clause or to a `try` inside its body. -/
structure ReadsInScope (body : Body) : Prop where
  expression {stmt owner : StmtId} {uses : List LocalId} {binder : LocalId} {place : Nat}
    {clause : CatchClause} : body.get? stmt = some (.expression uses) → binder ∈ uses →
      body.Binds owner place clause binder → body.Inside clause.body stmt
  filter {stmt owner : StmtId} {parts : TryStatement} {index place : Nat}
    {guarded clause : CatchClause} {uses : List LocalId} {binder : LocalId} :
    body.get? stmt = some (.tryBlock parts) → parts.catches[index]? = some guarded →
      guarded.filter = some uses → binder ∈ uses → body.Binds owner place clause binder →
        (owner = stmt ∧ place = index) ∨ body.Inside clause.body stmt

variable {body : Body}

/-- The bindings are those of the clauses. -/
theorem mem_bindings {binding : Binding} :
    binding ∈ body.bindings ↔ ∃ clause,
      body.Binds binding.stmt binding.clause clause binding.binder ∧
        clause.body = binding.handler := by
  simp only [bindings, List.mem_flatMap]
  constructor
  · rintro ⟨⟨stmt, shape⟩, entry, mem⟩
    have found := StatementTable.mem_entries.mp entry
    cases shape with
    | tryBlock parts =>
      obtain ⟨⟨clause, place⟩, listed, made⟩ := List.mem_filterMap.mp mem
      obtain ⟨binder, binds, rfl⟩ := Option.map_eq_some_iff.mp made
      have at' := List.mem_zipIdx_iff_getElem?.mp listed
      exact ⟨clause, ⟨parts, found, at', binds⟩, rfl⟩
    | _ => cases mem
  · rintro ⟨clause, ⟨parts, found, at', binds⟩, handler⟩
    refine ⟨(binding.stmt, .tryBlock parts), StatementTable.mem_entries.mpr found, ?_⟩
    refine List.mem_filterMap.mpr
      ⟨(clause, binding.clause), List.mem_zipIdx_iff_getElem?.mpr at', ?_⟩
    simp only [binds, Option.map_some, handler]

/-- The bound locals are those that the statements bind. -/
theorem map_binder_bindings : body.bindings.map (·.binder) = bindersOf body.entries := by
  rw [bindings, bindersOf, List.map_flatMap]
  congr 1
  funext entry
  obtain ⟨stmt, shape⟩ := entry
  cases shape with
  | tryBlock parts =>
    simp only [Statement.bindings, Statement.binders, List.map_filterMap, Option.map_map]
    calc parts.catches.zipIdx.filterMap (fun entry ↦ entry.1.binder.map fun binder ↦ binder)
      _ = parts.catches.zipIdx.filterMap (fun entry ↦ entry.1.binder) := by simp
      _ = (parts.catches.zipIdx.map Prod.fst).filterMap (·.binder) := by
        rw [List.filterMap_map]
        rfl
      _ = parts.catches.filterMap (·.binder) := by rw [List.zipIdx_map_fst]
  | _ => rfl

/-- A catch local is found with the clause that binds it. -/
theorem WellFormed.find?_bindings (wf : body.WellFormed) {binder : LocalId} {binding : Binding} :
    body.bindings.find? (·.binder == binder) = some binding ↔
      binding ∈ body.bindings ∧ binding.binder = binder := by
  constructor
  · intro found
    exact ⟨List.mem_of_find?_eq_some found, by simpa using List.find?_some found⟩
  · rintro ⟨mem, rfl⟩
    have nodup := wf.nodup_binders
    rw [← map_binder_bindings] at nodup
    cases found : body.bindings.find? (·.binder == binding.binder) with
    | none =>
      have := List.find?_eq_none.mp found binding mem
      simp at this
    | some other =>
      have same : other.binder = binding.binder := by simpa using List.find?_some found
      have listed := List.mem_of_find?_eq_some found
      rw [List.inj_on_of_nodup_map nodup listed mem same]

end Body

namespace Flow.Accepted

variable {flow : Flow} (accepted : flow.Accepted)

include accepted

/-- The clause that binds a local passes a test if each clause that binds it does. -/
private theorem forall_find? (binder : LocalId) {motive : Binding → Prop} :
    (∀ binding, flow.body.bindings.find? (·.binder == binder) = some binding → motive binding) ↔
      ∀ owner place clause, flow.body.Binds owner place clause binder →
        motive ⟨binder, owner, place, clause.body⟩ := by
  constructor
  · intro passes owner place clause binds
    refine passes _ (accepted.wellFormed.find?_bindings.mpr ⟨?_, rfl⟩)
    exact Body.mem_bindings.mpr ⟨clause, binds, rfl⟩
  · intro passes binding found
    obtain ⟨mem, rfl⟩ := accepted.wellFormed.find?_bindings.mp found
    obtain ⟨clause, binds, same⟩ := Body.mem_bindings.mp mem
    have := passes _ _ clause binds
    rwa [same] at this

/-- The body of a clause is a statement. -/
theorem has_of_binds {owner : StmtId} {place : Nat} {clause : CatchClause} {binder : LocalId}
    (binds : flow.body.Binds owner place clause binder) : flow.body.has clause.body = true := by
  obtain ⟨parts, found, listed, -⟩ := binds
  refine accepted.wellFormed.has_child (Body.mem_children_of_get? found ?_)
  exact List.mem_append_left _
    (List.mem_cons_of_mem _ (List.mem_map_of_mem (List.mem_of_getElem? listed)))

/-- A read in an expression passes if it is inside the body of each clause that binds the
local. -/
theorem checkRead_eq_ok {stmt : StmtId} {binder : LocalId} (has : flow.body.has stmt = true) :
    flow.checkRead flow.body.bindings stmt binder = .ok () ↔
      ∀ owner place clause, flow.body.Binds owner place clause binder →
        flow.body.Inside clause.body stmt := by
  have inside (owner : StmtId) (place : Nat) (clause : CatchClause)
      (binds : flow.body.Binds owner place clause binder) :
      flow.contains clause.body stmt = true ↔ flow.body.Inside clause.body stmt :=
    accepted.contains_iff (accepted.has_of_binds binds) has
  have tested := accepted.forall_find? binder
    (motive := fun binding ↦ flow.contains binding.handler stmt = true)
  rw [checkRead]
  constructor
  · intro passed owner place clause binds
    refine (inside owner place clause binds).mp (tested.mp ?_ owner place clause binds)
    intro binding found
    rw [found] at passed
    by_contra outside
    simp [outside] at passed
  · intro visible
    have tested := tested.mpr fun owner place clause binds ↦
      (inside owner place clause binds).mpr (visible owner place clause binds)
    cases found : flow.body.bindings.find? (·.binder == binder) with
    | none => rfl
    | some binding => simp [tested binding found]

/-- A read in a filter passes if each clause that binds the local is that of the filter, or has the
`try` of the filter inside its body. -/
theorem checkFilterRead_eq_ok {stmt : StmtId} {index : Nat} {binder : LocalId}
    (has : flow.body.has stmt = true) :
    flow.checkFilterRead flow.body.bindings stmt index binder = .ok () ↔
      ∀ owner place clause, flow.body.Binds owner place clause binder →
        (owner = stmt ∧ place = index) ∨ flow.body.Inside clause.body stmt := by
  have inside (owner : StmtId) (place : Nat) (clause : CatchClause)
      (binds : flow.body.Binds owner place clause binder) :
      flow.contains clause.body stmt = true ↔ flow.body.Inside clause.body stmt :=
    accepted.contains_iff (accepted.has_of_binds binds) has
  have tested := accepted.forall_find? binder (motive := fun binding ↦
    (binding.stmt = stmt ∧ binding.clause = index) ∨ flow.contains binding.handler stmt = true)
  rw [checkFilterRead]
  constructor
  · intro passed owner place clause binds
    refine (tested.mp ?_ owner place clause binds).imp_right (inside owner place clause binds).mp
    intro binding found
    rw [found] at passed
    by_contra outside
    simp_all
  · intro visible
    have tested := tested.mpr fun owner place clause binds ↦
      (visible owner place clause binds).imp_right (inside owner place clause binds).mpr
    cases found : flow.body.bindings.find? (·.binder == binder) with
    | none => rfl
    | some binding =>
      have := tested binding found
      simp_all

/-- The check of catch locals passes if every read is in scope. -/
theorem checkCatchLocals_eq_ok :
    flow.checkCatchLocals = .ok () ↔ flow.body.ReadsInScope := by
  rw [checkCatchLocals, Outcome.forM_eq_ok]
  constructor
  · intro passed
    refine ⟨fun found mem binds ↦ ?_,
      fun {_ _ _ index _ guarded _ _ _} found listed guards mem binds ↦ ?_⟩
    · have has := Body.has_iff_get?.mpr ⟨_, found⟩
      have reads := passed _ (StatementTable.mem_entries.mpr found)
      exact (accepted.checkRead_eq_ok has).mp (Outcome.forM_eq_ok.mp reads _ mem) _ _ _ binds
    · have has := Body.has_iff_get?.mpr ⟨_, found⟩
      have reads := passed _ (StatementTable.mem_entries.mpr found)
      have clause := Outcome.forM_eq_ok.mp reads (guarded, index)
        (List.mem_zipIdx_iff_getElem?.mpr listed)
      simp only [guards, Option.getD_some] at clause
      exact (accepted.checkFilterRead_eq_ok has).mp (Outcome.forM_eq_ok.mp clause _ mem)
        _ _ _ binds
  · rintro visible ⟨stmt, shape⟩ entry
    have found := StatementTable.mem_entries.mp entry
    have has : flow.body.has stmt = true := Body.has_iff_get?.mpr ⟨_, found⟩
    cases shape with
    | expression uses =>
      refine Outcome.forM_eq_ok.mpr fun binder mem ↦ (accepted.checkRead_eq_ok has).mpr ?_
      intro owner place clause binds
      exact visible.expression found mem binds
    | tryBlock parts =>
      refine Outcome.forM_eq_ok.mpr ?_
      rintro ⟨clause, index⟩ listed
      refine Outcome.forM_eq_ok.mpr fun binder mem ↦ (accepted.checkFilterRead_eq_ok has).mpr ?_
      intro owner place other binds
      cases guards : clause.filter with
      | none =>
        rw [guards] at mem
        cases mem
      | some uses =>
        rw [guards] at mem
        exact visible.filter found (List.mem_zipIdx_iff_getElem?.mp listed) guards mem binds
    | _ => rfl

end Flow.Accepted
end ProtectedRegions
