import ProtectedRegions.Proofs.Flow.Forgetting
import ProtectedRegions.Proofs.Lowering.Cleanups

/-!
# Cleanups under forgotten conditions

A synthetic statement is protected for the exits of its body, and none of these is lost when
conditions are forgotten. So less is known, more is protected: whatever has its cleanup in a
`finally` keeps it there. Which locals may be read where does not depend on conditions, so the same
trees are built.
-/

namespace ProtectedRegions
namespace Flow

variable {flow : Flow} {chosen : StmtId → Bool} {config : Config}

/-- Reads of catch locals are in scope regardless of conditions. -/
theorem checkCatchLocals_forget :
    (flow.forget chosen).checkCatchLocals = flow.checkCatchLocals := by
  have bindings : (flow.body.forget chosen).bindings = flow.body.bindings := by
    rw [Body.bindings, Body.bindings, Body.entries_forget, List.flatMap_map]
    refine List.flatMap_congr fun entry _ ↦ ?_
    exact Statement.apply_forgetIf (·.bindings entry.1) (fun _ _ _ ↦ rfl) (fun _ _ ↦ rfl) ..
  have reads : (flow.forget chosen).checkReads = flow.checkReads := rfl
  rw [checkCatchLocals, checkCatchLocals, reads, forget, bindings, Body.entries_forget]
  refine (List.forM_map ..).trans (congrArg (List.forM _) (funext fun entry ↦ ?_))
  exact Statement.apply_forgetIf (fun shape ↦ flow.checkReads flow.body.bindings (entry.1, shape))
    (fun _ _ _ ↦ rfl) (fun _ _ ↦ rfl) ..

/-- What is protected stays protected. -/
theorem isProtected_forget (accepted : flow.Accepted) (blurred : (flow.forget chosen).Accepted)
    {kind : SyntheticKind} {stmt inner : StmtId}
    (guarded : (flow.decideCleanup config kind stmt inner).isProtected = true) :
    ((flow.forget chosen).decideCleanup config kind stmt inner).isProtected = true := by
  rw [decideCleanup, Bool.or_eq_true, decide_eq_true_iff, decide_eq_true_iff,
    List.countP_pos_iff] at guarded ⊢
  refine guarded.imp_right ?_
  rintro ⟨edge, leaves, needs⟩
  obtain ⟨mem, leave⟩ := List.mem_filter.mp leaves
  obtain ⟨later, mem, persists⟩ := exits_forget accepted blurred mem
  refine ⟨later, List.mem_filter.mpr ⟨mem, ?_⟩, ?_⟩
  · rwa [persists.kind]
  · rwa [Config.needsCleanup, persists.target]

/-- The `finally` regions of cleanups are those of the protected synthetic statements of the
method. -/
theorem Accepted.isCleanup_iff (accepted : flow.Accepted) {root : StmtId}
    (member : root ∈ flow.body.methods) {stmt : StmtId} {kind : SyntheticKind} :
    (∃ region ∈ (flow.methodTree config root).regions, region.IsCleanup stmt kind) ↔
      ∃ inner, flow.body.get? stmt = some (.synthetic kind inner) ∧
        flow.body.methodOf stmt = root ∧
          (flow.decideCleanup config kind stmt inner).isProtected = true := by
  have tree := accepted.wellFormed.toIsTree
  have rooted := tree.has_of_mem_methods member
  constructor
  · rintro ⟨region, listed, cleanup⟩
    rcases toRegionHead_methodTree config tree rooted listed with
      head | ⟨stmt', inMethod, shape, found, own⟩
    · cases cleanup.handles.symm.trans (congrArg (·.kind) head)
    · obtain ⟨inner, rfl, guarded, head | head⟩ := synthetic_of_ownHeads own cleanup.origin
      · obtain rfl : stmt' = stmt := (congrArg (·.stmt) head).symm.trans cleanup.own
        have has := Body.has_iff_get?.mpr ⟨_, found⟩
        obtain ⟨-, method, -⟩ := (tree.mem_inMethod rooted has).mp inMethod
        exact ⟨inner, found, method.trans (tree.methodOf_of_mem_methods member), guarded⟩
      · cases cleanup.handles.symm.trans (congrArg (·.kind) head)
  · rintro ⟨inner, shaped, within, guarded⟩
    exact (accepted.exists_isCleanup member shaped within).mpr guarded

end Flow

namespace Config

variable {draft : Draft} {body : Body}

/-- Nothing is lost where less is known about conditions. Of a body and the same body without what
is known about the conditions of some statements, both are accepted or neither is. Then every
statement that starts or completes, and every place a jump arrives at, is still live; every exit of
every query is still there; and for every configuration the same methods are built, and each
synthetic statement that runs its cleanup in a `finally` still does. -/
theorem forget_monotone (made : draft.toBody = .ok body) (chosen : StmtId → Bool) :
    (draft.forget chosen).toBody = .ok (body.forget chosen) ∧
      ((∃ flow, Flow.ofBody body = .ok flow) ↔
        ∃ flow, Flow.ofBody (body.forget chosen) = .ok flow) ∧
      ∀ flow later, Flow.ofBody body = .ok flow → Flow.ofBody (body.forget chosen) = .ok later →
        (∀ stmt, (flow.isReachable stmt = true → later.isReachable stmt = true) ∧
          (flow.completes stmt = true → later.completes stmt = true) ∧
          (flow.targetReachable stmt = true → later.targetReachable stmt = true)) ∧
        (∀ query exits, flow.exits? query = .ok exits →
          ∃ exits', later.exits? query = .ok exits' ∧
            ∀ edge ∈ exits, ∃ edge' ∈ exits', edge.Persists edge') ∧
        ∀ (config : Config) (tree : RegionTree), config.Builds body tree →
          (∃ tree', config.Builds (body.forget chosen) tree' ∧ tree'.method = tree.method) ∧
            ∀ tree', config.Builds (body.forget chosen) tree' → tree'.method = tree.method →
              ∀ stmt kind, (∃ region ∈ tree.regions, region.IsCleanup stmt kind) →
                ∃ region ∈ tree'.regions, region.IsCleanup stmt kind := by
  have blurred := Draft.toBody_forget made chosen
  have analysis := Flow.ofBody_forget body chosen
  refine ⟨blurred, ?_, ?_⟩
  · rw [analysis]
    cases Flow.ofBody body with
    | error error => exact iff_of_false (fun ⟨_, same⟩ ↦ nomatch same) fun ⟨_, same⟩ ↦ nomatch same
    | ok flow => exact iff_of_true ⟨_, rfl⟩ ⟨_, rfl⟩
  intro flow later analysed analysed'
  obtain rfl : flow.forget chosen = later := by
    rw [analysis, analysed] at analysed'
    exact Except.ok.inj analysed'
  obtain ⟨accepted, -, same⟩ := checks_iff made analysed
  obtain ⟨accepted', -, same'⟩ := checks_iff blurred analysed'
  have marked {node : FlowNode} := @Flow.contains_forget flow chosen accepted accepted' node
  refine ⟨fun stmt ↦ ⟨marked, marked, Flow.targetReachable_forget accepted accepted'⟩,
    fun query exits ↦ Flow.exits?_forget accepted accepted', ?_⟩
  intro config tree builds
  obtain ⟨checked, root, member, rfl⟩ := (builds_iff made analysed).mp builds
  have member' : root ∈ (body.forget chosen).methods := by rwa [Body.methods_forget]
  have checked' : (flow.forget chosen).checkCatchLocals = .ok () :=
    Flow.checkCatchLocals_forget.trans checked
  refine ⟨⟨_, (builds_iff blurred analysed').mpr ⟨checked', root, member', rfl⟩, rfl⟩, ?_⟩
  intro tree' builds' method stmt kind cleanup
  obtain ⟨-, root', -, rfl⟩ := (builds_iff blurred analysed').mp builds'
  obtain rfl : root' = root := method
  subst same
  obtain ⟨inner, shaped, within, guarded⟩ := (accepted.isCleanup_iff member).mp cleanup
  refine (accepted'.isCleanup_iff member').mpr ⟨inner, ?_, ?_, ?_⟩
  · exact (Body.get?_forget_eq_some (by simp) (by simp)).mpr shaped
  · exact (congrFun Body.methodOf_forget stmt).trans within
  · exact Flow.isProtected_forget accepted accepted' guarded

end Config

/-- Two locks in a row, one around a conditional that never returns, and one around a `return`. -/
def Draft.doubting : Draft where
  statements := #[.jump .returnOut, .conditional .never ⟨0⟩ none, .synthetic .lock ⟨1⟩,
    .jump .returnOut, .synthetic .lock ⟨3⟩, .block [⟨2⟩, ⟨4⟩]]
  labelCount := 0
  localCount := 0
  root := ⟨5⟩

private theorem doubting_built : Config.default.tests .doubting (fun _ tree ↦
    tree.method == ⟨5⟩ && tree.regions.all (·.stmt != ⟨2⟩) &&
      tree.regions.any fun region ↦ region.kind == .finallyBlock &&
        region.origin == .synthetic .lock && region.stmt == ⟨4⟩) = true := by
  decide +kernel

private theorem doubting_forget_built : Config.default.tests (Draft.doubting.forget (· == ⟨1⟩))
    (fun _ tree ↦ tree.method == ⟨5⟩ && tree.regions.any fun region ↦
      region.kind == .finallyBlock && region.origin == .synthetic .lock && region.stmt == ⟨2⟩) =
        true := by
  decide +kernel

theorem Config.forget_monotone_doubting :
    ∃ body tree tree', Draft.doubting.toBody = .ok body ∧ Config.default.Builds body tree ∧
      Config.default.Builds (body.forget (· == ⟨1⟩)) tree' ∧
      (∃ region ∈ tree'.regions, region.IsCleanup ⟨4⟩ .lock) ∧
      (∀ region ∈ tree.regions, region.stmt ≠ ⟨2⟩) ∧
      ∃ region ∈ tree'.regions, region.IsCleanup ⟨2⟩ .lock := by
  obtain ⟨body, flow, tree, made, analysed, built, holds⟩ := Config.exists_built doubting_built
  obtain ⟨body', later, tree', made', analysed', built', holds'⟩ :=
    Config.exists_built doubting_forget_built
  simp only [Bool.and_eq_true, List.all_eq_true, List.any_eq_true, beq_iff_eq,
    bne_iff_ne] at holds holds'
  obtain ⟨⟨method, bare⟩, region, mem, ⟨handles, origin⟩, own⟩ := holds
  obtain ⟨method', region', mem', ⟨handles', origin'⟩, own'⟩ := holds'
  obtain ⟨blurred, -, monotone⟩ := Config.forget_monotone made (· == ⟨1⟩)
  cases blurred.symm.trans made'
  obtain ⟨-, -, trees⟩ := monotone flow later analysed analysed'
  obtain ⟨-, kept⟩ := trees .default tree (.outer built)
  refine ⟨body, tree, tree', made, .outer built, .outer built', ?_, bare, region', mem', handles',
    origin', own'⟩
  exact kept tree' (.outer built') (method'.trans method.symm) ⟨4⟩ .lock
    ⟨region, mem, handles, origin, own⟩

end ProtectedRegions
