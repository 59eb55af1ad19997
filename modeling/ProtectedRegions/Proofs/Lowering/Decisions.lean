import ProtectedRegions.Lowering.Cleanup
import ProtectedRegions.Proofs.Flow.Routes
import ProtectedRegions.Proofs.Flow.Search

/-!
# The decisions of a method

The walk that decides about cleanups leaves each synthetic statement of a method once, and no
question it asks of the flow fails. So there is a decision about each of them, and about nothing
else, and it is the one that the exits of the body call for.
-/

namespace ProtectedRegions
namespace Flow

variable {flow : Flow} {config : Config} {root : StmtId}

/-- The decision that is made on a visit. -/
private def decision? (flow : Flow) (config : Config) :
    Visit → Option (StmtId × CleanupDecision)
  | .enter _ => none
  | .leave stmt =>
    match flow.body.get? stmt with
    | some (.synthetic kind body) => some (stmt, flow.decideCleanup config kind stmt body)
    | _ => none

/-- What is reported on a visit. -/
private def decisionEvents (flow : Flow) (config : Config) : Visit → List Event
  | .enter _ => []
  | .leave stmt =>
    match flow.body.get? stmt with
    | some (.synthetic kind body) =>
      let decision := flow.decideCleanup config kind stmt body
      flow.exitEvents (.ofScope body stmt) ++
        [.decided kind stmt decision.crossing decision.isProtected]
    | _ => []

/-- A visit adds its decision to those made before. -/
private theorem decideAt_eq (tree : flow.body.IsTree) (visit : Visit)
    (decisions : List (StmtId × CleanupDecision)) : flow.decideAt config visit decisions =
      ⟨.ok ((flow.decision? config visit).toList ++ decisions),
        flow.decisionEvents config visit⟩ := by
  cases visit with
  | enter stmt => rfl
  | leave stmt =>
    rw [decideAt, decision?, decisionEvents]
    cases found : flow.body.get? stmt with
    | none => rfl
    | some shape =>
      cases shape with
      | synthetic kind body =>
        have has := Body.has_iff_get?.mpr ⟨_, found⟩
        have inner := tree.has_child (Body.mem_children_of_get? found List.mem_cons_self)
        dsimp only
        rw [analyze_of_named tree (ExitQuery.named_ofScope has inner), Logged.ok_bind]
        rfl
      | _ => rfl

/-- What is decided about the synthetic statements of a method: for each of them, and for nothing
else, what the exits of its body call for. -/
structure Decides (flow : Flow) (config : Config) (root : StmtId)
    (decisions : List (StmtId × CleanupDecision)) : Prop where
  right : ∀ stmt decision, (stmt, decision) ∈ decisions → ∃ kind inner,
    flow.body.get? stmt = some (.synthetic kind inner) ∧ stmt ∈ flow.body.inMethod root ∧
      decision = flow.decideCleanup config kind stmt inner
  complete : ∀ stmt kind inner, flow.body.get? stmt = some (.synthetic kind inner) →
    stmt ∈ flow.body.inMethod root → stmt ∈ decisions.map (·.1)

/-- The walk through a method decides about its synthetic statements. -/
theorem exists_decideMethod_eq (tree : flow.body.IsTree) (config : Config)
    (has : flow.body.has root = true) :
    ∃ decisions events, flow.decideMethod config root = ⟨.ok decisions, events⟩ ∧
      flow.Decides config root decisions := by
  have walk : flow.decideMethod config root =
      ⟨.ok ((flow.body.tourInMethod root).reverse.filterMap (flow.decision? config)),
        (flow.body.tourInMethod root).flatMap (flow.decisionEvents config)⟩ := by
    rw [decideMethod, tree.workOff_visitsInMethod has,
      Logged.foldlM_eq fun visit _ decisions ↦ decideAt_eq tree visit decisions,
      List.foldl_flip_append_eq_append, List.append_nil, ← List.map_reverse, ← List.flatMap_def,
      ← List.filterMap_eq_flatMap_toList]
  refine ⟨_, _, walk, fun stmt decision mem ↦ ?_, fun stmt kind inner found mem ↦ ?_⟩
  · obtain ⟨visit, visited, made⟩ := List.mem_filterMap.mp mem
    cases visit with
    | enter stmt => cases made
    | leave stmt =>
      rw [decision?] at made
      split at made
      · next kind inner found =>
        cases made
        exact ⟨kind, inner, found,
          (tree.leave_mem_tourInMethod has).mp (List.mem_reverse.mp visited), rfl⟩
      · cases made
  · have visited := List.mem_reverse.mpr ((tree.leave_mem_tourInMethod has).mpr mem)
    have made : flow.decision? config (.leave stmt) =
        some (stmt, flow.decideCleanup config kind stmt inner) := by
      rw [decision?, found]
    exact List.mem_map.mpr ⟨_, List.mem_filterMap.mpr ⟨_, visited, made⟩, rfl⟩

end Flow
end ProtectedRegions
