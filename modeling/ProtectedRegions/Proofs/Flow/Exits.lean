import ProtectedRegions.Proofs.Body.Methods
import ProtectedRegions.Proofs.Flow.Live
import ProtectedRegions.Proofs.Flow.Search

/-!
# Leave edges

The leave edges that a query answers with: one for each live jump that is searched and crosses the
boundary, whether its target is live or not.
-/

namespace ProtectedRegions
namespace Flow

variable {flow : Flow} {query : ExitQuery}

/-- The leave edges among the exits of a query. -/
theorem leave_mem_exits_iff {edge : ExitEdge} :
    edge ∈ flow.exits query ∧ edge.kind = .leave ↔
      edge.source ∈ flow.searched query ∧
        (∃ form, flow.body.get? edge.source = some (.jump form)) ∧
        flow.leaveEdge? query.boundary edge.source = some edge := by
  have source {boundary stmt : StmtId} (found : flow.leaveEdge? boundary stmt = some edge) :
      edge.source = stmt ∧ edge.kind = .leave := by
    rw [leaveEdge?] at found
    split at found
    · split at found
      · split at found
        · cases found
          exact ⟨rfl, rfl⟩
        · cases found
      · cases found
    · cases found
  constructor
  · rintro ⟨mem, leaves⟩
    rcases List.mem_append.mp mem with mem | mem
    · obtain ⟨stmt, listed, found⟩ := List.mem_filterMap.mp mem
      rw [exitAt?] at found
      split at found
      · next form jump =>
        obtain ⟨rfl, -⟩ := source found
        exact ⟨listed, ⟨form, jump⟩, found⟩
      · rw [rethrowEdge?] at found
        split at found
        · cases found
          cases leaves
        · cases found
      · cases found
    · rw [fallThrough?] at mem
      split at mem
      · cases List.mem_singleton.mp mem
        cases leaves
      · cases mem
  · rintro ⟨listed, ⟨form, jump⟩, found⟩
    refine ⟨List.mem_append_left _ (List.mem_filterMap.mpr ⟨_, listed, ?_⟩), (source found).2⟩
    rw [exitAt?, jump]
    exact found

/-- The edge of a jump that leaves a boundary. -/
theorem leaveEdge?_eq_some {boundary stmt : StmtId} {edge : ExitEdge} :
    flow.leaveEdge? boundary stmt = some edge ↔
      flow.isReachable stmt = true ∧ ∃ target, flow.target? stmt = some target ∧
        flow.crosses boundary target = true ∧
        edge = ⟨stmt, target.exitTarget, .leave, flow.targetReachable stmt⟩ := by
  rw [leaveEdge?]
  by_cases live : flow.isReachable stmt = true
  · cases flow.target? stmt with
    | none => simp [live]
    | some target =>
      by_cases crosses : flow.crosses boundary target = true <;>
        simp [live, crosses, @eq_comm _ edge]
  · simp [live]

/-- A live jump has a leave edge if it is searched and crosses the boundary. -/
theorem exists_leave_iff {stmt : StmtId} {form : Jump}
    (jump : flow.body.get? stmt = some (.jump form)) (live : flow.isReachable stmt = true)
    {target : JumpTarget} (resolved : flow.target? stmt = some target) :
    (∃ edge ∈ flow.exits query, edge.kind = .leave ∧ edge.source = stmt) ↔
      stmt ∈ flow.searched query ∧ flow.crosses query.boundary target = true := by
  constructor
  · rintro ⟨edge, mem, leaves, rfl⟩
    obtain ⟨listed, -, found⟩ := leave_mem_exits_iff.mp ⟨mem, leaves⟩
    obtain ⟨-, target', resolved', crosses, -⟩ := leaveEdge?_eq_some.mp found
    rw [resolved] at resolved'
    cases resolved'
    exact ⟨listed, crosses⟩
  · rintro ⟨listed, crosses⟩
    have found := leaveEdge?_eq_some.mpr ⟨live, target, resolved, crosses, rfl⟩
    obtain ⟨mem, leaves⟩ := (@leave_mem_exits_iff flow query
      ⟨stmt, target.exitTarget, .leave, flow.targetReachable stmt⟩).mpr ⟨listed, ⟨form, jump⟩, found⟩
    exact ⟨_, mem, leaves, rfl⟩

/-- The target of a leave edge. -/
theorem target_of_leave {edge : ExitEdge} (mem : edge ∈ flow.exits query)
    (leaves : edge.kind = .leave) {target : JumpTarget}
    (resolved : flow.target? edge.source = some target) :
    edge.target = target.exitTarget ∧
      edge.targetReachable = flow.reach.contains target.arrival := by
  obtain ⟨-, -, found⟩ := leave_mem_exits_iff.mp ⟨mem, leaves⟩
  obtain ⟨-, target', resolved', -, same⟩ := leaveEdge?_eq_some.mp found
  rw [resolved] at resolved'
  cases resolved'
  rw [same]
  refine ⟨rfl, ?_⟩
  show flow.targetReachable edge.source = _
  rw [targetReachable, resolved]
  rfl

namespace Accepted

variable (accepted : flow.Accepted) {stmt : StmtId} {target : JumpTarget}
  (resolved : flow.target? stmt = some target)

include accepted resolved

/-- The form of a statement with a target. -/
theorem resolved_of_target :
    ∃ form, flow.body.get? stmt = some (.jump form) ∧ flow.body.Resolved stmt form target := by
  obtain ⟨form, route, found, routed, rfl⟩ := accepted.target?_eq_some.mp resolved
  exact ⟨form, found, accepted.resolved_of_routed found routed⟩

/-- A jump with a target crosses a scope if it returns or lands outside. -/
theorem crosses_iff {scope : StmtId} : flow.crosses scope target = true ↔
    target.isReturn = true ∨ ¬ flow.body.Inside scope target.scope := by
  obtain ⟨form, found, spec⟩ := accepted.resolved_of_target resolved
  have has := (spec.scope_spec accepted.wellFormed.toIsTree (Body.has_iff_get?.mpr ⟨_, found⟩)).1
  rw [Flow.crosses, Bool.or_eq_true, Bool.not_eq_true', ← Bool.not_eq_true,
    accepted.contains_iff_inside has]

/-- A jump that crosses a scope crosses what is in the scope. -/
theorem crosses_of_inside {outer inner : StmtId} (inside : flow.body.Inside outer inner)
    (crosses : flow.crosses outer target = true) :
    flow.crosses inner target = true := by
  rw [accepted.crosses_iff resolved] at crosses ⊢
  exact crosses.imp_right fun outside holds ↦ outside (inside.trans holds)

/-- A jump crosses a protected scope of its method if its target lies outside. -/
theorem crosses_iff_of_protected {scope : StmtId}
    (role : (flow.body.role? scope).any (·.isProtected) = true)
    (same : flow.body.methodOf stmt = flow.body.methodOf scope) :
    flow.crosses scope target = true ↔ ¬ flow.body.Inside scope target.scope := by
  have tree := accepted.wellFormed.toIsTree
  obtain ⟨form, found, spec⟩ := accepted.resolved_of_target resolved
  have has := Body.has_iff_get?.mpr ⟨_, found⟩
  rw [accepted.crosses_iff resolved]
  constructor
  · rintro (returns | outside) holds
    · -- The scope would hold the root of its method, which is no protected scope.
      cases spec with
      | returnOut =>
        exact accepted.not_around_root role (tree.methodOf_spec has).1 holds
          (same.symm.trans (tree.methodOf_methodOf has).symm)
      | _ => cases returns
    · exact outside holds
  · exact .inr

/-- No jump crosses the handler of a `finally` or `fault` around it. -/
theorem not_crosses_handler {scope : StmtId} {kind : HandlerKind}
    (role : flow.body.role? scope = some (.handler kind)) (inside : flow.body.Inside scope stmt)
    (same : flow.body.methodOf stmt = flow.body.methodOf scope) :
    flow.crosses scope target = false := by
  obtain ⟨form, route, found, routed, rfl⟩ := accepted.target?_eq_some.mp resolved
  have isProtected : (flow.body.role? scope).any (·.isProtected) = true := by
    rw [role]
    rfl
  rw [← Bool.not_eq_true, accepted.crosses_iff_of_protected resolved isProtected same]
  exact fun outside ↦ (accepted.checked_spec found routed).1 scope inside outside kind role

/-- A jump crosses the body of a synthetic statement if it crosses the statement. -/
theorem crosses_synthetic {owner inner : StmtId} {kind : SyntheticKind}
    (shaped : flow.body.get? owner = some (.synthetic kind inner)) :
    flow.crosses inner target = true ↔ flow.crosses owner target = true := by
  have tree := accepted.wellFormed.toIsTree
  have child := Body.mem_children_of_get? shaped (List.mem_singleton_self inner)
  refine ⟨fun crosses ↦ ?_, accepted.crosses_of_inside resolved (.of_child child)⟩
  obtain ⟨form, found, spec⟩ := accepted.resolved_of_target resolved
  rw [accepted.crosses_iff resolved] at crosses ⊢
  rcases crosses with returns | outside
  · exact .inl returns
  by_contra h
  simp only [not_or, not_not] at h
  obtain ⟨stays, holds⟩ := h
  rcases Body.exists_child_of_inside holds with same | ⟨other, mem, within⟩
  · -- No jump goes to a synthetic statement itself.
    cases spec with
    | goto labeled =>
      rw [JumpTarget.scope] at same
      rw [same, shaped] at labeled
      cases labeled
    | breakOut _ _ _ shape | continueLoop _ _ _ shape =>
      rw [JumpTarget.scope] at same
      rw [same, shaped] at shape
      cases shape
    | returnOut => exact stays rfl
  · rw [Body.children_of_get? shaped] at mem
    cases List.mem_singleton.mp mem
    exact outside within

end Accepted
end Flow
end ProtectedRegions
