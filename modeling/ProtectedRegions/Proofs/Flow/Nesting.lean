import ProtectedRegions.Proofs.Body.Document
import ProtectedRegions.Proofs.Flow.Exits
import ProtectedRegions.Proofs.Flow.Required

/-!
# Exits of nested scopes

How the leave edges of a scope and those of the scopes in it go together. A jump that leaves an
outer scope leaves every scope between; a jump that leaves a protected part of a `try` leaves the
`try`, for it can neither go to the `try` itself nor enter another part. So the edges of a larger
scope are found among those of its parts.
-/

namespace ProtectedRegions
namespace Flow

variable {flow : Flow}

/-- The edge of a jump that leaves two boundaries is the edge that leaves one of them, if the
jump also leaves the other. -/
theorem leaveEdge?_filter {outer inner stmt : StmtId}
    (between : ∀ target, flow.target? stmt = some target → flow.crosses outer target = true →
      flow.crosses inner target = true) :
    (flow.leaveEdge? inner stmt).filter (fun edge ↦
      (flow.target? edge.source).any fun target ↦ flow.crosses outer target) =
        flow.leaveEdge? outer stmt := by
  rw [leaveEdge?, leaveEdge?]
  cases flow.isReachable stmt with
  | false => rfl
  | true =>
    rw [if_pos rfl, if_pos rfl]
    cases goes : flow.target? stmt with
    | none => rfl
    | some target =>
      cases crosses : flow.crosses outer target with
      | true => simp [between target goes crosses, goes, crosses]
      | false => cases flow.crosses inner target <;> simp [goes, crosses]

namespace Accepted

variable (accepted : flow.Accepted)

include accepted

/-- Only a jump leaves anything. -/
theorem leaveEdge?_eq_none {boundary stmt : StmtId}
    (other : ∀ form, flow.body.get? stmt ≠ some (.jump form)) :
    flow.leaveEdge? boundary stmt = none := by
  rw [Option.eq_none_iff_forall_ne_some]
  intro edge found
  obtain ⟨-, target, goes, -⟩ := leaveEdge?_eq_some.mp found
  obtain ⟨form, -, jump, -⟩ := accepted.target?_eq_some.mp goes
  exact other form jump

/-- The leave edges of a query are those of the statements that it searches. -/
theorem leaves_exits (query : ExitQuery) : (flow.exits query).leaves =
    (flow.searched query).filterMap (flow.leaveEdge? query.boundary) := by
  have last : (flow.fallThrough? query).toList.filter (·.kind == .leave) = [] := by
    rw [fallThrough?]
    split <;> rfl
  rw [ExitSet.leaves, exits, List.filter_append, last, List.append_nil, List.filter_filterMap]
  refine List.filterMap_congr fun stmt _ ↦ ?_
  rw [exitAt?]
  split
  · cases found : flow.leaveEdge? query.boundary stmt with
    | none => rfl
    | some edge =>
      obtain ⟨-, target, -, -, rfl⟩ := leaveEdge?_eq_some.mp found
      rfl
  · next shaped =>
    rw [accepted.leaveEdge?_eq_none (by simp [shaped]), rethrowEdge?]
    split <;> rfl
  · next noJump _ =>
    rw [accepted.leaveEdge?_eq_none noJump]
    rfl

section Jumps

variable {jump : StmtId} {target : JumpTarget} (resolved : flow.target? jump = some target)

include resolved

/-- A jump out of a protected part of a `try` leaves the `try`: it neither goes to the `try` itself
nor enters another part. -/
theorem crosses_try {owner part : StmtId} {parts : TryStatement}
    (shaped : flow.body.get? owner = some (.tryBlock parts)) (mem : part ∈ parts.protectedParts)
    (inside : flow.body.Inside part jump) (outside : ¬ flow.body.Inside part target.scope) :
    flow.crosses owner target = true := by
  have tree := accepted.wellFormed.toIsTree
  obtain ⟨form, found, spec⟩ := accepted.resolved_of_target resolved
  have has' := (spec.scope_spec tree (Body.has_iff_get?.mpr ⟨_, found⟩)).1
  have enters {scope : StmtId} (holds : flow.body.Inside scope target.scope)
      (free : ¬ flow.body.Inside scope jump) :
      (flow.body.role? scope).any (·.isProtected) = false := by
    obtain ⟨form, route, found, routed, rfl⟩ := accepted.target?_eq_some.mp resolved
    exact (accepted.checked_spec found routed).2.1 scope holds free
  have child := Body.mem_children_of_get? shaped (List.mem_append_left _ mem)
  rw [Flow.crosses, Bool.or_eq_true, Bool.not_eq_true', ← Bool.not_eq_true,
    accepted.contains_iff (Body.has_iff_get?.mpr ⟨_, shaped⟩) has']
  by_contra stays
  simp only [not_or, not_not] at stays
  rcases Body.exists_child_of_inside stays.2 with same | ⟨other, mem', within⟩
  · cases spec with
    | goto labeled =>
      rw [JumpTarget.scope] at same
      rw [same, shaped] at labeled
      cases labeled
    | breakOut _ _ _ shape | continueLoop _ _ _ shape =>
      rw [JumpTarget.scope] at same
      rw [same, shaped] at shape
      cases shape
    | returnOut => exact stays.1 rfl
  · have free : ¬ flow.body.Inside other jump := by
      intro around
      rw [tree.child_unique mem' child around inside] at within
      exact outside within
    have plain := enters within free
    rw [tree.isProtected_of_try shaped mem'] at plain
    cases plain

/-- To leave a protected part of a `try` and to leave the `try` is the same. -/
theorem crosses_part {owner part : StmtId} {parts : TryStatement}
    (shaped : flow.body.get? owner = some (.tryBlock parts)) (mem : part ∈ parts.protectedParts)
    (inside : flow.body.Inside part jump) :
    flow.crosses part target = flow.crosses owner target := by
  have tree := accepted.wellFormed.toIsTree
  have child := Body.mem_children_of_get? shaped (List.mem_append_left _ mem)
  rw [Bool.eq_iff_iff]
  constructor
  · intro crosses
    rcases (accepted.crosses_iff resolved).mp crosses with returns | outside
    · rw [Flow.crosses, returns, Bool.true_or]
    · exact accepted.crosses_try resolved shaped mem inside outside
  · exact accepted.crosses_of_inside resolved (.of_child child)

end Jumps

/-- Whose rethrows count makes no difference for the leave edges. -/
theorem leaves_owning (query : ExitQuery) (owner : StmtId) :
    (flow.exits (query.owning owner)).leaves = (flow.exits query).leaves := by
  rw [accepted.leaves_exits, accepted.leaves_exits]
  rfl

/-- The leave edges of the protected parts of a `try`, taken as one, are those of each part, one
part after the other. -/
theorem leaves_protectedParts {owner : StmtId} {parts : TryStatement}
    (shaped : flow.body.get? owner = some (.tryBlock parts))
    (continuation continuation' : StmtId) :
    (flow.exits (.ofParts parts.protectedParts owner continuation)).leaves =
      parts.protectedParts.flatMap fun part ↦
        (flow.exits (.ofScope part continuation')).leaves := by
  have tree := accepted.wellFormed.toIsTree
  rw [accepted.leaves_exits, searched, List.filterMap_flatMap]
  refine List.flatMap_congr fun part mem ↦ ?_
  rw [accepted.leaves_exits, searched, ExitQuery.ofScope, List.flatMap_singleton]
  refine List.filterMap_congr fun stmt listed ↦ ?_
  have has := tree.has_child (Body.mem_children_of_get? shaped (List.mem_append_left _ mem))
  rw [leaveEdge?, leaveEdge?]
  cases goes : flow.target? stmt with
  | none => rfl
  | some target =>
    obtain ⟨form, -, jump, -⟩ := accepted.target?_eq_some.mp goes
    have inside := ((tree.mem_inMethod has (Body.has_iff_get?.mpr ⟨_, jump⟩)).mp listed).1
    simp only [accepted.crosses_part goes shaped mem inside]
    rfl

/-- The leave edges of a scope from inside another scope of the method are those of that scope that
leave the outer one too. -/
theorem leaves_inside {outer inner : StmtId} (inside : flow.contains outer inner = true)
    (same : flow.body.methodOf inner = flow.body.methodOf outer)
    (continuation continuation' : StmtId) :
    (flow.exits (.ofScope outer continuation)).leaves.filter (flow.contains inner ·.source) =
      (flow.exits (.ofScope inner continuation')).leaves.filter fun edge ↦
        (flow.target? edge.source).any fun target ↦ flow.crosses outer target := by
  have tree := accepted.wellFormed.toIsTree
  obtain ⟨has, has'⟩ := accepted.has_of_contains inside
  have around := (accepted.contains_iff has has').mp inside
  rw [accepted.leaves_exits, accepted.leaves_exits, searched, searched, ExitQuery.ofScope,
    ExitQuery.ofScope, List.flatMap_singleton, List.flatMap_singleton, List.filter_filterMap,
    List.filter_filterMap, ← tree.filter_inMethod has' around same
      fun stmt known ↦ accepted.contains_iff has' known, List.filterMap_filter]
  refine List.filterMap_congr fun stmt _ ↦ ?_
  rw [leaveEdge?_filter fun target goes ↦ accepted.crosses_of_inside goes around]
  -- The edge of a statement has the statement as its source.
  cases found : flow.leaveEdge? outer stmt with
  | none => simp
  | some edge =>
    obtain ⟨-, target, -, -, rfl⟩ := leaveEdge?_eq_some.mp found
    rfl

end Accepted
end Flow
end ProtectedRegions
