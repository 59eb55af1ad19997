import ProtectedRegions.Proofs.Body.Nearest
import ProtectedRegions.Proofs.Flow.Marking

/-!
# Protected scopes have one entry

A protected scope starts whenever the statement it belongs to does, and nothing inside it is live
unless that statement is. So the entry of a protected scope stands for all the scope: where it is
not marked, the whole scope is dead. The code of a scope that control never enters is laid out
without exit edges, and this is why none are missing.
-/

namespace ProtectedRegions

/-- A statement starts the protected scopes that belong to it. -/
theorem Statement.edge_of_protected {stmt child : StmtId} {shape : Statement}
    (mem : child ∈ shape.children) (role : (shape.childRole? child).any (·.isProtected) = true) :
    ∃ edge ∈ shape.edges stmt, edge.source = .entry stmt ∧ edge.target = .entry child := by
  cases shape with
  | tryBlock parts =>
    rw [children, TryStatement.protectedParts, List.cons_append, List.mem_cons,
      List.mem_append] at mem
    rcases mem with rfl | mem | mem
    · exact ⟨⟨.entry stmt, .entry parts.body, .sequential⟩, by simp [edges], rfl, rfl⟩
    · obtain ⟨clause, listed, rfl⟩ := List.mem_map.mp mem
      exact ⟨⟨.entry stmt, .entry clause.body, .handler⟩,
        List.mem_append_right _ (List.mem_map_of_mem listed), rfl, rfl⟩
    · obtain ⟨clause, listed, rfl⟩ := Option.map_eq_some_iff.mp (Option.mem_toList.mp mem)
      exact ⟨⟨.entry stmt, .entry clause.body, .handler⟩, by simp [edges, listed], rfl, rfl⟩
  | synthetic kind inner =>
    cases List.mem_singleton.mp mem
    exact ⟨⟨.entry stmt, .entry child, .sequential⟩, List.mem_cons_self, rfl, rfl⟩
  | _ => cases role

/-- A statement that plays a part for its parent is a child of it. -/
theorem Body.Plays.exists_parent {body : Body} {stmt : StmtId} {role : Role}
    (plays : body.Plays stmt role) :
    ∃ owner shape, body.get? owner = some shape ∧ stmt ∈ shape.children := by
  cases plays with
  | tryBody shaped own => exact ⟨_, _, shaped, own ▸ List.mem_append_left _ List.mem_cons_self⟩
  | catchBody shaped found own =>
    have listed := List.mem_map_of_mem (f := CatchClause.body) (List.mem_of_getElem? found)
    exact ⟨_, _, shaped, own ▸ List.mem_append_left _ (List.mem_cons_of_mem _ listed)⟩
  | handler shaped found own =>
    have listed := Option.mem_toList.mpr (Option.map_eq_some_iff.mpr ⟨_, found, own⟩)
    exact ⟨_, _, shaped, List.mem_append_right _ listed⟩
  | syntheticBody shaped | lambdaBody shaped => exact ⟨_, _, shaped, List.mem_singleton_self stmt⟩

namespace Flow

/-- A protected scope can start if any node inside it is live. -/
theorem Accepted.live_entry {flow : Flow} (accepted : flow.Accepted) {scope : StmtId} {role : Role}
    (plays : flow.body.Plays scope role) (isProtected : role.isProtected = true) {node : FlowNode}
    (live : flow.Live node) (inside : flow.body.Inside scope node.scope)
    (same : flow.body.methodOf node.scope = flow.body.methodOf scope) :
    flow.Live (.entry scope) := by
  have tree := accepted.wellFormed.toIsTree
  obtain ⟨owner, shape, shaped, mem⟩ := plays.exists_parent
  have role : (flow.body.role? scope).any (·.isProtected) = true := by
    rw [tree.role?_eq_some.mpr plays]
    exact isProtected
  have starts : flow.Live (.entry owner) := accepted.live_entry_of_protected live
    (Body.mem_children_of_get? shaped mem) role inside same.symm
  rw [tree.role?_child mem shaped] at role
  obtain ⟨edge, listed, source, target⟩ := @Statement.edge_of_protected owner _ _ mem role
  exact target ▸ Live.edge (source ▸ starts) shaped listed

variable {draft : Draft} {body : Body} {flow : Flow}

/-- A protected scope has a single entry: for every body of a `try`, catch body, `finally` or
`fault` handler and body of a desugared statement, if the scope cannot start then no statement
inside it that runs in the same method starts or completes; and if the entry or the end of any such
statement is marked, then so is the entry of the scope. -/
theorem single_entry_of_protected (made : draft.toBody = .ok body)
    (analysed : Flow.ofBody body = .ok flow) {scope : StmtId} {role : Role}
    (plays : body.Plays scope role) (isProtected : role.isProtected = true) {stmt : StmtId}
    (inside : flow.contains scope stmt = true)
    (same : body.methodOf stmt = body.methodOf scope) :
    (flow.isReachable scope = false →
        flow.isReachable stmt = false ∧ flow.completes stmt = false) ∧
      ∀ node ∈ [FlowNode.entry stmt, .ending stmt],
        flow.reach.contains node = true → flow.reach.contains (.entry scope) = true := by
  obtain ⟨rfl, accepted⟩ := Flow.accepted_of_ofBody (Draft.wellFormed_of_toBody made) analysed
  obtain ⟨has, has'⟩ := accepted.has_of_contains inside
  have around := (accepted.contains_iff has has').mp inside
  have marked : ∀ node ∈ [FlowNode.entry stmt, .ending stmt],
      flow.reach.contains node = true → flow.reach.contains (.entry scope) = true := by
    intro node mem contains
    have within : node.scope = stmt ∧ flow.body.HasNode node := by
      rcases List.mem_cons.mp mem with rfl | mem
      · exact ⟨rfl, has'⟩
      · cases List.mem_singleton.mp mem
        exact ⟨rfl, has'⟩
    have live := (accepted.contains_iff_live within.2).mp contains
    refine (accepted.isReachable_iff has).mpr ?_
    exact accepted.live_entry plays isProtected live (within.1 ▸ around) (within.1 ▸ same)
  refine ⟨fun dead ↦ ?_, marked⟩
  have unmarked : ∀ node ∈ [FlowNode.entry stmt, .ending stmt],
      flow.reach.contains node = false := by
    intro node mem
    rw [← Bool.not_eq_true]
    intro contains
    rw [isReachable, marked node mem contains] at dead
    cases dead
  exact ⟨unmarked _ List.mem_cons_self, unmarked _ (List.mem_cons_of_mem _ List.mem_cons_self)⟩

end Flow

/-- A `try` behind a `throw`. Its body goes round in circles, yet nothing starts it. -/
def Draft.unstarted : Draft where
  statements := #[.jump (.goto ⟨0⟩), .labeled ⟨0⟩ ⟨0⟩, .expression [], .tryFinally ⟨1⟩ ⟨2⟩,
    .throwException, .block [⟨4⟩, ⟨3⟩]]
  labelCount := 1
  localCount := 0
  root := ⟨5⟩

private theorem unstarted_dead : (Draft.unstarted.toBody.bind Flow.ofBody).toOption.any (fun flow ↦
    !flow.isReachable ⟨1⟩ && flow.contains ⟨1⟩ ⟨0⟩ &&
      flow.body.methodOf ⟨0⟩ == flow.body.methodOf ⟨1⟩ &&
      flow.body.get? ⟨3⟩ == some (.tryFinally ⟨1⟩ ⟨2⟩)) = true := by
  decide +kernel

theorem Flow.single_entry_of_protected_unstarted :
    ∃ body flow, Draft.unstarted.toBody = .ok body ∧ Flow.ofBody body = .ok flow ∧
      body.Plays ⟨1⟩ .tryBody ∧ flow.isReachable ⟨1⟩ = false ∧ flow.contains ⟨1⟩ ⟨0⟩ = true ∧
      flow.isReachable ⟨0⟩ = false ∧ flow.completes ⟨0⟩ = false := by
  obtain ⟨body, flow, made, analysed, holds⟩ := Draft.exists_flow unstarted_dead
  obtain ⟨rfl, -⟩ := Flow.accepted_of_ofBody (Draft.wellFormed_of_toBody made) analysed
  simp only [Bool.and_eq_true, Bool.not_eq_true', beq_iff_eq] at holds
  obtain ⟨⟨⟨dead, inside⟩, same⟩, shaped⟩ := holds
  have plays : flow.body.Plays ⟨1⟩ .tryBody := .tryBody shaped rfl
  have all := Flow.single_entry_of_protected made analysed plays rfl inside same
  exact ⟨flow.body, flow, made, analysed, plays, dead, inside, all.1 dead⟩

end ProtectedRegions
