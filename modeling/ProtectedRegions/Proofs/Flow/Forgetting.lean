import ProtectedRegions.Proofs.Body.Forgetting
import ProtectedRegions.Proofs.Flow.Answers

/-!
# Flow under forgotten conditions

Where a condition is no longer known, both arms of it have their edges. The edges of the flow graph
only become more, the guarded edges are the same and wait for the same ends, and so every node that
was live still is: a handler that completes still completes, and what waited for it goes on. With the
live nodes the exits of every query persist.
-/

namespace ProtectedRegions

/-- A statement keeps its edges when its condition is forgotten. -/
theorem Statement.edges_subset_forgetIf {stmt : StmtId} {forgets : Bool} {shape : Statement} :
    shape.edges stmt ⊆ (shape.forgetIf forgets).edges stmt := by
  intro edge mem
  rcases forgetIf_cases forgets shape with same | ⟨condition, _, _, rfl, same⟩ |
    ⟨condition, _, rfl, same⟩
  · rwa [same]
  · simp only [same, edges, List.mem_append] at mem ⊢
    grind
  · simp only [same, edges, List.mem_append] at mem ⊢
    grind

/-- The completions of a statement do not depend on its condition. -/
theorem Statement.completions_forgetIf {stmt : StmtId} {forgets : Bool} {shape : Statement} :
    (shape.forgetIf forgets).completions stmt = shape.completions stmt :=
  apply_forgetIf (completions stmt) (fun _ _ _ ↦ rfl) (fun _ _ ↦ rfl) ..

namespace Body

variable {chosen : StmtId → Bool} {body : Body}

/-- No edge is lost. -/
theorem plainEdges_subset_forget : body.plainEdges ⊆ (body.forget chosen).plainEdges := by
  intro edge mem
  rw [plainEdges, List.mem_append] at mem ⊢
  rw [entries_forget, List.flatMap_map, methods_forget]
  refine mem.imp_left fun mem ↦ ?_
  obtain ⟨entry, listed, mem⟩ := List.mem_flatMap.mp mem
  exact List.mem_flatMap.mpr ⟨entry, listed, Statement.edges_subset_forgetIf mem⟩

/-- The guarded edges stay the same. -/
theorem guardedEdges_forget {routes : List Route} :
    (body.forget chosen).guardedEdges routes = body.guardedEdges routes := by
  rw [guardedEdges, guardedEdges, entries_forget, List.flatMap_map]
  exact congrArg (· ++ _) (List.flatMap_congr fun entry _ ↦ Statement.completions_forgetIf)

end Body

/-- An edge of one answer is still there in another one, alive if it was. -/
structure ExitEdge.Persists (edge later : ExitEdge) : Prop where
  source : later.source = edge.source
  target : later.target = edge.target
  kind : later.kind = edge.kind
  live : edge.targetReachable = true → later.targetReachable = true

namespace Flow

/-- The flow of the body without what is known about the conditions of the chosen statements. -/
def forget (chosen : StmtId → Bool) (flow : Flow) : Flow :=
  { flow with
    body := flow.body.forget chosen
    reach := .ofBody (flow.body.forget chosen) flow.jumps }

/-- A body is accepted regardless of its conditions, and the jumps have the same routes. -/
theorem ofBody_forget (body : Body) (chosen : StmtId → Bool) :
    ofBody (body.forget chosen) = (ofBody body).map (·.forget chosen) := by
  have ids : (body.forget chosen).ids = body.ids := StatementTable.ids_forget
  rw [ofBody, ofBody, ids, Body.numbering_forget, Body.route?_forget]
  cases body.ids.mapM (body.route? (Numbering.ofBody body)) <;> rfl

variable {flow : Flow} {chosen : StmtId → Bool} (accepted : flow.Accepted)
  (blurred : (flow.forget chosen).Accepted)

include accepted blurred

/-- What is marked stays marked. -/
theorem contains_forget {node : FlowNode} (marked : flow.reach.contains node = true) :
    (flow.forget chosen).reach.contains node = true := by
  have index : (flow.forget chosen).reach.index = flow.reach.index := by
    rw [(ofBody_eq_ok accepted.analysed).2.2.1]
    show FlowIndex.mk _ _ = FlowIndex.mk _ _
    simp
  have guarded : (flow.forget chosen).body.guardedEdges (flow.forget chosen).jumps =
      flow.body.guardedEdges flow.jumps := Body.guardedEdges_forget
  rw [Reachability.contains, accepted.reach_eq,
    Reachability.contains_compute accepted.covers] at marked
  rw [Reachability.contains, blurred.reach_eq, Reachability.contains_compute blurred.covers, index,
    guarded]
  exact marked.mono Body.plainEdges_subset_forget (List.Subset.refl _)

/-- Where a jump arrives stays live. -/
theorem targetReachable_forget {stmt : StmtId} (live : flow.targetReachable stmt = true) :
    (flow.forget chosen).targetReachable stmt = true := by
  have goes : (flow.forget chosen).target? stmt = flow.target? stmt := rfl
  rw [targetReachable] at live ⊢
  rw [goes]
  cases target : flow.target? stmt with
  | none =>
    rw [target] at live
    cases live
  | some target' =>
    rw [target] at live
    exact contains_forget accepted blurred live

/-- What the search finds at a statement is still found there. -/
theorem exitAt?_forget {query : ExitQuery} {stmt : StmtId} {edge : ExitEdge}
    (found : flow.exitAt? query stmt = some edge) :
    ∃ later, (flow.forget chosen).exitAt? query stmt = some later ∧ edge.Persists later := by
  rw [exitAt?] at found ⊢
  split at found
  · next form shaped =>
    have shaped : (flow.forget chosen).body.get? stmt = some (.jump form) :=
      (Body.get?_forget_eq_some (by simp) (by simp)).mpr shaped
    obtain ⟨live, target, goes, crosses, rfl⟩ := leaveEdge?_eq_some.mp found
    have live := contains_forget accepted blurred live
    have still := leaveEdge?_eq_some.mpr ⟨live, target, goes, crosses, rfl⟩
    rw [shaped]
    exact ⟨_, still, rfl, rfl, rfl, targetReachable_forget accepted blurred⟩
  · next shaped =>
    have shaped : (flow.forget chosen).body.get? stmt = some .rethrow :=
      (Body.get?_forget_eq_some (by simp) (by simp)).mpr shaped
    obtain ⟨live, ⟨owner, asked, owned⟩, rfl⟩ := rethrowEdge?_eq_some.mp found
    have live := contains_forget accepted blurred live
    have owned : (flow.forget chosen).body.rethrowOwner? stmt = some owner :=
      (congrFun Body.rethrowOwner?_forget _).trans owned
    have still := rethrowEdge?_eq_some.mpr ⟨live, ⟨owner, asked, owned⟩, rfl⟩
    rw [shaped]
    exact ⟨_, still, rfl, rfl, rfl, id⟩
  · cases found

/-- No exit is lost. -/
theorem exits_forget {query : ExitQuery} {edge : ExitEdge} (mem : edge ∈ flow.exits query) :
    ∃ later ∈ (flow.forget chosen).exits query, edge.Persists later := by
  have searched : (flow.forget chosen).searched query = flow.searched query :=
    congrArg query.sources.flatMap Body.inMethod_forget
  rw [exits, searched]
  rcases List.mem_append.mp mem with mem | mem
  · obtain ⟨stmt, listed, found⟩ := List.mem_filterMap.mp mem
    obtain ⟨later, still, persists⟩ := exitAt?_forget accepted blurred found
    exact ⟨later, List.mem_append_left _ (List.mem_filterMap.mpr ⟨_, listed, still⟩), persists⟩
  · obtain ⟨completes, same⟩ := Option.ite_none_right_eq_some.mp (Option.mem_toList.mp mem)
    cases same
    obtain ⟨source, listed, completes⟩ := List.any_eq_true.mp completes
    have completes : query.sources.any (flow.forget chosen).completes = true :=
      List.any_eq_true.mpr ⟨source, listed, contains_forget accepted blurred completes⟩
    refine ⟨_, List.mem_append_right _ (Option.mem_toList.mpr (if_pos completes)), rfl, rfl, rfl, ?_⟩
    exact contains_forget accepted blurred

/-- A query that is answered still is, and no exit is lost. -/
theorem exits?_forget {query : ExitQuery} {exits : ExitSet}
    (answered : flow.exits? query = .ok exits) :
    ∃ exits', (flow.forget chosen).exits? query = .ok exits' ∧
      ∀ edge ∈ exits, ∃ later ∈ exits', edge.Persists later := by
  have known : (flow.forget chosen).body.has = flow.body.has := Body.has_forget
  have tree := accepted.wellFormed.toIsTree
  rw [exits?_eq tree] at answered
  split at answered
  · cases answered
  · next named =>
    cases answered
    refine ⟨_, ?_, fun edge mem ↦ exits_forget accepted blurred mem⟩
    rw [exits?_eq blurred.wellFormed.toIsTree, known, named]

end Flow
end ProtectedRegions
