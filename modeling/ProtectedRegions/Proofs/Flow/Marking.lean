import Mathlib.Data.List.Range
import Mathlib.Order.Bounds.Basic
import ProtectedRegions.Proofs.Body.Drafts
import ProtectedRegions.Proofs.Flow.Live

/-!
# The marking walk in any order

The order in which the walk takes its pending nodes, and the order in which the edges are listed,
do not matter. Whatever they are, each step yields another node and admits the edges that waited
for it alone, so the walk ends; what it discovers is the least set of nodes closed under the edges,
and an edge is admitted, once, if all the ends it requires are discovered.
-/

namespace ProtectedRegions

/-- Covering the edges does not depend on their order. -/
theorem FlowIndex.Covers.perm {index : FlowIndex} {edges edges' : List FlowEdge}
    {guarded guarded' : List GuardedEdge} (plain : edges.Perm edges')
    (waiting : guarded.Perm guarded') (covers : index.Covers edges guarded) :
    index.Covers edges' guarded' where
  entry := covers.entry
  plain mem := covers.plain (plain.mem_iff.mpr mem)
  guarded mem := covers.guarded (waiting.mem_iff.mpr mem)

/-- The nodes, listed in order, take the positions one after the other. -/
theorem FlowIndex.map_position_nodes {index : FlowIndex} (nodup : index.methods.Nodup) :
    index.nodes.map index.position = List.range index.size := by
  have statements (count : Nat) : ((List.range count).flatMap fun stmt ↦
      [FlowNode.entry ⟨stmt⟩, .ending ⟨stmt⟩]).map index.position = List.range (2 * count) := by
    induction count with
    | zero => rfl
    | succ count ih =>
      rw [List.range_succ, List.flatMap_append, List.map_append, ih, Nat.mul_succ,
        List.range_succ, List.range_succ, List.append_assoc]
      rfl
  have exits : (index.methods.map .exit).map index.position =
      (List.range index.methods.length).map (2 * index.statements + ·) := by
    refine List.ext_getElem (by simp) fun slot _ _ ↦ ?_
    simp [position, nodup.idxOf_getElem]
  rw [nodes, List.map_append, statements, exits, size, List.range_add]

namespace Marking

/-- A step of a walk that may take any of its pending nodes. -/
def Step (index : FlowIndex) (guarded : List GuardedEdge) (marking after : Marking) : Prop :=
  ∃ stack : List Nat, stack.Perm marking.walk.stack ∧
    next? index guarded { marking with walk := { marking.walk with stack } } = some after

/-- A number of steps in any order. -/
inductive Steps (index : FlowIndex) (guarded : List GuardedEdge) :
    Nat → Marking → Marking → Prop
  | none {marking : Marking} : Steps index guarded 0 marking marking
  | more {count : Nat} {marking middle after : Marking} (first : Step index guarded marking middle)
      (rest : Steps index guarded count middle after) :
      Steps index guarded (count + 1) marking after

variable {index : FlowIndex} {edges : List FlowEdge} {guarded : List GuardedEdge}
  {nodes : List Nat} {marking after : Marking}

/-- The books do not depend on the order of the pending nodes. -/
theorem Account.reorder (account : marking.Account index edges guarded nodes) {stack : List Nat}
    (same : stack.Perm marking.walk.stack) :
    Account index edges guarded nodes { marking with walk := { marking.walk with stack } } where
  split :=
    { nodup := same.nodup_iff.mpr account.split.nodup
      isDiscovered_iff node := by
        rw [same.mem_iff]
        exact account.split.isDiscovered_iff node
      apart mem := account.split.apart (same.mem_iff.mp mem) }
  nodup := account.nodup
  capacity := account.capacity
  expanded := account.expanded
  missing := account.missing
  sound := account.sound
  successor := account.successor
  entry := account.entry
  plain := account.plain
  admitted := account.admitted
  closed := account.closed
  free := account.free

/-- Steps in any order keep the books, and each of them yields another node. -/
theorem Steps.account {count : Nat} (steps : Steps index guarded count marking after)
    (covers : index.Covers edges guarded) (account : marking.Account index edges guarded nodes) :
    ∃ nodes', nodes'.length = count + nodes.length ∧
      after.Account index edges guarded nodes' := by
  induction steps generalizing nodes with
  | none => exact ⟨nodes, (Nat.zero_add _).symm, account⟩
  | more first _ ih =>
    obtain ⟨stack, same, step⟩ := first
    obtain ⟨node, account'⟩ := (account.reorder same).next? covers step
    obtain ⟨nodes', length, account''⟩ := ih account'
    refine ⟨nodes', ?_, account''⟩
    rw [length, List.length_cons]
    omega

/-- A run takes steps. -/
theorem exists_steps_run (index : FlowIndex) (guarded : List GuardedEdge) (marking : Marking)
    (steps : Nat) :
    ∃ count, Steps index guarded count marking (marking.run index guarded steps) := by
  induction steps generalizing marking with
  | zero => exact ⟨0, .none⟩
  | succ steps ih =>
    unfold run
    split
    · exact ⟨0, .none⟩
    · next middle step =>
      obtain ⟨count, rest⟩ := ih middle
      exact ⟨count + 1, .more ⟨_, .refl _, step⟩ rest⟩

end Marking

namespace Flow

/-- A set of nodes that holds where the methods begin and that the edges do not lead out of,
the guarded ones once the ends they require are in the set. -/
structure Closed (flow : Flow) (nodes : Set FlowNode) : Prop where
  entry {root : StmtId} : root ∈ flow.body.methods → .entry root ∈ nodes
  plain {edge : FlowEdge} : edge ∈ flow.body.plainEdges → edge.source ∈ nodes →
    edge.target ∈ nodes
  guarded {edge : GuardedEdge} : edge ∈ flow.body.guardedEdges flow.jumps →
    edge.source ∈ nodes → (∀ node ∈ edge.requires, node ∈ nodes) → edge.target ∈ nodes

variable {flow : Flow}

/-- The live nodes are the least closed set. -/
theorem isLeast_live : IsLeast {nodes | flow.Closed nodes} {node | flow.Live node} := by
  refine ⟨⟨.entry, .plain, .guarded⟩, fun nodes closed node live ↦ ?_⟩
  induction live with
  | entry mem => exact closed.entry mem
  | plain mem _ ih => exact closed.plain mem ih
  | guarded mem _ _ ih ihRequires => exact closed.guarded mem ih ihRequires

/-- What a walk of the flow comes to when it has no pending nodes left. -/
structure Marked (flow : Flow) (marking : Marking) : Prop where
  discovered (node : Nat) : marking.walk.isDiscovered node = flow.reach.live.contains node
  admitted : marking.admitted.Perm
    ((flow.body.guardedEdges flow.jumps).filter (·.requires.all flow.reach.contains))
  expanded : marking.walk.expanded =
    (flow.reach.index.nodes.filter flow.reach.contains).length

namespace Accepted

variable (accepted : flow.Accepted)

include accepted

/-- Live nodes are nodes of the body. -/
theorem hasNode_of_live {node : FlowNode} (live : flow.Live node) : flow.body.HasNode node := by
  cases live with
  | entry mem => exact accepted.wellFormed.toIsTree.has_of_mem_methods mem
  | plain mem => exact (accepted.hasNode_of_plain mem).2
  | guarded mem => exact (accepted.hasNode_of_guarded mem).2.1

/-- However it is ordered, a finished walk marks the same nodes and admits the same edges. -/
theorem marked {edges : List FlowEdge} {guarded : List GuardedEdge} {nodes : List Nat}
    {marking : Marking} (plain : edges.Perm flow.body.plainEdges)
    (waiting : guarded.Perm (flow.body.guardedEdges flow.jumps))
    (account : marking.Account flow.reach.index edges guarded nodes)
    (finished : marking.walk.stack = []) : flow.Marked marking := by
  have computed := accepted.reach_eq
  have live (node : Nat) : marking.walk.isDiscovered node = flow.reach.live.contains node := by
    rw [Bool.eq_iff_iff, (account.isDiscovered_iff_of_stack finished node).2, computed,
      Reachability.contains_compute accepted.covers]
    exact ⟨.mono plain.subset waiting.subset, .mono plain.symm.subset waiting.symm.subset⟩
  have yielded (node : Nat) : node ∈ nodes ↔ flow.reach.live.contains node = true := by
    rw [← live, (account.isDiscovered_iff_of_stack finished node).1]
  refine ⟨live, account.free.trans ((waiting.filter _).trans (.of_eq ?_)), ?_⟩
  · refine List.filter_congr fun edge _ ↦ ?_
    rw [Bool.eq_iff_iff, beq_iff_eq, GuardedEdge.lacking_eq_zero_iff, List.all_eq_true]
    exact forall₂_congr fun node _ ↦ yielded _
  · -- The reachable nodes and the yielded positions are the same numbers.
    have positions : ((flow.reach.index.nodes.filter flow.reach.contains).map
        flow.reach.index.position) = (List.range flow.reach.index.size).filter
          flow.reach.live.contains := by
      have nodup : flow.reach.index.methods.Nodup :=
        accepted.methods_index ▸ accepted.wellFormed.toIsTree.nodup_methods
      rw [← FlowIndex.map_position_nodes nodup, List.filter_map]
      rfl
    rw [account.expanded, ← List.length_map flow.reach.index.position, positions]
    refine ((List.perm_ext_iff_of_nodup account.nodup (List.nodup_range.filter _)).mpr
      fun node ↦ ?_).length_eq
    rw [List.mem_filter, List.mem_range, ← yielded]
    exact ⟨fun mem ↦ ⟨account.lt_size (.inr mem), mem⟩, And.right⟩

end Accepted

/-- The nodes of the body that reachability contains are the least set that holds the entries of
the methods and that is closed under the edges. The walk that finds them ends, and so does a walk
that takes pending nodes or lists edges in another order, after at most as many steps as there are
nodes; each walk ends with the same nodes discovered, with exactly those guarded edges admitted
whose required ends are contained, and with each contained node expanded once. -/
theorem reach_isLeast {draft : Draft} {body : Body} (made : draft.toBody = .ok body)
    (analysed : Flow.ofBody body = .ok flow) :
    IsLeast {nodes | flow.Closed nodes}
        {node | body.HasNode node ∧ flow.reach.contains node = true} ∧
      (∃ count marking, Marking.Steps flow.reach.index (body.guardedEdges flow.jumps) count
        (.start flow.reach.index body.plainEdges (body.guardedEdges flow.jumps)) marking ∧
        marking.next? flow.reach.index (body.guardedEdges flow.jumps) = none ∧
        flow.reach.live = marking.walk.discovered ∧
        flow.reach.admitted = marking.admitted ∧
        flow.reach.expanded = marking.walk.expanded) ∧
      ∀ (edges : List FlowEdge) (guarded : List GuardedEdge), edges.Perm body.plainEdges →
        guarded.Perm (body.guardedEdges flow.jumps) → ∀ (count : Nat) (marking : Marking),
        Marking.Steps flow.reach.index guarded count
          (.start flow.reach.index edges guarded) marking →
        count ≤ flow.reach.index.size ∧
          (marking.next? flow.reach.index guarded = none → flow.Marked marking) := by
  obtain rfl : flow.body = body := (ofBody_eq_ok analysed).1
  have accepted : flow.Accepted := ⟨Draft.wellFormed_of_toBody made, analysed⟩
  refine ⟨?_, ?_, fun edges guarded plain waiting count marking steps ↦ ?_⟩
  · have same : {node | flow.body.HasNode node ∧ flow.reach.contains node = true} =
        {node | flow.Live node} := by
      ext node
      exact ⟨fun ⟨has, contained⟩ ↦ (accepted.contains_iff_live has).mp contained, fun live ↦
        have has := accepted.hasNode_of_live live
        ⟨has, (accepted.contains_iff_live has).mpr live⟩⟩
    exact same ▸ isLeast_live
  · obtain ⟨count, steps⟩ := Marking.exists_steps_run flow.reach.index
      (flow.body.guardedEdges flow.jumps)
      (.start flow.reach.index flow.body.plainEdges (flow.body.guardedEdges flow.jumps))
      flow.reach.index.size
    obtain ⟨nodes, account, finished⟩ :=
      (Marking.account_start accepted.covers).run accepted.covers _ (Nat.le_add_right _ _)
    refine ⟨count, _, steps, Marking.next?_eq_none_iff.mpr finished, ?_⟩
    have computed := accepted.reach_eq
    exact ⟨congrArg (·.live) computed, congrArg (·.admitted) computed,
      congrArg (·.expanded) computed⟩
  · have covers := accepted.covers.perm plain.symm waiting.symm
    obtain ⟨nodes, length, account⟩ := steps.account covers (Marking.account_start covers)
    refine ⟨?_, fun stops ↦ accepted.marked plain waiting account
      (Marking.next?_eq_none_iff.mp stops)⟩
    have := account.length_le
    rw [List.length_append, length] at this
    omega

end Flow

/-- A draft whose flow passes a test has a body with a flow that does. -/
theorem Draft.exists_flow {draft : Draft} {holds : Flow → Bool}
    (passes : (draft.toBody.bind Flow.ofBody).toOption.any holds = true) :
    ∃ body flow, draft.toBody = .ok body ∧ Flow.ofBody body = .ok flow ∧ holds flow = true := by
  cases made : draft.toBody with
  | error => simp [made, Except.bind, Except.toOption] at passes
  | ok body =>
    rw [made] at passes
    cases analysed : Flow.ofBody body with
    | error => simp [analysed, Except.bind, Except.toOption] at passes
    | ok flow =>
      rw [Except.bind, analysed, Except.toOption, Option.any_some] at passes
      exact ⟨body, flow, rfl, analysed, passes⟩

/-- A `return` out of a `try` with a `finally`. -/
def Draft.returning : Draft where
  statements := #[.jump .returnOut, .expression [], .tryFinally ⟨0⟩ ⟨1⟩]
  labelCount := 0
  localCount := 0
  root := ⟨2⟩

/-- The `return` and the completion of the `try` wait for the end of the `finally`. -/
theorem Flow.reach_isLeast_returning :
    ∃ body flow, Draft.returning.toBody = .ok body ∧ Flow.ofBody body = .ok flow ∧
      flow.reach.admitted.map (·.kind) = [.completion, .jump] ∧ flow.reach.expanded = 5 ∧
      IsLeast {nodes | flow.Closed nodes}
        {node | body.HasNode node ∧ flow.reach.contains node = true} := by
  have returns : (Draft.returning.toBody.bind Flow.ofBody).toOption.any (fun flow ↦
      flow.reach.admitted.map (·.kind) = [.completion, .jump] ∧ flow.reach.expanded = 5) =
        true := by
    decide +kernel
  obtain ⟨body, flow, made, analysed, holds⟩ := Draft.exists_flow returns
  obtain ⟨admitted, expanded⟩ := of_decide_eq_true holds
  exact ⟨body, flow, made, analysed, admitted, expanded, (reach_isLeast made analysed).1⟩

end ProtectedRegions
