import Mathlib.Data.List.Nodup
import Mathlib.Data.List.Perm.Subperm
import ProtectedRegions.Flow.Reachability
import ProtectedRegions.Proofs.Digraph.Walk

/-!
# The marking walk computes a least fixpoint

`Reached` is the least set of positions that holds the entries of the methods and is closed
under the edges, guarded ones included. The walk discovers exactly this set. Its invariant ties
the stack, the yielded nodes, the counts and the edges admitted so far together; an edge is
admitted at the step that yields the last end it waits for, whether its source is discovered by
then or not.
-/

namespace ProtectedRegions

/-- The positions that the edges reach from the entries of the methods. -/
inductive Reached (index : FlowIndex) (edges : List FlowEdge) (guarded : List GuardedEdge) :
    Nat → Prop
  | entry {root : StmtId} (mem : root ∈ index.methods) :
    Reached index edges guarded (index.position (.entry root))
  | plain {edge : FlowEdge} (mem : edge ∈ edges)
      (source : Reached index edges guarded (index.position edge.source)) :
    Reached index edges guarded (index.position edge.target)
  | guarded {edge : GuardedEdge} (mem : edge ∈ guarded)
      (source : Reached index edges guarded (index.position edge.source))
      (requires : ∀ node ∈ edge.requires, Reached index edges guarded (index.position node)) :
    Reached index edges guarded (index.position edge.target)

/-- More edges reach more positions. -/
theorem Reached.mono {index : FlowIndex} {edges edges' : List FlowEdge}
    {guarded guarded' : List GuardedEdge} (plain : edges ⊆ edges') (waiting : guarded ⊆ guarded')
    {node : Nat} (reached : Reached index edges guarded node) :
    Reached index edges' guarded' node := by
  induction reached with
  | entry mem => exact .entry mem
  | plain mem _ ih => exact .plain (plain mem) ih
  | guarded mem _ _ ih ihRequires => exact .guarded (waiting mem) ih ihRequires

/-- Entries and targets have positions of their own. -/
structure FlowIndex.Covers (index : FlowIndex) (edges : List FlowEdge)
    (guarded : List GuardedEdge) : Prop where
  entry {root : StmtId} : root ∈ index.methods → index.position (.entry root) < index.size
  plain {edge : FlowEdge} : edge ∈ edges → index.position edge.target < index.size
  guarded {edge : GuardedEdge} : edge ∈ guarded → index.position edge.target < index.size

/-- Only positions of nodes are reached. -/
theorem Reached.lt_size {index : FlowIndex} {edges : List FlowEdge} {guarded : List GuardedEdge}
    {node : Nat} (reached : Reached index edges guarded node)
    (covers : index.Covers edges guarded) : node < index.size := by
  cases reached with
  | entry mem => exact covers.entry mem
  | plain mem => exact covers.plain mem
  | guarded mem => exact covers.guarded mem

namespace GuardedEdge

variable {index : FlowIndex}

/-- How many times an edge requires ends that are not among the given positions. -/
def lacking (index : FlowIndex) (nodes : List Nat) (edge : GuardedEdge) : Nat :=
  edge.requires.countP (index.position · ∉ nodes)

/-- An edge lacks nothing if all the ends it requires are given. -/
theorem lacking_eq_zero_iff {nodes : List Nat} {edge : GuardedEdge} :
    edge.lacking index nodes = 0 ↔ ∀ node ∈ edge.requires, index.position node ∈ nodes := by
  simp [lacking]

/-- Another node supplies as much of what an edge lacks as the edge demands of it. -/
theorem lacking_cons {nodes : List Nat} {node : Nat} (fresh : node ∉ nodes) (edge : GuardedEdge) :
    edge.lacking index nodes = edge.lacking index (node :: nodes) + edge.demand index node := by
  unfold lacking demand
  induction edge.requires with
  | nil => rfl
  | cons required rest ih =>
    rw [List.countP_cons, List.countP_cons, List.countP_cons, ih]
    by_cases same : index.position required = node
    · simp [same, fresh]
      omega
    · simp [same]
      omega

end GuardedEdge

namespace Marking

variable {index : FlowIndex} {edges : List FlowEdge} {guarded : List GuardedEdge}
  {nodes : List Nat} {marking : Marking}

/-- What holds of a marking that has yielded the given nodes, whichever of the guarded edges
without open demands are admitted so far. -/
structure Invariant (index : FlowIndex) (edges : List FlowEdge) (guarded : List GuardedEdge)
    (nodes : List Nat) (marking : Marking) : Prop where
  split : marking.walk.Split (· ∈ nodes)
  nodup : nodes.Nodup
  capacity : marking.walk.capacity = index.size
  expanded : marking.walk.expanded = nodes.length
  missing : marking.missing = guarded.map (·.lacking index nodes)
  sound {node : Nat} : marking.walk.isDiscovered node = true → Reached index edges guarded node
  successor {node next : Nat} : next ∈ marking.graph.successors node → next < index.size ∧
    (Reached index edges guarded node → Reached index edges guarded next)
  entry {root : StmtId} : root ∈ index.methods →
    marking.walk.isDiscovered (index.position (.entry root)) = true
  plain {edge : FlowEdge} : edge ∈ edges →
    index.position edge.target ∈ marking.graph.successors (index.position edge.source)
  admitted {edge : GuardedEdge} : edge ∈ marking.admitted →
    index.position edge.target ∈ marking.graph.successors (index.position edge.source)
  closed {node next : Nat} : node ∈ nodes → next ∈ marking.graph.successors node →
    marking.walk.isDiscovered next = true

/-- Between two steps the admitted edges are those that lack nothing. -/
structure Account (index : FlowIndex) (edges : List FlowEdge) (guarded : List GuardedEdge)
    (nodes : List Nat) (marking : Marking) : Prop
    extends marking.Invariant index edges guarded nodes where
  free : marking.admitted.Perm (guarded.filter (·.lacking index nodes == 0))

private theorem successors_accept (marking : Marking) (edge : GuardedEdge) (node : Nat) :
    (accept index marking edge).graph.successors node = marking.graph.successors node ++
      if index.position edge.source = node then [index.position edge.target] else [] :=
  marking.graph.successors_connect _ node

private theorem walk_accept (marking : Marking) (edge : GuardedEdge) :
    (accept index marking edge).walk =
      if marking.walk.isDiscovered (index.position edge.source) = true then
        marking.walk.push (index.position edge.target)
      else marking.walk :=
  rfl

/-- The walk gains at most the target of an admitted edge, and does so if the source is
discovered. -/
private theorem isDiscovered_accept (capacity : marking.walk.capacity = index.size)
    {edge : GuardedEdge} (lt : index.position edge.target < index.size) (node : Nat) :
    (accept index marking edge).walk.isDiscovered node = true ↔
      (node = index.position edge.target ∧
        marking.walk.isDiscovered (index.position edge.source) = true) ∨
      marking.walk.isDiscovered node = true := by
  rw [walk_accept]
  split
  · next source =>
    rw [Walk.isDiscovered_push, capacity]
    simp [lt, source]
  · next source => simp [source]

/-- Admitting an edge whose required ends are reached keeps the invariant. -/
theorem Invariant.accept (inv : marking.Invariant index edges guarded nodes)
    (covers : index.Covers edges guarded) {edge : GuardedEdge} (mem : edge ∈ guarded)
    (requires : ∀ node ∈ edge.requires, Reached index edges guarded (index.position node)) :
    (accept index marking edge).Invariant index edges guarded nodes := by
  have lt := covers.guarded mem
  have found := isDiscovered_accept inv.capacity lt
  have kept {node next : Nat} (h : next ∈ marking.graph.successors node) :
      next ∈ (Marking.accept index marking edge).graph.successors node := by
    rw [successors_accept]
    exact List.mem_append_left _ h
  refine ⟨?_, inv.nodup, ?_, ?_, inv.missing, fun {node} h ↦ ?_, fun {node next} h ↦ ?_,
    fun h ↦ (found _).mpr (.inr (inv.entry h)), fun h ↦ kept (inv.plain h), fun {other} h ↦ ?_,
    fun {node next} yielded h ↦ ?_⟩
  · rw [walk_accept]
    split
    · exact inv.split.push _
    · exact inv.split
  · rw [walk_accept]
    split
    · exact (marking.walk.capacity_push _).trans inv.capacity
    · exact inv.capacity
  · rw [walk_accept]
    split
    · exact (marking.walk.expanded_push _).trans inv.expanded
    · exact inv.expanded
  · rcases (found node).mp h with ⟨rfl, source⟩ | known
    · exact .guarded mem (inv.sound source) requires
    · exact inv.sound known
  · rw [successors_accept, List.mem_append] at h
    rcases h with h | h
    · exact inv.successor h
    · split at h
      · next source =>
        obtain rfl := List.mem_singleton.mp h
        exact ⟨lt, fun reached ↦ .guarded mem (source ▸ reached) requires⟩
      · cases h
  · rcases List.mem_append.mp h with h | h
    · exact kept (inv.admitted h)
    · obtain rfl := List.mem_singleton.mp h
      rw [successors_accept, if_pos rfl]
      exact List.mem_append_right _ (List.mem_singleton_self _)
  · rw [successors_accept, List.mem_append] at h
    rw [found]
    rcases h with h | h
    · exact .inr (inv.closed yielded h)
    · split at h
      · next source =>
        subst source
        exact .inl ⟨List.mem_singleton.mp h,
          (inv.split.isDiscovered_iff _).mpr (.inr yielded)⟩
      · cases h

/-- Admitting several edges keeps the invariant and notes them down. -/
theorem Invariant.foldl_accept (inv : marking.Invariant index edges guarded nodes)
    (covers : index.Covers edges guarded) (ready : List GuardedEdge)
    (h : ∀ edge ∈ ready, edge ∈ guarded ∧
      ∀ node ∈ edge.requires, Reached index edges guarded (index.position node)) :
    (ready.foldl (Marking.accept index) marking).Invariant index edges guarded nodes ∧
      (ready.foldl (Marking.accept index) marking).admitted = marking.admitted ++ ready := by
  induction ready generalizing marking with
  | nil => exact ⟨inv, (List.append_nil _).symm⟩
  | cons edge rest ih =>
    obtain ⟨⟨mem, requires⟩, later⟩ := List.forall_mem_cons.mp h
    obtain ⟨inv', admitted⟩ := ih (inv.accept covers mem requires) later
    refine ⟨inv', admitted.trans ?_⟩
    rw [Marking.accept, List.append_assoc, List.singleton_append]

private theorem successors_graph {node next : Nat} :
    next ∈ (index.graph edges).successors node ↔
      ∃ edge ∈ edges, index.position edge.source = node ∧ index.position edge.target = next := by
  simp [FlowIndex.graph, Digraph.successors, FlowIndex.edge, and_assoc]

/-- The books before the first step. -/
theorem account_start (covers : index.Covers edges guarded) :
    (start index edges guarded).Account index edges guarded [] := by
  have split := (Walk.split_start index.size).foldl_push
    (index.methods.map fun root ↦ index.position (.entry root))
  have found := Walk.isDiscovered_foldl_push (Walk.start index.size)
    (index.methods.map fun root ↦ index.position (.entry root))
  have capacity : (Walk.start index.size).capacity = index.size := rfl
  have blank : Invariant index edges guarded []
      { graph := index.graph edges
        walk := (index.methods.map fun root ↦ index.position (.entry root)).foldl Walk.push
          (Walk.start index.size)
        missing := guarded.map (·.requires.length)
        admitted := [] } := by
    refine ⟨by simpa only [List.not_mem_nil] using split, List.nodup_nil,
      Walk.capacity_foldl_push _ _, Walk.expanded_foldl_push _ _, ?_, fun {node} h ↦ ?_,
      fun {node next} h ↦ ?_, fun h ↦ ?_, fun h ↦ ?_, fun h ↦ (List.not_mem_nil h).elim,
      fun h ↦ (List.not_mem_nil h).elim⟩
    · simp [GuardedEdge.lacking]
    · rcases (found node).mp h with ⟨pushed, -⟩ | none
      · obtain ⟨root, mem, rfl⟩ := List.mem_map.mp pushed
        exact .entry mem
      · simp [Walk.start, Walk.isDiscovered, BitSet.contains_empty] at none
    · obtain ⟨edge, mem, rfl, rfl⟩ := successors_graph.mp h
      exact ⟨covers.plain mem, .plain mem⟩
    · exact (found _).mpr (.inl ⟨List.mem_map.mpr ⟨_, h, rfl⟩, capacity ▸ covers.entry h⟩)
    · exact successors_graph.mpr ⟨_, h, rfl, rfl⟩
  obtain ⟨inv, admitted⟩ := blank.foldl_accept covers
    (guarded.filter (·.requires.isEmpty)) fun edge mem ↦ by
      obtain ⟨mem, free⟩ := List.mem_filter.mp mem
      refine ⟨mem, fun node required ↦ ?_⟩
      rw [List.isEmpty_iff.mp free] at required
      cases required
  refine ⟨inv, .of_eq (admitted.trans (List.filter_congr fun edge _ ↦ ?_))⟩
  cases h : edge.requires <;> simp [GuardedEdge.lacking, h]

/-- The counts after a node is yielded. -/
theorem countDown_eq {node : Nat} (fresh : node ∉ nodes) :
    countDown index node guarded (guarded.map (·.lacking index nodes)) =
      guarded.map (·.lacking index (node :: nodes)) := by
  rw [countDown, List.zipWith_map_right, List.zipWith_self]
  refine List.map_congr_left fun edge _ ↦ ?_
  rw [GuardedEdge.lacking_cons fresh, Nat.add_sub_cancel]

/-- The released edges demand the node and lack nothing any more. -/
theorem released_eq {node : Nat} (fresh : node ∉ nodes) :
    released index node guarded (guarded.map (·.lacking index nodes)) =
      (guarded.filter (·.lacking index (node :: nodes) == 0)).filter
        fun edge ↦ decide (0 < edge.demand index node) := by
  rw [released, List.zip_map_right, List.zip_eq_zipWith, List.zipWith_self, List.map_map,
    List.filter_map, List.map_map, List.filter_filter]
  refine (List.map_id' _).trans (List.filter_congr fun edge _ ↦ ?_)
  simp only [Function.comp_apply, Prod.map_apply, id_eq]
  rw [GuardedEdge.lacking_cons fresh, Nat.add_sub_cancel]

/-- The edges that lack nothing once a node is yielded are those that lacked nothing before,
and those that the node releases. -/
theorem free_cons {node : Nat} (fresh : node ∉ nodes) :
    (guarded.filter (·.lacking index nodes == 0) ++
      released index node guarded (guarded.map (·.lacking index nodes))).Perm
        (guarded.filter (·.lacking index (node :: nodes) == 0)) := by
  have before : guarded.filter (·.lacking index nodes == 0) =
      (guarded.filter (·.lacking index (node :: nodes) == 0)).filter
        fun edge ↦ !decide (0 < edge.demand index node) := by
    rw [List.filter_filter]
    refine List.filter_congr fun edge _ ↦ ?_
    rw [GuardedEdge.lacking_cons fresh, Bool.eq_iff_iff]
    simp only [beq_iff_eq, Bool.and_eq_true, Bool.not_eq_true', decide_eq_false_iff_not]
    omega
  rw [before, released_eq fresh]
  exact List.perm_append_comm.trans (List.filter_append_perm
    (fun edge : GuardedEdge ↦ decide (0 < edge.demand index node)) _)

/-- A step yields another node and keeps the books. -/
theorem Account.next? {after : Marking} (account : marking.Account index edges guarded nodes)
    (covers : index.Covers edges guarded) (h : marking.next? index guarded = some after) :
    ∃ node, after.Account index edges guarded (node :: nodes) := by
  unfold Marking.next? at h
  split at h
  · cases h
  · next node walk step =>
    cases h
    refine ⟨node, ?_⟩
    obtain ⟨split, capacity, discovered, fresh, found⟩ := account.split.next? step
    rw [account.missing, countDown_eq fresh]
    -- Before any edge is admitted: the yielded node and its successors are accounted for.
    have stepped : Invariant index edges guarded (node :: nodes)
        { marking with walk, missing := guarded.map (·.lacking index (node :: nodes)) } := by
      refine ⟨?_, List.nodup_cons.mpr ⟨fresh, account.nodup⟩, capacity.trans account.capacity, ?_,
        rfl, fun {other} h ↦ ?_, account.successor,
        fun h ↦ (found _).mpr (.inr (account.entry h)), account.plain, account.admitted,
        fun {other next} yielded h ↦ ?_⟩
      · simpa only [List.mem_cons] using split
      · rw [Walk.expanded_next? step, account.expanded, List.length_cons]
      · rcases (found other).mp h with ⟨successor, -⟩ | known
        · exact (account.successor successor).2 (account.sound discovered)
        · exact account.sound known
      · refine (found next).mpr ?_
        rcases List.mem_cons.mp yielded with rfl | before
        · exact .inl ⟨h, account.capacity ▸ (account.successor h).1⟩
        · exact .inr (account.closed before h)
    obtain ⟨inv, admitted⟩ := stepped.foldl_accept covers
      (released index node guarded (guarded.map (·.lacking index nodes))) fun edge mem ↦ by
        rw [released_eq fresh] at mem
        obtain ⟨mem, free⟩ := List.mem_filter.mp (List.mem_filter.mp mem).1
        refine ⟨mem, fun required mem' ↦ stepped.sound ?_⟩
        refine (stepped.split.isDiscovered_iff _).mpr (.inr ?_)
        exact GuardedEdge.lacking_eq_zero_iff.mp (beq_iff_eq.mp free) required mem'
    refine ⟨inv, ?_⟩
    rw [admitted]
    exact (account.free.append_right _).trans (free_cons fresh)

/-- A walk is over when its stack is empty. -/
theorem next?_eq_none_iff : marking.next? index guarded = none ↔ marking.walk.stack = [] := by
  unfold Marking.next? Walk.next?
  cases h : marking.walk.stack <;> simp

/-- A node that is yielded or waits to be is below the size. -/
theorem Account.lt_size (account : marking.Account index edges guarded nodes) {node : Nat}
    (h : node ∈ marking.walk.stack ∨ node ∈ nodes) : node < index.size :=
  account.capacity ▸ BitSet.lt_capacity_of_contains ((account.split.isDiscovered_iff node).mpr h)

/-- No more nodes are yielded than there are, and a walk that has yielded as many is over. -/
theorem Account.length_le (account : marking.Account index edges guarded nodes) :
    (marking.walk.stack ++ nodes).length ≤ index.size := by
  have nodup : (marking.walk.stack ++ nodes).Nodup :=
    account.split.nodup.append account.nodup fun _ mem mem' ↦ account.split.apart mem mem'
  have subset : marking.walk.stack ++ nodes ⊆ List.range index.size := fun node mem ↦
    List.mem_range.mpr (account.lt_size (List.mem_append.mp mem))
  simpa using (List.subperm_of_subset nodup subset).length_le

/-- A run with enough steps ends with an empty stack. -/
theorem Account.run (account : marking.Account index edges guarded nodes)
    (covers : index.Covers edges guarded) (steps : Nat)
    (enough : index.size ≤ steps + nodes.length) :
    ∃ nodes, (marking.run index guarded steps).Account index edges guarded nodes ∧
      (marking.run index guarded steps).walk.stack = [] := by
  induction steps generalizing marking nodes with
  | zero =>
    have := account.length_le
    rw [List.length_append] at this
    exact ⟨nodes, account, List.eq_nil_of_length_eq_zero (by rw [Marking.run]; omega)⟩
  | succ steps ih =>
    unfold Marking.run
    split
    · next stopped => exact ⟨nodes, account, next?_eq_none_iff.mp stopped⟩
    · next after step =>
      obtain ⟨node, account'⟩ := account.next? covers step
      exact ih account' (by rw [List.length_cons]; omega)

/-- The nodes that a finished walk has discovered and yielded are those that the edges reach. -/
theorem Account.isDiscovered_iff_of_stack (account : marking.Account index edges guarded nodes)
    (finished : marking.walk.stack = []) (node : Nat) :
    (marking.walk.isDiscovered node = true ↔ node ∈ nodes) ∧
      (marking.walk.isDiscovered node = true ↔ Reached index edges guarded node) := by
  have yielded (node : Nat) : marking.walk.isDiscovered node = true ↔ node ∈ nodes := by
    rw [account.split.isDiscovered_iff, finished]
    simp
  refine ⟨yielded node, account.sound, fun reached ↦ ?_⟩
  induction reached with
  | entry mem => exact account.entry mem
  | plain mem _ source => exact account.closed ((yielded _).mp source) (account.plain mem)
  | @guarded edge mem _ _ source requires =>
    refine account.closed ((yielded _).mp source) (account.admitted ?_)
    refine account.free.mem_iff.mpr (List.mem_filter.mpr ⟨mem, beq_iff_eq.mpr ?_⟩)
    exact GuardedEdge.lacking_eq_zero_iff.mpr fun node required ↦
      (yielded _).mp (requires node required)

end Marking

/-- The marked positions are exactly those that the edges reach. -/
theorem Reachability.contains_compute {index : FlowIndex} {edges : List FlowEdge}
    {guarded : List GuardedEdge} (covers : index.Covers edges guarded) (node : Nat) :
    (compute index edges guarded).live.contains node = true ↔
      Reached index edges guarded node := by
  obtain ⟨nodes, account, finished⟩ :=
    (Marking.account_start covers).run covers index.size (Nat.le_add_right _ _)
  exact (account.isDiscovered_iff_of_stack finished node).2

end ProtectedRegions
