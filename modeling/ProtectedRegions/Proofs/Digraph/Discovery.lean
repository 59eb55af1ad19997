import Mathlib.Data.List.Dedup
import Mathlib.Data.List.Perm.Subperm
import ProtectedRegions.Proofs.Digraph.Preorder

/-!
# The order of a walk

A walk discovers all successors of a node when it yields the node, and not one by one as it comes to
them. It therefore goes through a graph like the recursive traversal, but passes over a successor
that waits for its turn already. Its order is the pre-order exactly if it is depth-first all the
same.
-/

namespace ProtectedRegions

namespace Digraph

variable {ν ε : Type} {graph : Digraph ν ε} {found todo order after : List Nat}

/-- The successors of a node that were not found before, each in the place of its last edge. -/
def fresh (graph : Digraph ν ε) (found : List Nat) (node : Nat) : List Nat :=
  (graph.successors node).dedup.filter (· ∉ found)

/-- The traversal that finds all successors of a node at once: it yields the nodes of a list in
turn, each followed by what it leads to. The nodes found before and after it stand at the ends,
those to be yielded and those yielded in between. -/
inductive Yields (graph : Digraph ν ε) : List Nat → List Nat → List Nat → List Nat → Prop where
  | done {found : List Nat} : Yields graph found [] [] found
  | yield {found between after rest below beside : List Nat} {node : Nat}
      (inner : Yields graph (found ++ graph.fresh found node) (graph.fresh found node)
        below between)
      (later : Yields graph between rest beside after) :
      Yields graph found (node :: rest) (node :: below ++ beside) after

/-- What was found remains found. -/
theorem Yields.subset (yields : graph.Yields found todo order after) : found ⊆ after := by
  induction yields with
  | done => exact List.Subset.refl _
  | yield _ _ ihInner ihLater =>
    exact List.Subset.trans (List.append_subset.mp ihInner).1 ihLater

/-- In a finite graph the traversal comes to an end. -/
theorem exists_yields (joined : graph.Joined) (bound : Nat)
    (room : graph.remaining found < bound) (todo : List Nat) :
    ∃ order after, graph.Yields found todo order after := by
  induction bound generalizing found todo with
  | zero => exact absurd room (Nat.not_lt_zero _)
  | succ bound deeper =>
    induction todo generalizing found with
    | nil => exact ⟨[], found, .done⟩
    | cons node rest ih =>
      obtain ⟨below, between, inner⟩ : ∃ below between, graph.Yields
          (found ++ graph.fresh found node) (graph.fresh found node) below between := by
        cases new : graph.fresh found node with
        | nil => exact ⟨[], _, .done⟩
        | cons next others =>
          have listed : next ∈ graph.fresh found node := new ▸ List.mem_cons_self
          obtain ⟨successor, missing⟩ := List.mem_filter.mp listed
          have fewer := graph.remaining_lt_of_subset
            (List.subset_append_left found (next :: others))
            (joined.lt_size (List.mem_dedup.mp successor)) (of_decide_eq_true missing) (by simp)
          exact deeper (by omega) _
      have kept := graph.remaining_le_of_subset (List.append_subset.mp inner.subset).1
      obtain ⟨beside, after, later⟩ := ih (Nat.lt_of_le_of_lt kept room)
      exact ⟨_, after, .yield inner later⟩

end Digraph

namespace Walk

variable {successors : Nat → List Nat} {walk : Walk}

/-- A finished walk yields nothing more. -/
theorem take_of_next?_eq_none (finished : walk.next? successors = none) (steps : Nat) :
    walk.take successors steps = ([], walk) := by
  cases steps with
  | zero => rfl
  | succ steps => simp only [take, finished]

/-- Steps may be taken in two parts. -/
theorem take_add (successors : Nat → List Nat) (walk : Walk) (first second : Nat) :
    walk.take successors (first + second) =
      ((walk.take successors first).1 ++
          ((walk.take successors first).2.take successors second).1,
        ((walk.take successors first).2.take successors second).2) := by
  induction first generalizing walk with
  | zero => simp [take]
  | succ first ih =>
    rw [Nat.add_right_comm]
    cases step : walk.next? successors with
    | none => simp [take_of_next?_eq_none step]
    | some result => simp only [take, step, ih, List.cons_append]

/-- The nodes pushed in reverse lie on the stack in their order, each in its last place, apart from
those discovered before. -/
theorem stack_foldl_push (nodes : List Nat) (inside : ∀ node ∈ nodes, node < walk.capacity) :
    (nodes.reverse.foldl Walk.push walk).stack =
      nodes.dedup.filter (walk.isDiscovered · = false) ++ walk.stack := by
  induction nodes with
  | nil => rfl
  | cons node rest ih =>
    have deep := ih fun other mem ↦ inside other (List.mem_cons_of_mem _ mem)
    have known := isDiscovered_foldl_push walk rest.reverse node
    have lt := inside node List.mem_cons_self
    rw [List.mem_reverse] at known
    rw [List.reverse_cons, List.foldl_append, List.foldl_cons, List.foldl_nil, push_eq,
      capacity_foldl_push]
    by_cases again : node ∈ rest
    · have old := known.mpr (.inl ⟨again, lt⟩)
      rw [if_neg fun h ↦ Bool.false_ne_true (h.2.symm.trans old), deep,
        List.dedup_cons_of_mem again]
    · rw [List.dedup_cons_of_notMem again]
      by_cases before : walk.isDiscovered node = true
      · have old := known.mpr (.inr before)
        rw [if_neg fun h ↦ Bool.false_ne_true (h.2.symm.trans old), deep,
          List.filter_cons_of_neg (by simpa using before)]
      · have new : (rest.reverse.foldl Walk.push walk).isDiscovered node = false := by
          rw [← Bool.not_eq_true, known]
          tauto
        rw [if_pos ⟨lt, new⟩, deep, List.filter_cons_of_pos (by simpa using before)]
        rfl

variable {ν ε : Type} {graph : Digraph ν ε} {start : Nat}

/-- A walk for the nodes of a graph stands where the nodes of `stack` wait and those of `found` are
discovered. -/
structure StandsAt (walk : Walk) (graph : Digraph ν ε) (stack found : List Nat) : Prop where
  stack : walk.stack = stack
  isDiscovered_iff (node : Nat) : walk.isDiscovered node = true ↔ node ∈ found
  capacity : walk.capacity = graph.size

/-- A walk starts with its first node on the stack. -/
theorem standsAt_start (inside : start < graph.size) :
    ((Walk.start graph.size).push start).StandsAt graph [start] [start] := by
  have none (node : Nat) : (Walk.start graph.size).isDiscovered node = false :=
    BitSet.contains_empty _ _
  refine ⟨?_, fun node ↦ ?_, capacity_push _ _⟩
  · rw [push_eq, if_pos ⟨inside, none start⟩]
    rfl
  · rw [isDiscovered_push, none]
    have : start < (Walk.start graph.size).capacity := inside
    simp [this]

/-- A step yields the top of the stack and puts the successors that it finds in its place. -/
theorem StandsAt.next? {found rest : List Nat} {node : Nat}
    (stands : walk.StandsAt graph (node :: rest) found) (joined : graph.Joined) :
    ∃ after, walk.next? graph.successors = some (node, after) ∧
      after.StandsAt graph (graph.fresh found node ++ rest)
        (found ++ graph.fresh found node) := by
  set popped : Walk := { walk with stack := rest, expanded := walk.expanded + 1 }
  have known (other : Nat) : popped.isDiscovered other = true ↔ other ∈ found :=
    stands.isDiscovered_iff other
  have inside : ∀ other ∈ graph.successors node, other < popped.capacity :=
    fun other mem ↦ stands.capacity ▸ joined.lt_size mem
  have fresh : (graph.successors node).dedup.filter (popped.isDiscovered · = false) =
      graph.fresh found node := by
    refine List.filter_congr fun other _ ↦ decide_eq_decide.mpr ?_
    rw [← Bool.not_eq_true, known]
  refine ⟨(graph.successors node).reverse.foldl Walk.push popped, ?_, ?_, fun other ↦ ?_, ?_⟩
  · unfold Walk.next?
    rw [stands.stack]
  · rw [stack_foldl_push _ inside, fresh]
  · rw [isDiscovered_foldl_push, known, List.mem_reverse, List.mem_append, Digraph.fresh,
      List.mem_filter, List.mem_dedup, decide_eq_true_eq]
    have := inside other
    tauto
  · exact (capacity_foldl_push _ _).trans stands.capacity

/-- A walk yields what lies on top of its stack in the order of the traversal, down to the rest of
the stack. -/
theorem StandsAt.take {found todo order after rest : List Nat}
    (stands : walk.StandsAt graph (todo ++ rest) found) (joined : graph.Joined)
    (yields : graph.Yields found todo order after) :
    ∃ final, walk.take graph.successors order.length = (order, final) ∧
      final.StandsAt graph rest after := by
  induction yields generalizing walk rest with
  | done => exact ⟨walk, rfl, stands⟩
  | @yield found between after siblings below beside node _ _ ihInner ihLater =>
    obtain ⟨first, step, stands⟩ := stands.next? joined
    obtain ⟨second, inner, stands⟩ := ihInner stands
    obtain ⟨final, later, stands⟩ := ihLater stands
    refine ⟨final, ?_, stands⟩
    rw [List.cons_append, List.length_cons, List.length_append, Walk.take, step]
    simp only [take_add, inner, later]

namespace Session

/-- Several calls for the next node are so many steps of the walk. -/
theorem foldl_perform_next (session : Session ν ε) (steps : Nat) :
    (List.replicate steps Call.next).foldl perform session =
      { session with
        walk := (session.walk.take session.graph.successors steps).2
        reads := ((session.walk.take session.graph.successors steps).1.map
          fun node ↦ (node, session.graph.successors node)).reverse ++ session.reads } := by
  induction steps generalizing session with
  | zero => rfl
  | succ steps ih =>
    rw [List.replicate_succ, List.foldl_cons, ih]
    cases step : session.walk.next? session.graph.successors with
    | none => simp [perform, step, take_of_next?_eq_none step]
    | some result => simp [perform, step, Walk.take]

/-- The account of a walk that yielded the nodes of `order` from `start` on. -/
def account (graph : Digraph ν ε) (start : Nat) (order : List Nat) (walk : Walk) : Session ν ε :=
  ⟨graph, walk, [start], (order.map fun node ↦ (node, graph.successors node)).reverse⟩

/-- The latest node of the account is the last of the order. -/
theorem yielded_account (graph : Digraph ν ε) (start : Nat) (order : List Nat) (walk : Walk) :
    (account graph start order walk).yielded = order.reverse := by
  simp [account, yielded, Function.comp_def]

/-- The steps of a walk from one node make a session. -/
theorem invariant_account {order : List Nat} {final : Walk} {steps : Nat} (joined : graph.Joined)
    (taken : ((Walk.start graph.size).push start).take graph.successors steps = (order, final)) :
    (account graph start order final).Invariant graph := by
  have pushed := (invariant_start joined).perform (.push start)
  have inv := pushed.foldl_perform (List.replicate steps .next)
  have same : (List.replicate steps Call.next).foldl perform
      ((Session.start graph).perform (.push start)) = account graph start order final := by
    rw [foldl_perform_next]
    simp [perform, Session.start, taken, account]
  exact same ▸ inv

end Session

/-- What a walk from a node has yielded when nothing is left on the stack: every node that the start
leads to, and each of them once. -/
theorem complete_of_take {order found : List Nat} {final : Walk} {steps : Nat}
    (joined : graph.Joined) (inside : start < graph.size)
    (taken : ((Walk.start graph.size).push start).take graph.successors steps = (order, final))
    (ended : final.StandsAt graph [] found) :
    order.Nodup ∧ (∀ node, node ∈ order ↔ Relation.ReflTransGen graph.Leads start node) ∧
      order.length ≤ graph.size := by
  have inv := Session.invariant_account joined taken
  have yielded := Session.yielded_account graph start order final
  have discovered (node : Nat) : final.isDiscovered node = true ↔ node ∈ order := by
    have split := inv.split.isDiscovered_iff node
    rw [yielded, List.mem_reverse] at split
    exact split.trans (or_iff_right (ended.stack ▸ List.not_mem_nil))
  have nodup : order.Nodup := List.nodup_reverse.mp (yielded ▸ inv.nodup)
  refine ⟨nodup, fun node ↦ ?_, ?_⟩
  · rw [← discovered]
    refine (inv.isDiscovered_iff_of_finished ended.stack rfl node).trans ?_
    simp only [Session.account, List.mem_singleton, exists_eq_left, inside, true_and]
    rfl
  · have below : order ⊆ List.range graph.size := by
      intro node mem
      have lt := BitSet.lt_capacity_of_contains ((discovered node).mpr mem)
      exact List.mem_range.mpr (ended.capacity ▸ lt)
    simpa using (List.subperm_of_subset nodup below).length_le

/-- A walk from a node of a graph comes to its end and yields the nodes in the order in which all
successors of a node are found when the node itself is yielded. This is the pre-order of the
recursive traversal exactly if it is depth-first. -/
theorem yields_preorder_iff (joined : graph.Joined) (inside : start < graph.size) :
    ∃ order found final,
      ((Walk.start graph.size).push start).drain graph.successors = (order, final) ∧
      final.next? graph.successors = none ∧
      graph.Yields [start] [start] order found ∧
      graph.Visits [] [start] (graph.preorder start) ∧
      (order = graph.preorder start ↔ graph.IsDepthFirst order) := by
  obtain ⟨order, found, yields⟩ :=
    Digraph.exists_yields joined _ (Nat.lt_succ_self (graph.remaining [start])) [start]
  obtain ⟨final, taken, ended⟩ := (standsAt_start inside).take joined yields
  obtain ⟨nodup, members, few⟩ := complete_of_take joined inside taken ended
  have finished : final.next? graph.successors = none := next?_eq_none_iff.mpr ended.stack
  refine ⟨order, found, final, ?_, finished, yields, Digraph.visits_preorder joined inside, ?_⟩
  · have capacity : ((Walk.start graph.size).push start).discovered.capacity =
        order.length + (graph.size - order.length) :=
      (standsAt_start inside).capacity.trans (Nat.add_sub_of_le few).symm
    rw [drain, capacity, take_add, taken, take_of_next?_eq_none finished, List.append_nil]
  · refine ⟨fun same ↦ same ▸ Digraph.isDepthFirst_preorder joined inside, fun law ↦ ?_⟩
    have nodupPreorder := Digraph.nodup_preorder joined inside
    have membersPreorder (node : Nat) : node ∈ graph.preorder start ↔ _ :=
      Digraph.mem_preorder joined inside
    have lawPreorder := Digraph.isDepthFirst_preorder joined inside
    obtain ⟨rest, begin, -⟩ := Digraph.exists_preorder_eq_cons joined inside
    rw [begin] at nodupPreorder membersPreorder lawPreorder ⊢
    cases yields with
    | yield _ _ =>
      exact congrArg (start :: ·) <| law.unique [start] lawPreorder nodup
        nodupPreorder members membersPreorder List.mem_cons_self

/-- One node with three successors, the first and the last of which are joined in a circle with
it. -/
def fan : Digraph Unit Unit :=
  ⟨#[(), (), (), ()], #[⟨0, 1, ()⟩, ⟨0, 2, ()⟩, ⟨0, 3, ()⟩, ⟨1, 3, ()⟩, ⟨3, 0, ()⟩]⟩

/-- From node 0, node 3 waits already when node 1 is yielded, and comes after node 2 instead of
before it. -/
theorem drain_passes_over_successor :
    fan.Joined ∧ 0 < fan.size ∧ fan.preorder 0 = [0, 1, 3, 2] ∧
      (((Walk.start fan.size).push 0).drain fan.successors).1 = [0, 1, 2, 3] := by
  refine ⟨?_, by decide, by decide, by decide⟩
  unfold Digraph.Joined
  decide

/-- From node 3, each node is met once before its turn, and the order is depth-first; from node 0 it
is not. -/
theorem yields_preorder_iff_fan :
    fan.Joined ∧ 3 < fan.size ∧
      fan.IsDepthFirst [3, 0, 1, 2] ∧ ¬ fan.IsDepthFirst [0, 1, 2, 3] := by
  have joined : fan.Joined := by
    unfold Digraph.Joined
    decide
  refine ⟨joined, by decide, ?_, fun law ↦ ?_⟩
  · obtain ⟨order, found, final, drained, -, -, -, same⟩ :=
      yields_preorder_iff joined (show 3 < fan.size by decide)
    have order_eq : [3, 0, 1, 2] = order := congrArg Prod.fst drained
    exact order_eq ▸ same.mp (order_eq ▸ by decide)
  · obtain ⟨order, found, final, drained, -, -, -, same⟩ :=
      yields_preorder_iff joined (show 0 < fan.size by decide)
    have order_eq : [0, 1, 2, 3] = order := congrArg Prod.fst drained
    exact absurd (order_eq ▸ same.mpr (order_eq ▸ law)) (by decide)

end Walk
end ProtectedRegions
