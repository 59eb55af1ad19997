import ProtectedRegions.Digraph.Walk
import ProtectedRegions.Proofs.BitSet

/-!
# The invariant of a walk

At every moment the discovered nodes are those on the stack and those yielded so far, without
overlap and without repetition on the stack. Pushing keeps this whatever is pushed, and
discovers the pushed nodes that are below the capacity.
-/

namespace ProtectedRegions
namespace Walk

/-- The stack and the nodes yielded so far, given by `yielded`, split the discovered nodes. -/
structure Split (walk : Walk) (yielded : Nat → Prop) : Prop where
  nodup : walk.stack.Nodup
  isDiscovered_iff (node : Nat) :
    walk.isDiscovered node = true ↔ node ∈ walk.stack ∨ yielded node
  apart {node : Nat} : node ∈ walk.stack → ¬ yielded node

/-- The number of nodes that a walk ranges over. -/
def capacity (walk : Walk) : Nat := walk.discovered.capacity

/-- A node is pushed if it is below the capacity and new; else nothing changes. -/
theorem push_eq (walk : Walk) (node : Nat) :
    walk.push node =
      if node < walk.capacity ∧ walk.isDiscovered node = false then
        { walk with stack := node :: walk.stack, discovered := (walk.discovered.insert node).2 }
      else walk := by
  have isNew : (walk.discovered.insert node).1 =
      (decide (node < walk.capacity) && !walk.isDiscovered node) :=
    walk.discovered.insert_fst node
  unfold push
  by_cases fresh : node < walk.capacity ∧ walk.isDiscovered node = false
  · have : (walk.discovered.insert node).1 = true := by
      rw [isNew, decide_eq_true fresh.1, fresh.2]
      rfl
    simp only [this, if_true, fresh, and_self]
  · have : (walk.discovered.insert node).1 = false := by
      rw [isNew, Bool.and_eq_false_iff, decide_eq_false_iff_not, Bool.not_eq_false']
      by_cases inside : node < walk.capacity
      · exact .inr (Bool.not_eq_false _ |>.mp fun h ↦ fresh ⟨inside, h⟩)
      · exact .inl inside
    simp only [this, Bool.false_eq_true, if_false, fresh]

/-- A pushed node that is below the capacity is discovered, and no other. -/
theorem isDiscovered_push (walk : Walk) (node other : Nat) :
    (walk.push node).isDiscovered other =
      (decide (other = node ∧ node < walk.capacity) || walk.isDiscovered other) := by
  rw [push_eq]
  split
  · exact walk.discovered.contains_insert node other
  · next stale =>
    by_cases pushed : other = node ∧ node < walk.capacity
    · obtain ⟨rfl, inside⟩ := pushed
      have : walk.isDiscovered other = true :=
        (Bool.not_eq_false _).mp fun h ↦ stale ⟨inside, h⟩
      simp [this]
    · simp [pushed]

/-- Pushing keeps the split. -/
theorem Split.push {walk : Walk} {yielded : Nat → Prop} (split : walk.Split yielded)
    (node : Nat) : (walk.push node).Split yielded := by
  by_cases fresh : node < walk.capacity ∧ walk.isDiscovered node = false
  · have unknown : ¬ (node ∈ walk.stack ∨ yielded node) := by
      rw [← split.isDiscovered_iff, fresh.2]
      exact Bool.false_ne_true
    have stack : (walk.push node).stack = node :: walk.stack := by
      rw [push_eq, if_pos fresh]
    refine ⟨?_, fun other ↦ ?_, fun {other} mem ↦ ?_⟩
    · rw [stack]
      exact List.nodup_cons.mpr ⟨fun mem ↦ unknown (.inl mem), split.nodup⟩
    · rw [isDiscovered_push, stack, List.mem_cons, or_assoc, ← split.isDiscovered_iff]
      simp [fresh.1]
    · rw [stack, List.mem_cons] at mem
      rcases mem with rfl | mem
      · exact fun before ↦ unknown (.inr before)
      · exact split.apart mem
  · rw [push_eq, if_neg fresh]
    exact split

/-- Pushing several nodes keeps the split. -/
theorem Split.foldl_push {walk : Walk} {yielded : Nat → Prop} (split : walk.Split yielded)
    (nodes : List Nat) : (nodes.foldl Walk.push walk).Split yielded := by
  induction nodes generalizing walk with
  | nil => exact split
  | cons node rest ih => exact ih (split.push node)

/-- Pushing several nodes keeps the capacity. -/
theorem capacity_foldl_push (walk : Walk) (nodes : List Nat) :
    (nodes.foldl Walk.push walk).capacity = walk.capacity := by
  induction nodes generalizing walk with
  | nil => rfl
  | cons node rest ih =>
    rw [List.foldl_cons, ih]
    exact walk.capacity_push node

/-- Pushing several nodes expands nothing. -/
theorem expanded_foldl_push (walk : Walk) (nodes : List Nat) :
    (nodes.foldl Walk.push walk).expanded = walk.expanded := by
  induction nodes generalizing walk with
  | nil => rfl
  | cons node rest ih => rw [List.foldl_cons, ih, expanded_push]

/-- A step expands one node. -/
theorem expanded_next? {walk after : Walk} {successors : Nat → List Nat} {node : Nat}
    (h : walk.next? successors = some (node, after)) : after.expanded = walk.expanded + 1 := by
  unfold Walk.next? at h
  split at h
  · cases h
  · cases h
    exact expanded_foldl_push _ _

/-- Pushing several nodes discovers those below the capacity. -/
theorem isDiscovered_foldl_push (walk : Walk) (nodes : List Nat) (other : Nat) :
    (nodes.foldl Walk.push walk).isDiscovered other = true ↔
      (other ∈ nodes ∧ other < walk.capacity) ∨ walk.isDiscovered other = true := by
  induction nodes generalizing walk with
  | nil => simp
  | cons node rest ih =>
    rw [List.foldl_cons, ih, isDiscovered_push,
      show (walk.push node).capacity = walk.capacity from walk.capacity_push node]
    simp only [Bool.or_eq_true, decide_eq_true_eq, List.mem_cons]
    constructor
    · rintro (⟨mem, lt⟩ | ⟨rfl, lt⟩ | known)
      · exact .inl ⟨.inr mem, lt⟩
      · exact .inl ⟨.inl rfl, lt⟩
      · exact .inr known
    · rintro (⟨rfl | mem, lt⟩ | known)
      · exact .inr (.inl ⟨rfl, lt⟩)
      · exact .inl ⟨mem, lt⟩
      · exact .inr (.inr known)

/-- Nothing is discovered by a fresh walk. -/
theorem split_start (capacity : Nat) : (Walk.start capacity).Split fun _ ↦ False := by
  refine ⟨List.nodup_nil, fun node ↦ ?_, fun mem ↦ by cases mem⟩
  simp [start, isDiscovered, BitSet.contains_empty]

/-- A step yields the top of the stack, which was not yielded before, and discovers its
successors below the capacity. -/
theorem Split.next? {walk after : Walk} {yielded : Nat → Prop} {successors : Nat → List Nat}
    {node : Nat} (split : walk.Split yielded) (h : walk.next? successors = some (node, after)) :
    after.Split (fun other ↦ other = node ∨ yielded other) ∧ after.capacity = walk.capacity ∧
      walk.isDiscovered node = true ∧ ¬ yielded node ∧
      ∀ other, after.isDiscovered other = true ↔
        (other ∈ successors node ∧ other < walk.capacity) ∨ walk.isDiscovered other = true := by
  unfold Walk.next? at h
  split at h
  · cases h
  · next top rest stack =>
    cases h
    have nodup := split.nodup
    rw [stack, List.nodup_cons] at nodup
    have popped : ({ walk with stack := rest, expanded := walk.expanded + 1 } : Walk).Split
        fun other ↦ other = node ∨ yielded other := by
      refine ⟨nodup.2, fun other ↦ ?_, fun {other} mem ↦ ?_⟩
      · have known := split.isDiscovered_iff other
        rw [stack, List.mem_cons] at known
        rw [or_left_comm, ← or_assoc]
        exact known
      · rintro (rfl | before)
        · exact nodup.1 mem
        · exact split.apart (stack ▸ List.mem_cons_of_mem _ mem) before
    refine ⟨popped.foldl_push _, capacity_foldl_push _ _, ?_, ?_, fun other ↦ ?_⟩
    · exact (split.isDiscovered_iff node).mpr (.inl (stack ▸ List.mem_cons_self))
    · exact split.apart (stack ▸ List.mem_cons_self)
    · rw [isDiscovered_foldl_push, List.mem_reverse]
      rfl

end Walk
end ProtectedRegions
