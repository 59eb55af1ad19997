import ProtectedRegions.BitSet

/-!
# Resumable depth-first walks

A walk keeps its stack and the set of discovered nodes between steps, so nodes may be pushed
and edges may be added while it is under way. A node is discovered when it is pushed, and is
pushed at most once; nodes at or beyond the capacity are ignored. The graph is given to each
step as a successor function.
-/

namespace ProtectedRegions

/-- The state of a depth-first walk; the top of the stack comes first
(`utils/graph/algorithms/traversal:21–25`). -/
structure Walk where
  stack : List Nat
  discovered : BitSet
  expanded : Nat
  deriving DecidableEq, Repr

namespace Walk

/-- A fresh walk over the nodes below `capacity` (`utils/graph/algorithms/traversal:29–35`). -/
def start (capacity : Nat) : Walk := ⟨[], .empty capacity, 0⟩

/-- Discovers a node; without effect if it was discovered before
(`utils/graph/algorithms/traversal:40–44`). -/
def push (walk : Walk) (node : Nat) : Walk :=
  let (isNew, discovered) := walk.discovered.insert node
  if isNew then { walk with stack := node :: walk.stack, discovered } else walk

/-- Whether a node was pushed so far (`utils/graph/algorithms/traversal:48–50`). -/
def isDiscovered (walk : Walk) (node : Nat) : Bool := walk.discovered.contains node

/-- Yields the top of the stack and discovers its successors, the first of them on top
(`utils/graph/algorithms/traversal:56–67`). -/
def next? (successors : Nat → List Nat) (walk : Walk) : Option (Nat × Walk) :=
  match walk.stack with
  | [] => none
  | node :: rest =>
    let popped := { walk with stack := rest, expanded := walk.expanded + 1 }
    some (node, (successors node).reverse.foldl push popped)

/-- At most `steps` further nodes, in the order in which the walk yields them. -/
def take (successors : Nat → List Nat) : Nat → Walk → List Nat × Walk
  | 0, walk => ([], walk)
  | steps + 1, walk =>
    match walk.next? successors with
    | none => ([], walk)
    | some (node, rest) =>
      let (nodes, final) := take successors steps rest
      (node :: nodes, final)

/-- All further nodes: each step yields another of the nodes below the capacity. -/
def drain (successors : Nat → List Nat) (walk : Walk) : List Nat × Walk :=
  walk.take successors walk.discovered.capacity

/-- A walk is over when its stack is empty. -/
theorem next?_eq_none_iff {successors : Nat → List Nat} {walk : Walk} :
    walk.next? successors = none ↔ walk.stack = [] := by
  unfold next?
  split <;> simp_all

/-- Pushing keeps the capacity. -/
theorem capacity_push (walk : Walk) (node : Nat) :
    (walk.push node).discovered.capacity = walk.discovered.capacity := by
  unfold push
  have h := walk.discovered.capacity_insert node
  revert h
  rcases walk.discovered.insert node with ⟨isNew, discovered⟩
  intro h
  cases isNew
  · rfl
  · exact h

/-- Pushing expands nothing. -/
theorem expanded_push (walk : Walk) (node : Nat) : (walk.push node).expanded = walk.expanded := by
  unfold push
  rcases walk.discovered.insert node with ⟨isNew, discovered⟩
  cases isNew <;> rfl

end Walk
end ProtectedRegions
