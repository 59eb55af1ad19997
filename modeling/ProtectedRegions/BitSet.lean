/-!
# Packed sets of small numbers

A set of numbers below a fixed capacity, packed sixty-four to a word. Numbers at or beyond
the capacity are never members, although the last word may have bits for some of them.
-/

namespace ProtectedRegions

/-- A set of numbers below `capacity`; bit `i % 64` of word `i / 64` tells whether `i` is in
(`utils/bitset:23–28`). -/
structure BitSet where
  capacity : Nat
  words : Array UInt64
  size_words : words.size = (capacity + 63) / 64
  deriving DecidableEq, Repr

namespace BitSet

/-- The word in which only the bit of `i` is set. -/
def bit (i : Nat) : UInt64 := 1 <<< UInt64.ofNat (i % 64)

/-- The number of bits set in a word. -/
def popCount (word : UInt64) : Nat :=
  (List.range 64).countP fun i ↦ (word &&& bit i) != 0

/-- The positions of the bits set in a word. -/
def offsets (word : UInt64) : List Nat :=
  (List.range 64).filter fun i ↦ (word &&& bit i) != 0

/-- The set without members (`utils/bitset:33–39`). -/
def empty (capacity : Nat) : BitSet where
  capacity := capacity
  words := Array.replicate ((capacity + 63) / 64) 0
  size_words := by simp

/-- Membership; false at and beyond the capacity (`utils/bitset:58–63`). -/
def contains (set : BitSet) (i : Nat) : Bool :=
  if i < set.capacity then
    (set.words.getD (i / 64) 0 &&& bit i) != 0
  else false

/-- Adds `i` if it is below the capacity. The flag tells whether `i` became a member
(`utils/bitset:45–54`). -/
def insert (set : BitSet) (i : Nat) : Bool × BitSet :=
  if i < set.capacity then
    (!set.contains i,
      { set with
        words := set.words.modify (i / 64) (· ||| bit i)
        size_words := by simp [set.size_words] })
  else (false, set)

/-- The number of members, counted a word at a time (`utils/bitset:67–69`). -/
def count (set : BitSet) : Nat :=
  set.words.toList.foldl (fun total word ↦ total + popCount word) 0

/-- The numbers of the bits set, word by word. -/
def setBits (set : BitSet) : List Nat :=
  set.words.toList.zipIdx.flatMap fun (word, index) ↦ (offsets word).map (index * 64 + ·)

/-- The members in increasing order, up to the first bit at or beyond the capacity
(`utils/bitset:72–82`). -/
def toList (set : BitSet) : List Nat :=
  set.setBits.takeWhile (· < set.capacity)

/-- The set of those listed numbers that are below the capacity. -/
def ofList (capacity : Nat) (members : List Nat) : BitSet :=
  members.foldl (fun set i ↦ (set.insert i).2) (empty capacity)

instance : ToString BitSet where
  toString set := "\x7b" ++ ", ".intercalate (set.toList.map toString) ++ "\x7d"

/-- Nothing is a member of the empty set. -/
theorem contains_empty (capacity i : Nat) : (empty capacity).contains i = false := by
  simp only [contains, empty, Array.getD_eq_getD_getElem?, Array.getElem?_replicate]
  split
  · split <;> simp
  · rfl

/-- Members are below the capacity. -/
theorem lt_capacity_of_contains {set : BitSet} {i : Nat} (h : set.contains i = true) :
    i < set.capacity := by
  unfold contains at h
  split at h
  · assumption
  · contradiction

/-- Insertion keeps the capacity. -/
theorem capacity_insert (set : BitSet) (i : Nat) :
    (set.insert i).2.capacity = set.capacity := by
  unfold insert
  split <;> rfl

/-- A number at or beyond the capacity is not inserted. -/
theorem insert_of_capacity_le {set : BitSet} {i : Nat} (h : set.capacity ≤ i) :
    set.insert i = (false, set) := by
  simp [insert, Nat.not_lt.mpr h]

end BitSet
end ProtectedRegions
