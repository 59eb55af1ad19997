import Mathlib.Algebra.Ring.Nat
import Mathlib.Data.List.Induction
import Mathlib.Data.List.TakeWhile
import ProtectedRegions.BitSet

/-!
# Members of packed sets

Insertion as seen bit by bit and through `contains`: it adds the number if it is below the capacity,
keeps all others, and its flag tells whether the number is new. No bit is ever set at or beyond the
capacity, so that counting whole words and listing up to the capacity agree.
-/

namespace ProtectedRegions
namespace BitSet

/-- The word of a single bit is a power of two. -/
theorem toNat_bit (i : Nat) : (bit i).toNat = 2 ^ (i % 64) := by
  have lt : i % 64 < 64 := Nat.mod_lt _ (by decide)
  have power : 2 ^ (i % 64) < 2 ^ 64 := Nat.pow_lt_pow_right (by decide) lt
  simp only [bit, UInt64.toNat_shiftLeft, UInt64.toNat_one, UInt64.toNat_ofNat',
    Nat.one_shiftLeft]
  rw [Nat.mod_eq_of_lt (show i % 64 < 2 ^ 64 by omega), Nat.mod_mod, Nat.mod_eq_of_lt power]

/-- Whether a word has a bit is a test of its number. -/
theorem and_bit_ne_zero (word : UInt64) (i : Nat) :
    (word &&& bit i != 0) = word.toNat.testBit (i % 64) := by
  have h : word &&& bit i = 0 ↔ word.toNat.testBit (i % 64) = false := by
    rw [← UInt64.toNat_inj, UInt64.toNat_and, toNat_bit]
    constructor
    · intro zero
      have bits := congrArg (Nat.testBit · (i % 64)) zero
      simpa [Nat.testBit_and] using bits
    · intro unset
      apply Nat.eq_of_testBit_eq
      intro k
      by_cases same : i % 64 = k
      · subst same
        simp [Nat.testBit_and, unset]
      · simp [Nat.testBit_and, same]
  cases e : word.toNat.testBit (i % 64) <;> simp_all

/-- The bits of a word with one more bit. -/
theorem or_bit_and_bit (word : UInt64) {i j : Nat} (same : i / 64 = j / 64) :
    (((word ||| bit i) &&& bit j) != 0) = (decide (j = i) || (word &&& bit j != 0)) := by
  rw [and_bit_ne_zero, and_bit_ne_zero, UInt64.toNat_or, toNat_bit, Nat.testBit_or,
    Nat.testBit_two_pow, Bool.or_comm]
  congr 1
  have : i % 64 = j % 64 ↔ j = i := by omega
  simp [this]

/-- Whether the bit of `i` is set, below the capacity or not. -/
def isSet (set : BitSet) (i : Nat) : Bool := (set.words.getD (i / 64) 0 &&& bit i) != 0

/-- A member is a number below the capacity whose bit is set. -/
theorem contains_eq (set : BitSet) (i : Nat) :
    set.contains i = (decide (i < set.capacity) && set.isSet i) := by
  unfold contains isSet
  by_cases inside : i < set.capacity <;> simp [inside]

/-- Insertion sets the bit of a number below the capacity, and no other bit. -/
theorem isSet_insert (set : BitSet) (i j : Nat) :
    (set.insert i).2.isSet j = (decide (j = i ∧ i < set.capacity) || set.isSet j) := by
  by_cases inside : i < set.capacity
  · rw [insert, if_pos inside]
    simp only [isSet, Array.getD_eq_getD_getElem?, Array.getElem?_modify, inside, and_true]
    by_cases same : i / 64 = j / 64
    · have size := set.size_words
      have place : j / 64 < set.words.size := by omega
      simp only [same, if_true, Array.getElem?_eq_getElem place, Option.map_some,
        Option.getD_some, or_bit_and_bit _ same]
    · have : ¬ j = i := by
        rintro rfl
        exact same rfl
      simp [same, this]
  · rw [insert_of_capacity_le (Nat.le_of_not_lt inside)]
    simp [inside]

/-- Insertion adds the number and keeps the others. -/
theorem contains_insert (set : BitSet) (i j : Nat) :
    (set.insert i).2.contains j = (decide (j = i ∧ i < set.capacity) || set.contains j) := by
  rw [contains_eq, contains_eq, isSet_insert, capacity_insert, Bool.and_or_distrib_left]
  congr 1
  rw [← Bool.decide_and]
  exact decide_eq_decide.mpr ⟨And.right, fun h ↦ ⟨h.1 ▸ h.2, h⟩⟩

/-- The flag of an insertion tells whether the number is below the capacity and new. -/
theorem insert_fst (set : BitSet) (i : Nat) :
    (set.insert i).1 = (decide (i < set.capacity) && !set.contains i) := by
  unfold insert
  by_cases inside : i < set.capacity <;> simp [inside]

/-- The numbers of a list are inserted one after the other. -/
theorem ofList_concat (capacity : Nat) (members : List Nat) (i : Nat) :
    ofList capacity (members ++ [i]) = ((ofList capacity members).insert i).2 := by
  rw [ofList, List.foldl_append]
  rfl

/-- Insertions keep the capacity. -/
theorem capacity_ofList (capacity : Nat) (members : List Nat) :
    (ofList capacity members).capacity = capacity := by
  induction members using List.reverseRecOn with
  | nil => rfl
  | append_singleton before member ih => rw [ofList_concat, capacity_insert, ih]

/-- A set made of a list has the members of the list that are below the capacity. -/
theorem contains_ofList {capacity : Nat} {members : List Nat} {i : Nat} :
    (ofList capacity members).contains i = true ↔ i ∈ members ∧ i < capacity := by
  induction members using List.reverseRecOn with
  | nil => simp [ofList, contains_empty]
  | append_singleton before member ih =>
    rw [ofList_concat, contains_insert, capacity_ofList, Bool.or_eq_true, decide_eq_true_eq, ih,
      List.mem_append, List.mem_singleton, or_and_right, or_comm]
    exact or_congr_right (and_congr_right fun same ↦ by rw [same])

/-- The bit of a position depends on the place in the word alone. -/
theorem bit_mul_add (index offset : Nat) : bit (index * 64 + offset) = bit offset := by
  have : (index * 64 + offset) % 64 = offset % 64 := by omega
  rw [bit, this, bit]

/-- The positions of the bits of a word are listed in increasing order. -/
theorem pairwise_offsets (word : UInt64) : (offsets word).Pairwise (· < ·) :=
  List.pairwise_lt_range.filter _

/-- There are as many positions as the word has bits. -/
theorem length_offsets (word : UInt64) : (offsets word).length = popCount word :=
  List.countP_eq_length_filter.symm

/-- The scan of all words finds exactly the bits that are set. -/
theorem mem_setBits {set : BitSet} {i : Nat} : i ∈ set.setBits ↔ set.isSet i = true := by
  simp only [setBits, offsets, List.mem_flatMap, List.mem_map, List.mem_filter, List.mem_range,
    List.mem_zipIdx_iff_getElem?, Prod.exists, Array.getElem?_toList]
  constructor
  · rintro ⟨word, index, stored, offset, ⟨lt, found⟩, rfl⟩
    have place : (index * 64 + offset) / 64 = index := by omega
    rw [isSet, place, bit_mul_add, Array.getD_eq_getD_getElem?, stored]
    exact found
  · intro found
    rw [isSet, Array.getD_eq_getD_getElem?] at found
    cases stored : set.words[i / 64]? with
    | none => simp [stored] at found
    | some word =>
      have place : i / 64 * 64 + i % 64 = i := Nat.div_add_mod' i 64
      refine ⟨word, i / 64, stored, i % 64, ⟨Nat.mod_lt i (by decide), ?_⟩, place⟩
      rw [← bit_mul_add (i / 64), place]
      simpa [stored] using found

/-- The scan of all words finds the bits in increasing order. -/
theorem pairwise_setBits (set : BitSet) : set.setBits.Pairwise (· < ·) := by
  refine List.pairwise_flatMap.mpr ⟨fun (word, index) _ ↦ ?_, ?_⟩
  · exact (pairwise_offsets word).map _ fun _ _ lt ↦ Nat.add_lt_add_left lt _
  · have indices : (set.words.toList.zipIdx.map Prod.snd).Pairwise (· < ·) := by
      rw [List.zipIdx_map_snd]
      exact List.pairwise_lt_range' 1
    refine (List.pairwise_map.mp indices).imp fun {first second} lt i memFirst j memSecond ↦ ?_
    obtain ⟨low, found, rfl⟩ := List.mem_map.mp memFirst
    obtain ⟨high, -, rfl⟩ := List.mem_map.mp memSecond
    have : low < 64 := List.mem_range.mp (List.mem_filter.mp found).1
    omega

/-- As many bits are set as the words count together. -/
theorem length_setBits (set : BitSet) : set.setBits.length = set.count := by
  have words : set.words.toList.zipIdx.map (popCount ∘ Prod.fst) =
      set.words.toList.map popCount := by
    rw [← List.map_map, List.zipIdx_map_fst]
  simp only [setBits, List.length_flatMap, List.length_map, length_offsets]
  calc (set.words.toList.zipIdx.map (popCount ∘ Prod.fst)).sum
      = (set.words.toList.map popCount).sum := by rw [words]
    _ = set.count := by rw [List.sum_eq_foldl_nat, List.foldl_map, count]

/-- What an increasing list has before the first number that is too large. -/
theorem mem_takeWhile_lt {numbers : List Nat} (increasing : numbers.Pairwise (· < ·))
    {bound i : Nat} : i ∈ numbers.takeWhile (· < bound) ↔ i ∈ numbers ∧ i < bound := by
  induction increasing with
  | nil => simp
  | @cons first rest least _ ih =>
    by_cases small : first < bound
    · rw [List.takeWhile_cons_of_pos (by simpa using small), List.mem_cons, ih, List.mem_cons]
      constructor
      · rintro (rfl | ⟨mem, lt⟩)
        · exact ⟨.inl rfl, small⟩
        · exact ⟨.inr mem, lt⟩
      · rintro ⟨rfl | mem, lt⟩
        · exact .inl rfl
        · exact .inr ⟨mem, lt⟩
    · rw [List.takeWhile_cons_of_neg (by simpa using small)]
      refine iff_of_false List.not_mem_nil ?_
      rintro ⟨mem, lt⟩
      rcases List.mem_cons.mp mem with rfl | mem
      · exact small lt
      · exact small (Nat.lt_trans (least _ mem) lt)

/-- The list holds exactly the members. -/
theorem mem_toList {set : BitSet} {i : Nat} : i ∈ set.toList ↔ set.contains i = true := by
  rw [toList, mem_takeWhile_lt set.pairwise_setBits, mem_setBits, contains_eq, Bool.and_eq_true,
    decide_eq_true_eq, and_comm]

/-- The list is increasing. -/
theorem pairwise_toList (set : BitSet) : set.toList.Pairwise (· < ·) :=
  set.pairwise_setBits.sublist (List.takeWhile_sublist _)

/-- No bit is set at or beyond the capacity. -/
def IsTrimmed (set : BitSet) : Prop := ∀ i, set.isSet i = true → i < set.capacity

/-- The set without members has no bits at all. -/
theorem isTrimmed_empty (capacity : Nat) : (empty capacity).IsTrimmed := by
  intro i found
  simp only [isSet, empty, Array.getD_eq_getD_getElem?, Array.getElem?_replicate] at found
  split at found <;> simp at found

/-- Insertion sets no bit at or beyond the capacity. -/
theorem IsTrimmed.insert {set : BitSet} (trimmed : set.IsTrimmed) (i : Nat) :
    (set.insert i).2.IsTrimmed := by
  intro j found
  rw [capacity_insert]
  rw [isSet_insert, Bool.or_eq_true, decide_eq_true_eq] at found
  rcases found with ⟨rfl, lt⟩ | before
  · exact lt
  · exact trimmed j before

/-- However many numbers are inserted, no bit is set at or beyond the capacity. -/
theorem isTrimmed_ofList (capacity : Nat) (members : List Nat) :
    (ofList capacity members).IsTrimmed := by
  induction members using List.reverseRecOn with
  | nil => exact isTrimmed_empty capacity
  | append_singleton before member ih =>
    rw [ofList_concat]
    exact ih.insert member

/-- Without bits beyond the capacity, the list has as many numbers as the words count. -/
theorem IsTrimmed.length_toList {set : BitSet} (trimmed : set.IsTrimmed) :
    set.toList.length = set.count := by
  have whole : set.toList = set.setBits := by
    refine List.takeWhile_eq_self_iff.mpr fun i mem ↦ ?_
    exact decide_eq_true (trimmed i (mem_setBits.mp mem))
  rw [whole, length_setBits]

/-- Whatever was inserted into a fresh set, a further insertion tells whether its number is below
the capacity and new; the members are the numbers inserted that are below the capacity; they are
listed in increasing order, and as many as the words count; and no bit is set at or beyond the
capacity. -/
theorem insertions_refine (capacity : Nat) (inserted : List Nat) :
    (∀ i, ((ofList capacity inserted).insert i).1 = true ↔ i < capacity ∧ i ∉ inserted) ∧
      (∀ i, (ofList capacity inserted).contains i = true ↔ i < capacity ∧ i ∈ inserted) ∧
      (ofList capacity inserted).toList.Pairwise (· < ·) ∧
      (∀ i, i ∈ (ofList capacity inserted).toList ↔ i < capacity ∧ i ∈ inserted) ∧
      (ofList capacity inserted).count = (ofList capacity inserted).toList.length ∧
      ∀ i, (ofList capacity inserted).isSet i = true → i < capacity := by
  have trimmed := isTrimmed_ofList capacity inserted
  have members (i : Nat) :
      (ofList capacity inserted).contains i = true ↔ i < capacity ∧ i ∈ inserted :=
    contains_ofList.trans and_comm
  refine ⟨fun i ↦ ?_, members, pairwise_toList _, fun i ↦ mem_toList.trans (members i),
    trimmed.length_toList.symm, fun i found ↦ ?_⟩
  · rw [insert_fst, capacity_ofList, Bool.and_eq_true, decide_eq_true_eq, Bool.not_eq_true',
      ← Bool.not_eq_true, members]
    exact and_congr_right fun lt ↦ not_congr (and_iff_right lt)
  · exact capacity_ofList capacity inserted ▸ trimmed i found

/-- A capacity just above a word: the numbers beyond it leave no trace in the last word. -/
example : let set := ofList 65 [64, 0, 65, 63, 127, 64]
    set.toList = [0, 63, 64] ∧ set.count = 3 := by decide

end BitSet
end ProtectedRegions
