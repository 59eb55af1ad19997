import Mathlib.Data.List.Nodup

/-!
# Look-up in a list of pairs

A key is found if a pair has it. Where no key is repeated, it is found with the value of its pair.
-/

namespace ProtectedRegions

variable {κ β : Type} [BEq κ] [LawfulBEq κ] {key : κ} {pairs : List (κ × β)}

/-- A key that no pair has is not found. -/
theorem lookup_eq_none : pairs.lookup key = none ↔ key ∉ pairs.map (·.1) := by
  rw [List.lookup_eq_none_iff, List.mem_map]
  simp only [bne_iff_ne, not_exists, not_and, ne_comm, ne_eq]

/-- Among keys without repetition each is found with the value of its pair. -/
theorem lookup_eq_some {value : β} (nodup : (pairs.map (·.1)).Nodup) :
    pairs.lookup key = some value ↔ (key, value) ∈ pairs := by
  rw [List.lookup_eq_some_iff]
  constructor
  · rintro ⟨before, after, rfl, -⟩
    exact List.mem_append_right _ List.mem_cons_self
  · intro mem
    obtain ⟨before, after, rfl⟩ := List.append_of_mem mem
    refine ⟨before, after, rfl, fun pair listed ↦ ?_⟩
    rw [List.map_append, List.nodup_append] at nodup
    rw [bne_iff_ne]
    exact (nodup.2.2 _ (List.mem_map_of_mem listed) _ List.mem_cons_self).symm

/-- A key whose pairs all have one value is found with that value. -/
theorem lookup_of_unique {value : β} (listed : key ∈ pairs.map (·.1))
    (unique : ∀ other, (key, other) ∈ pairs → other = value) : pairs.lookup key = some value := by
  cases found : pairs.lookup key with
  | none => exact (lookup_eq_none.mp found listed).elim
  | some other =>
    obtain ⟨before, after, rfl, -⟩ := List.lookup_eq_some_iff.mp found
    rw [unique other (List.mem_append_right _ List.mem_cons_self)]

end ProtectedRegions
