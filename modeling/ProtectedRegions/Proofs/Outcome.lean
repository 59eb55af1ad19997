import Mathlib.Data.List.Forall2

/-!
# Outcomes of checks

When a chain of checks succeeds: the first of two does and the second then does, every member
of a list passes, every member has a result. Later modules take the checks of a body apart
with these equations.
-/

namespace ProtectedRegions

namespace Outcome

variable {ε α β : Type}

/-- A chain succeeds if its first part and then the rest does. -/
theorem bind_eq_ok {x : Except ε α} {f : α → Except ε β} {b : β} :
    (x >>= f) = .ok b ↔ ∃ a, x = .ok a ∧ f a = .ok b := by
  cases x with
  | error e => simp [bind, Except.bind]
  | ok a => simp [bind, Except.bind]

/-- A chain fails if its first part or, after it, the rest does. -/
theorem bind_eq_error {x : Except ε α} {f : α → Except ε β} {error : ε} :
    (x >>= f) = .error error ↔ x = .error error ∨ ∃ a, x = .ok a ∧ f a = .error error := by
  cases x with
  | error e => simp [bind, Except.bind]
  | ok a => simp [bind, Except.bind]

/-- What is given back is the result. -/
theorem pure_eq_ok {a b : α} : (pure a : Except ε α) = .ok b ↔ a = b := by
  simp [pure, Except.pure]

/-- A check of a list succeeds if it succeeds at every member. -/
theorem forM_eq_ok {xs : List α} {f : α → Except ε Unit} :
    xs.forM f = .ok () ↔ ∀ x ∈ xs, f x = .ok () := by
  induction xs with
  | nil => simp [pure, Except.pure]
  | cons x rest ih =>
    change (f x >>= fun _ ↦ rest.forM f) = .ok () ↔ _
    rw [bind_eq_ok, List.forall_mem_cons]
    constructor
    · rintro ⟨⟨⟩, hx, hrest⟩
      exact ⟨hx, ih.mp hrest⟩
    · rintro ⟨hx, hrest⟩
      exact ⟨(), hx, ih.mpr hrest⟩

/-- A list has results if each member has one. -/
theorem mapM_eq_ok {xs : List α} {f : α → Except ε β} {ys : List β} :
    xs.mapM f = .ok ys ↔ List.Forall₂ (fun x y ↦ f x = .ok y) xs ys := by
  induction xs generalizing ys with
  | nil => simp [pure, Except.pure, eq_comm]
  | cons x rest ih =>
    rw [List.mapM_cons, bind_eq_ok]
    simp only [bind_eq_ok, pure_eq_ok, ih]
    constructor
    · rintro ⟨y, hy, later, hlater, rfl⟩
      exact .cons hy hlater
    · rintro (_ | ⟨hy, hlater⟩)
      exact ⟨_, hy, _, hlater, rfl⟩

/-- A list has results if and only if no member fails. -/
theorem exists_mapM_eq_ok {xs : List α} {f : α → Except ε β} :
    (∃ ys, xs.mapM f = .ok ys) ↔ ∀ x ∈ xs, ∃ y, f x = .ok y := by
  induction xs with
  | nil => simp [pure, Except.pure]
  | cons x rest ih =>
    rw [List.forall_mem_cons, ← ih]
    simp only [List.mapM_cons, bind_eq_ok, pure_eq_ok]
    constructor
    · rintro ⟨_, y, first, later, rest, -⟩
      exact ⟨⟨y, first⟩, later, rest⟩
    · rintro ⟨⟨y, first⟩, later, rest⟩
      exact ⟨_, y, first, later, rest, rfl⟩

/-- A list has no results if the first member that has none fails. -/
theorem mapM_eq_error {xs : List α} {f : α → Except ε β} {error : ε} :
    xs.mapM f = .error error ↔ ∃ before x after, xs = before ++ x :: after ∧
      (∀ y ∈ before, ∃ b, f y = .ok b) ∧ f x = .error error := by
  induction xs with
  | nil => simp [pure, Except.pure]
  | cons x rest ih =>
    have later : (∃ y, f x = .ok y ∧ (rest.mapM f >>= fun ys ↦ pure (y :: ys)) = .error error) ↔
        (∃ y, f x = .ok y) ∧ rest.mapM f = .error error := by
      simp [bind_eq_error, pure, Except.pure]
    rw [List.mapM_cons, bind_eq_error, later, ih]
    constructor
    · rintro (failed | ⟨first, before, y, after, rfl, passed, failed⟩)
      · exact ⟨[], x, rest, rfl, by simp, failed⟩
      · exact ⟨x :: before, y, after, rfl, List.forall_mem_cons.mpr ⟨first, passed⟩, failed⟩
    · rintro ⟨before, y, after, split, passed, failed⟩
      cases before with
      | nil =>
        cases split
        exact .inl failed
      | cons first before =>
        cases split
        rw [List.forall_mem_cons] at passed
        exact .inr ⟨passed.1, before, y, after, rfl, passed.2, failed⟩

/-- Where a list has no results, a member has failed. -/
theorem exists_of_mapM_eq_error {xs : List α} {f : α → Except ε β} {error : ε}
    (failed : xs.mapM f = .error error) : ∃ x ∈ xs, f x = .error error := by
  obtain ⟨before, x, after, rfl, -, failed⟩ := mapM_eq_error.mp failed
  exact ⟨x, List.mem_append_right _ List.mem_cons_self, failed⟩

end Outcome
end ProtectedRegions
