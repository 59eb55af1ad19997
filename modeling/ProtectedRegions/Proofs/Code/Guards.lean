import ProtectedRegions.Proofs.Code.Neighbours

/-!
# Guards in order

The guards around a token are those of the guards of the code that lie around it, from the last of
them to the first, and what is read off the regions of the code can be read off its guards.
-/

namespace ProtectedRegions
namespace Code

variable {code : Code} {place : Place}

section Filter

variable {around listed rest : List Guard} {guard : Guard}

private theorem filter_outside (outside : ∀ guard ∈ listed, guard ∉ around) :
    listed.filter (· ∈ around) = [] :=
  List.filter_eq_nil_iff.mpr fun guard mem ↦ by simpa using outside guard mem

private theorem filter_cons_mem (mem : guard ∈ around) :
    (guard :: rest).filter (· ∈ around) = guard :: rest.filter (· ∈ around) :=
  List.filter_cons_of_pos (decide_eq_true mem)

private theorem filter_cons_not_mem (mem : guard ∉ around) :
    (guard :: rest).filter (· ∈ around) = rest.filter (· ∈ around) :=
  List.filter_cons_of_neg (by simpa using mem)

end Filter

/-- The guards around a token are those of the code that lie around it, innermost first, and those
around all of the code. -/
theorem guards_eq_filter (fresh : place.Fresh) {token : Token} {at' : Place}
    (mem : (token, at') ∈ code.tokens place) :
    at'.guards = ((code.guards place).filter (· ∈ at'.guards)).reverse ++ place.guards := by
  induction code generalizing place with
  | nothing | note => cases mem
  | instr | mark =>
    cases List.mem_singleton.mp mem
    rfl
  | append first second ihFirst ihSecond =>
    rw [guards, List.filter_append]
    rcases List.mem_append.mp mem with mem | mem
    · have later : ∀ guard ∈ second.guards (place.after first), guard ∉ at'.guards :=
        fun guard ↦ not_mem_guards_of_first fresh mem
      rw [filter_outside later, List.append_nil]
      exact ihFirst fresh mem
    · rw [filter_outside fun guard ↦ not_mem_guards_of_second fresh mem, List.nil_append]
      exact ihSecond (fresh.after first) mem
  | statement stmt inner ih =>
    have own := filter_outside fun guard ↦ @not_mem_of_fresh inner place fresh guard
    rw [tokens, List.mem_cons, List.mem_append, List.mem_singleton] at mem
    rcases mem with mem | mem | mem
    · cases mem
      rw [guards, own]
      rfl
    · exact ih fresh mem
    · cases mem
      rw [guards]
      exact (congrArg (·.reverse ++ place.guards) own).symm
  | region head inner ih =>
    have own := filter_outside fun guard ↦ @not_mem_of_fresh (.region head inner) place fresh guard
    rcases List.mem_cons.mp mem with mem | mem
    · cases mem
      rw [own]
      rfl
    · have same := ih (fresh.within head inner) mem
      have around : place.guard head inner ∈ at'.guards :=
        (guards_mem_tokens mem).subset List.mem_cons_self
      rw [guards, filter_cons_mem around, List.reverse_cons, List.append_assoc]
      exact same
  | handled head inner handler ihInner ihHandler =>
    have own := filter_outside fun guard ↦
      @not_mem_of_fresh (.handled head inner handler) place fresh guard
    rw [guards]
    rcases List.mem_cons.mp mem with mem | mem
    · cases mem
      rw [guards] at own
      rw [own]
      rfl
    rcases List.mem_append.mp mem with mem | mem
    · have same := ihInner (fresh.inBody head inner handler) mem
      have around : place.bodyGuard head inner handler ∈ at'.guards :=
        (guards_mem_tokens mem).subset List.mem_cons_self
      rw [filter_cons_mem around, filter_cons_not_mem (handlerGuard_not_mem fresh mem),
        List.filter_append, filter_outside fun guard ↦ not_mem_guards_of_inBody fresh mem,
        List.append_nil, List.reverse_cons, List.append_assoc]
      exact same
    · have same := ihHandler (fresh.inHandler head inner handler) mem
      have around : place.handlerGuard head inner handler ∈ at'.guards :=
        (guards_mem_tokens mem).subset List.mem_cons_self
      rw [filter_cons_not_mem (bodyGuard_not_mem fresh mem), filter_cons_mem around,
        List.filter_append, filter_outside fun guard ↦ not_mem_guards_of_inHandler fresh mem,
        List.nil_append, List.reverse_cons, List.append_assoc]
      exact same

/-- What the handler of a region protects is one guard. -/
theorem body_unique (formed : code.Formed) {guard guard' : Guard}
    (listed : guard ∈ code.guards place) (listed' : guard' ∈ code.guards place)
    (body : guard.part = .body) (body' : guard'.part = .body)
    (same : guard.region = guard'.region) : guard = guard' := by
  obtain ⟨-, spans⟩ := region_of_guard formed listed
  obtain ⟨-, spans'⟩ := region_of_guard formed listed'
  rw [body] at spans
  rw [body'] at spans'
  obtain ⟨-, first, handler, found, last⟩ := spans
  obtain ⟨-, first', handler', found', last'⟩ := spans'
  rw [← same] at first' found'
  cases found.symm.trans found'
  have spans : guard.span = guard'.span := by
    ext
    · exact first.symm.trans first'
    · exact last.symm.trans last'
  cases guard
  cases guard'
  cases same
  cases spans
  cases body
  cases body'
  rfl

/-- What is read off the regions with a handler is read off the guards of what they protect. -/
theorem filterMap_regions {α : Type} {ofRegion : Region → Option α} {ofGuard : Guard → Option α}
    (body : ∀ guard ∈ code.guards place, guard.part = .body →
      ofGuard guard = ofRegion guard.region)
    (other : ∀ guard ∈ code.guards place, guard.part ≠ .body → ofGuard guard = none)
    (whole : ∀ guard ∈ code.guards place, guard.part = .whole → ofRegion guard.region = none) :
    (code.regions place.offset place.next place.parent).filterMap ofRegion =
      (code.guards place).filterMap ofGuard := by
  induction code generalizing place with
  | nothing | note | instr | mark => rfl
  | append first second ihFirst ihSecond =>
    rw [regions, guards, List.filterMap_append, List.filterMap_append]
    rw [guards] at body other whole
    simp only [List.forall_mem_append] at body other whole
    exact congrArg₂ _ (ihFirst body.1 other.1 whole.1) (ihSecond body.2 other.2 whole.2)
  | statement stmt inner ih => exact ih body other whole
  | region head inner ih =>
    rw [guards] at body other whole ⊢
    simp only [List.forall_mem_cons] at body other whole
    have plain : ofRegion (place.region head inner) = none := whole.1 rfl
    change (place.region head inner :: inner.regions _ _ _).filterMap ofRegion = _
    rw [List.filterMap_cons_none (other.1 (by simp [Place.guard])), List.filterMap_cons_none plain]
    exact ih body.2 other.2 whole.2
  | handled head inner handler ihInner ihHandler =>
    rw [guards] at body other whole ⊢
    simp only [List.forall_mem_cons, List.forall_mem_append] at body other whole
    have first := ihInner body.2.2.1 other.2.2.1 whole.2.2.1
    have second := ihHandler body.2.2.2 other.2.2.2 whole.2.2.2
    change (place.handled head inner handler :: (inner.regions _ _ _ ++
      handler.regions _ _ _)).filterMap ofRegion = _
    rw [List.filterMap_cons, List.filterMap_cons,
      List.filterMap_cons_none (other.2.1 (by simp [Place.handlerGuard])), body.1 rfl,
      List.filterMap_append, List.filterMap_append, ← first, ← second]
    rfl

end Code
end ProtectedRegions
