import ProtectedRegions.Proofs.Code.Tokens

/-!
# Guards and offsets

A region is bound to a part of the code by its brackets, and to a range of offsets by its span.
For instructions the two agree: the span of a guard covers an instruction exactly if the guard
lies around it. A label may also stand at the end of the span of a guard around it, or at the
start of the span of a guard behind it.
-/

namespace ProtectedRegions

/-- Whether a guard spans a part of what another one does. -/
def Guard.Within (guard outer : Guard) : Prop :=
  outer.span.start ≤ guard.span.start ∧ guard.span.stop ≤ outer.span.stop

namespace Code

variable {code : Code} {place : Place}

/-- The guards that the regions of code give rise to. -/
def guards : Code → Place → List Guard
  | nothing, _ | note _, _ | instr .., _ | mark _, _ => []
  | append first second, place => first.guards place ++ second.guards (place.after first)
  | statement _ inner, place => inner.guards place
  | region head inner, place =>
    place.guard head inner :: inner.guards (place.within head inner)
  | handled head inner handler, place =>
    place.bodyGuard head inner handler :: place.handlerGuard head inner handler ::
      (inner.guards (place.inBody head inner handler) ++
        handler.guards (place.inHandler head inner handler))

/-- A guard spans a part of its code, and its region has a number of its own. -/
theorem mem_guards_bounds {guard : Guard} (mem : guard ∈ code.guards place) :
    (place.offset ≤ guard.span.start ∧ guard.span.stop ≤ place.offset + code.size) ∧
      place.next ≤ guard.region.id.index ∧
        guard.region.id.index < place.next + code.regionCount := by
  induction code generalizing place with
  | nothing | note | instr | mark => cases mem
  | append first second ihFirst ihSecond =>
    rw [guards, List.mem_append] at mem
    rw [size, regionCount]
    rcases mem with mem | mem
    · have := ihFirst mem
      omega
    · have := ihSecond mem
      simp only [Place.after] at this
      omega
  | statement stmt inner ih => exact ih mem
  | region head inner ih =>
    rw [guards, List.mem_cons] at mem
    rw [size, regionCount]
    rcases mem with rfl | mem
    · simp [Place.guard, Place.region, Span.ofLength]
    · have := ih mem
      simp only [Place.within] at this
      omega
  | handled head inner handler ihInner ihHandler =>
    rw [guards, List.mem_cons, List.mem_cons, List.mem_append] at mem
    rw [size, regionCount]
    rcases mem with rfl | rfl | mem | mem
    · simp only [Place.bodyGuard, Place.handled, Span.ofLength]
      omega
    · simp only [Place.handlerGuard, Place.handled, Span.ofLength]
      omega
    · have := ihInner mem
      simp only [Place.inBody] at this
      omega
    · have := ihHandler mem
      simp only [Place.inHandler] at this
      omega

/-- The guards around a token are those around all of the code with guards of the code inside of
them, each of which spans a part of the next. -/
theorem exists_guards {token : Token} {at' : Place} (mem : (token, at') ∈ code.tokens place) :
    ∃ inner, at'.guards = inner ++ place.guards ∧ inner ⊆ code.guards place ∧
      inner.Pairwise Guard.Within := by
  -- A guard around all of the code that the others are a part of.
  have extend {code : Code} {place : Place} {outer : Guard} {around : List Guard}
      (ih : ∃ inner, at'.guards = inner ++ place.guards ∧ inner ⊆ code.guards place ∧
        inner.Pairwise Guard.Within)
      (guards : place.guards = outer :: around) (first : outer.span.start = place.offset)
      (last : outer.span.stop = place.offset + code.size) {listed : List Guard}
      (own : outer ∈ listed) (subset : code.guards place ⊆ listed) :
      ∃ inner, at'.guards = inner ++ around ∧ inner ⊆ listed ∧
        inner.Pairwise Guard.Within := by
    obtain ⟨inner, same, listed', nested⟩ := ih
    refine ⟨inner ++ [outer], ?_, ?_, ?_⟩
    · rw [same, guards, List.append_assoc]
      rfl
    · rw [List.append_subset]
      exact ⟨List.Subset.trans listed' subset, List.cons_subset.mpr ⟨own, List.nil_subset _⟩⟩
    · rw [List.pairwise_append]
      refine ⟨nested, List.pairwise_singleton _ _, fun guard mem other mem' ↦ ?_⟩
      rw [List.mem_singleton.mp mem']
      have := (mem_guards_bounds (listed' mem)).1
      constructor <;> omega
  induction code generalizing place with
  | nothing | note => cases mem
  | instr | mark =>
    cases List.mem_singleton.mp mem
    exact ⟨[], rfl, List.nil_subset _, .nil⟩
  | append first second ihFirst ihSecond =>
    rw [tokens, List.mem_append] at mem
    rcases mem with mem | mem
    · obtain ⟨inner, same, listed, nested⟩ := ihFirst mem
      exact ⟨inner, same, List.Subset.trans listed (List.subset_append_left _ _), nested⟩
    · obtain ⟨inner, same, listed, nested⟩ := ihSecond mem
      exact ⟨inner, same, List.Subset.trans listed (List.subset_append_right _ _), nested⟩
  | statement stmt inner ih =>
    rw [tokens, List.mem_cons, List.mem_append, List.mem_singleton] at mem
    rcases mem with mem | mem | mem
    · cases mem
      exact ⟨[], rfl, List.nil_subset _, .nil⟩
    · exact ih mem
    · cases mem
      exact ⟨[], rfl, List.nil_subset _, .nil⟩
  | region head inner ih =>
    rw [tokens, List.mem_cons] at mem
    rcases mem with mem | mem
    · cases mem
      exact ⟨[], rfl, List.nil_subset _, .nil⟩
    · exact extend (ih mem) rfl rfl rfl List.mem_cons_self (List.subset_cons_self _ _)
  | handled head inner handler ihInner ihHandler =>
    rw [tokens, List.mem_cons, List.mem_append] at mem
    rcases mem with mem | mem | mem
    · cases mem
      exact ⟨[], rfl, List.nil_subset _, .nil⟩
    · refine extend (ihInner mem) rfl rfl rfl List.mem_cons_self ?_
      exact fun guard mem ↦ List.mem_cons_of_mem _
        (List.mem_cons_of_mem _ (List.mem_append_left _ mem))
    · refine extend (ihHandler mem) rfl rfl rfl (List.mem_cons_of_mem _ List.mem_cons_self) ?_
      exact fun guard mem ↦ List.mem_cons_of_mem _
        (List.mem_cons_of_mem _ (List.mem_append_right _ mem))

/-- The innermost guard around a token spans a part of every other one in the code. -/
theorem within_of_guards {token : Token} {at' : Place} (mem : (token, at') ∈ code.tokens place)
    {innermost guard : Guard} {rest : List Guard} (split : at'.guards = innermost :: rest)
    (around : guard ∈ at'.guards) (inner : guard ∉ place.guards) : innermost.Within guard := by
  obtain ⟨own, same, -, nested⟩ := exists_guards mem
  rw [same] at split around
  have listed := (List.mem_append.mp around).resolve_right inner
  cases own with
  | nil => cases listed
  | cons first later =>
    cases (List.cons.inj split).1
    rcases List.mem_cons.mp listed with rfl | listed
    · exact ⟨Nat.le_refl _, Nat.le_refl _⟩
    · exact (List.pairwise_cons.mp nested).1 guard listed

/-- The guards around a token are around all of the code or belong to it. -/
theorem guards_of_token {token : Token} {at' : Place} {guard : Guard}
    (mem : (token, at') ∈ code.tokens place) (around : guard ∈ at'.guards) :
    guard ∈ place.guards ∨ guard ∈ code.guards place := by
  obtain ⟨inner, same, listed, -⟩ := exists_guards mem
  rw [same, List.mem_append] at around
  exact around.elim (.inr <| listed ·) .inl

end Code

namespace Place

variable {place : Place}

/-- Behind code of a fresh place the next number is fresh. -/
theorem Fresh.after (fresh : place.Fresh) (code : Code) : (place.after code).Fresh :=
  fun guard mem ↦ Nat.lt_of_lt_of_le (fresh guard mem) (Nat.le_add_right _ _)

/-- Inside a region the next number is fresh. -/
theorem Fresh.cons (fresh : place.Fresh) {guard : Guard} {offset next : Nat}
    (own : guard.region.id.index = place.next) (lt : place.next < next) :
    (Place.mk offset next (guard :: place.guards)).Fresh := by
  intro other mem
  rcases List.mem_cons.mp mem with rfl | mem
  · exact own ▸ lt
  · exact Nat.lt_trans (fresh other mem) lt

theorem Fresh.within (fresh : place.Fresh) (head : RegionHead) (inner : Code) :
    (place.within head inner).Fresh :=
  fresh.cons rfl (Nat.lt_succ_self _)

theorem Fresh.inBody (fresh : place.Fresh) (head : RegionHead) (inner handler : Code) :
    (place.inBody head inner handler).Fresh :=
  fresh.cons rfl (Nat.lt_succ_self _)

theorem Fresh.inHandler (fresh : place.Fresh) (head : RegionHead) (inner handler : Code) :
    (place.inHandler head inner handler).Fresh :=
  fresh.cons rfl (by omega)

end Place

namespace Code

variable {code : Code} {place : Place}

/-- A guard behind the code is not around its tokens. -/
theorem not_mem_guards_of_le (fresh : place.Fresh) {token : Token} {at' : Place} {guard : Guard}
    (mem : (token, at') ∈ code.tokens place)
    (later : place.next + code.regionCount ≤ guard.region.id.index) : guard ∉ at'.guards := by
  intro around
  rcases guards_of_token mem around with outer | inner
  · have := fresh guard outer
    omega
  · have := mem_guards_bounds inner
    omega

/-- A guard of code with a number below that of its first region is not around its tokens,
unless it is around all of it. -/
theorem not_mem_guards_of_lt {token : Token} {at' : Place} {guard : Guard}
    (mem : (token, at') ∈ code.tokens place) (outside : guard ∉ place.guards)
    (earlier : guard.region.id.index < place.next) : guard ∉ at'.guards := by
  intro around
  rcases guards_of_token mem around with outer | inner
  · exact outside outer
  · have := mem_guards_bounds inner
    omega

/-- What lies around all of the code is older than its guards. -/
theorem not_mem_of_fresh (fresh : place.Fresh) {guard : Guard}
    (listed : guard ∈ code.guards place) : guard ∉ place.guards := by
  intro outer
  have := fresh guard outer
  have := mem_guards_bounds listed
  omega

section Apart

variable {first second inner handler : Code} {head : RegionHead} {token : Token} {at' : Place}
  {guard : Guard}

/-- Guards of what follows are not around the tokens before it. -/
theorem not_mem_guards_of_first (fresh : place.Fresh)
    (mem : (token, at') ∈ first.tokens place)
    (listed : guard ∈ second.guards (place.after first)) : guard ∉ at'.guards :=
  not_mem_guards_of_le fresh mem (mem_guards_bounds listed).2.1

/-- Guards of what comes before are not around the tokens that follow it. -/
theorem not_mem_guards_of_second (fresh : place.Fresh)
    (mem : (token, at') ∈ second.tokens (place.after first))
    (listed : guard ∈ first.guards place) : guard ∉ at'.guards :=
  not_mem_guards_of_lt mem (not_mem_of_fresh fresh listed) (mem_guards_bounds listed).2.2

/-- Of the guards of a region with a handler, only the one added around its body, or around its
handler, lies around all of that part. -/
theorem not_mem_cons_of_handled (fresh : place.Fresh)
    (listed : guard ∈ (handled head inner handler).guards place) {other : Guard}
    (apart : guard ≠ other) : guard ∉ other :: place.guards := by
  rw [List.mem_cons, not_or]
  exact ⟨apart, not_mem_of_fresh fresh listed⟩

/-- A handler does not lie around what it handles. -/
theorem handlerGuard_not_mem (fresh : place.Fresh)
    (mem : (token, at') ∈ inner.tokens (place.inBody head inner handler)) :
    place.handlerGuard head inner handler ∉ at'.guards := by
  have own : place.handlerGuard head inner handler ∈ (handled head inner handler).guards place :=
    List.mem_cons_of_mem _ List.mem_cons_self
  refine not_mem_guards_of_lt mem (not_mem_cons_of_handled fresh own fun same ↦ ?_)
    (Nat.lt_succ_self _)
  cases congrArg Guard.part same

/-- What a handler handles does not lie around the handler. -/
theorem bodyGuard_not_mem (fresh : place.Fresh)
    (mem : (token, at') ∈ handler.tokens (place.inHandler head inner handler)) :
    place.bodyGuard head inner handler ∉ at'.guards := by
  have own : place.bodyGuard head inner handler ∈ (handled head inner handler).guards place :=
    List.mem_cons_self
  refine not_mem_guards_of_lt mem (not_mem_cons_of_handled fresh own fun same ↦ ?_) ?_
  · cases congrArg Guard.part same
  · simp only [Place.bodyGuard, Place.handled, Place.inHandler]
    omega

/-- Guards inside of a handler are not around what it handles. -/
theorem not_mem_guards_of_inBody (fresh : place.Fresh)
    (mem : (token, at') ∈ inner.tokens (place.inBody head inner handler))
    (listed : guard ∈ handler.guards (place.inHandler head inner handler)) :
    guard ∉ at'.guards :=
  not_mem_guards_of_le (fresh.inBody head inner handler) mem (mem_guards_bounds listed).2.1

/-- Guards inside of what a handler handles are not around the handler. -/
theorem not_mem_guards_of_inHandler (fresh : place.Fresh)
    (mem : (token, at') ∈ handler.tokens (place.inHandler head inner handler))
    (listed : guard ∈ inner.guards (place.inBody head inner handler)) :
    guard ∉ at'.guards := by
  have bounds := mem_guards_bounds listed
  have own : guard ∈ (handled head inner handler).guards place :=
    List.mem_cons_of_mem _ (List.mem_cons_of_mem _ (List.mem_append_left _ listed))
  refine not_mem_guards_of_lt mem (not_mem_cons_of_handled fresh own ?_) bounds.2.2
  rintro rfl
  exact Nat.not_succ_le_self _ bounds.2.1

end Apart

/-- A guard around a token spans it, and any other guard does not. -/
theorem guard_cases (fresh : place.Fresh) {token : Token} {at' : Place} {guard : Guard}
    (mem : (token, at') ∈ code.tokens place) (listed : guard ∈ code.guards place) :
    (guard ∈ at'.guards ∧ guard.span.start ≤ at'.offset ∧
        at'.offset + token.width ≤ guard.span.stop) ∨
      (guard ∉ at'.guards ∧
        (at'.offset + token.width ≤ guard.span.start ∨ guard.span.stop ≤ at'.offset)) := by
  induction code generalizing place with
  | nothing | note | instr | mark => cases listed
  | append first second ihFirst ihSecond =>
    rw [tokens, List.mem_append] at mem
    rw [guards, List.mem_append] at listed
    rcases mem with mem | mem
    · rcases listed with listed | listed
      · exact ihFirst fresh mem listed
      · have before := Nat.le_trans (offset_mem_tokens mem).2 (mem_guards_bounds listed).1.1
        exact .inr ⟨not_mem_guards_of_first fresh mem listed, .inl before⟩
    · rcases listed with listed | listed
      · have behind := Nat.le_trans (mem_guards_bounds listed).1.2 (offset_mem_tokens mem).1
        exact .inr ⟨not_mem_guards_of_second fresh mem listed, .inr behind⟩
      · exact ihSecond (fresh.after first) mem listed
  | statement stmt inner ih =>
    rw [tokens, List.mem_cons, List.mem_append, List.mem_singleton] at mem
    have bounds := @mem_guards_bounds inner place guard listed
    have outside := @not_mem_of_fresh inner place fresh guard listed
    rcases mem with mem | mem | mem
    · cases mem
      exact .inr ⟨outside, .inl bounds.1.1⟩
    · exact ih fresh mem listed
    · cases mem
      exact .inr ⟨outside, .inr bounds.1.2⟩
  | region head inner ih =>
    rw [tokens, List.mem_cons] at mem
    rcases mem with mem | mem
    · cases mem
      exact .inr ⟨not_mem_of_fresh fresh listed, .inl (mem_guards_bounds listed).1.1⟩
    · rw [guards, List.mem_cons] at listed
      have range := offset_mem_tokens mem
      rcases listed with rfl | listed
      · exact .inl ⟨(guards_mem_tokens mem).subset List.mem_cons_self, range⟩
      · exact ih (fresh.within head inner) mem listed
  | handled head inner handler ihInner ihHandler =>
    rw [tokens, List.mem_cons, List.mem_append] at mem
    rcases mem with mem | mem | mem
    · cases mem
      exact .inr ⟨not_mem_of_fresh fresh listed, .inl (mem_guards_bounds listed).1.1⟩
    · have range := offset_mem_tokens mem
      rw [guards, List.mem_cons, List.mem_cons, List.mem_append] at listed
      rcases listed with rfl | rfl | listed | listed
      · exact .inl ⟨(guards_mem_tokens mem).subset List.mem_cons_self, range⟩
      · exact .inr ⟨handlerGuard_not_mem fresh mem, .inl range.2⟩
      · exact ihInner (fresh.inBody head inner handler) mem listed
      · have before := Nat.le_trans range.2 (mem_guards_bounds listed).1.1
        exact .inr ⟨not_mem_guards_of_inBody fresh mem listed, .inl before⟩
    · have range := offset_mem_tokens mem
      rw [guards, List.mem_cons, List.mem_cons, List.mem_append] at listed
      rcases listed with rfl | rfl | listed | listed
      · exact .inr ⟨bodyGuard_not_mem fresh mem, .inr range.1⟩
      · exact .inl ⟨(guards_mem_tokens mem).subset List.mem_cons_self, range⟩
      · have behind := Nat.le_trans (mem_guards_bounds listed).1.2 range.1
        exact .inr ⟨not_mem_guards_of_inHandler fresh mem listed, .inr behind⟩
      · exact ihHandler (fresh.inHandler head inner handler) mem listed

/-- A guard covers exactly the instructions that it lies around. -/
theorem covers_iff_mem_guards (fresh : place.Fresh) {source : StmtId}
    {operation : Instruction LabelKey} {at' : Place} {guard : Guard}
    (mem : (.instr source operation, at') ∈ code.tokens place)
    (listed : guard ∈ code.guards place) :
    guard.span.covers at'.offset = true ↔ guard ∈ at'.guards := by
  have cases' := guard_cases fresh mem listed
  rw [Span.covers_iff]
  simp only [Token.width] at cases'
  constructor
  · intro covered
    rcases cases' with ⟨around, -⟩ | ⟨-, apart⟩
    · exact around
    · omega
  · intro around
    rcases cases' with ⟨-, spans⟩ | ⟨outside, -⟩
    · omega
    · exact absurd around outside

/-- The guards of a region without a handler, and those of one with a handler. -/
theorem guards_of_opens {region : Region} {at' : Place}
    (mem : (.opens region, at') ∈ code.tokens place) :
    (region.handler = none ∧ ⟨region, .whole, region.span⟩ ∈ code.guards place) ∨
      ∃ body handler : Span, region.handler = some handler ∧
        region.span.start = body.start ∧ body.stop = handler.start ∧
        handler.stop = region.span.stop ∧ ⟨region, .body, body⟩ ∈ code.guards place ∧
        ⟨region, .handler, handler⟩ ∈ code.guards place := by
  induction code generalizing place with
  | nothing | note => cases mem
  | instr | mark => cases List.mem_singleton.mp mem
  | append first second ihFirst ihSecond =>
    rw [tokens, List.mem_append] at mem
    simp only [guards, List.mem_append]
    rcases mem with mem | mem
    · have := ihFirst mem
      grind
    · have := ihSecond mem
      grind
  | statement stmt inner ih =>
    rw [tokens, List.mem_cons, List.mem_append, List.mem_singleton] at mem
    rcases mem with mem | mem | mem
    · cases mem
    · exact ih mem
    · cases mem
  | region head inner ih =>
    rw [tokens, List.mem_cons] at mem
    simp only [guards, List.mem_cons]
    rcases mem with mem | mem
    · cases mem
      exact .inl ⟨rfl, .inl rfl⟩
    · have := ih mem
      grind
  | handled head inner handler ihInner ihHandler =>
    rw [tokens, List.mem_cons, List.mem_append] at mem
    simp only [guards, List.mem_cons, List.mem_append]
    rcases mem with mem | mem | mem
    · cases mem
      refine .inr ⟨.ofLength at'.offset inner.size, _, rfl, rfl, rfl, ?_, .inl rfl,
        .inr (.inl rfl)⟩
      simp only [Place.handled, Span.ofLength]
      omega
    · have := ihInner mem
      grind
    · have := ihHandler mem
      grind

/-- Every guard belongs to a region of the code. -/
theorem opens_of_guard {guard : Guard} (mem : guard ∈ code.guards place) :
    ∃ at', (.opens guard.region, at') ∈ code.tokens place := by
  induction code generalizing place with
  | nothing | note | instr | mark => cases mem
  | append first second ihFirst ihSecond =>
    simp only [tokens, List.mem_append]
    rcases List.mem_append.mp mem with mem | mem
    · have := ihFirst mem
      grind
    · have := ihSecond mem
      grind
  | statement stmt inner ih =>
    have := ih mem
    simp only [tokens, List.mem_cons, List.mem_append]
    grind
  | region head inner ih =>
    simp only [tokens, List.mem_cons]
    rcases List.mem_cons.mp mem with rfl | mem
    · exact ⟨place, .inl rfl⟩
    · have := ih mem
      grind
  | handled head inner handler ihInner ihHandler =>
    simp only [tokens, List.mem_cons, List.mem_append]
    rw [guards, List.mem_cons, List.mem_cons, List.mem_append] at mem
    rcases mem with rfl | rfl | mem | mem
    · exact ⟨place, .inl rfl⟩
    · exact ⟨place, .inl rfl⟩
    · have := ihInner mem
      grind
    · have := ihHandler mem
      grind

end Code
end ProtectedRegions
