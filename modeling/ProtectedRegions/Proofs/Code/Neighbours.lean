import ProtectedRegions.Proofs.Code.Cover
import ProtectedRegions.Proofs.Code.Formed

/-!
# What stands before a handler

Handlers, filters and catch handlers are entered by an exception only. In well formed code each of
them starts where the part before it stops, and a label at that offset that does not stand in it
stands at the end of the part before.
-/

namespace ProtectedRegions

attribute [ext] Span

/-- Whether control enters what a guard spans by an exception only. -/
def Guard.isShut (guard : Guard) : Bool :=
  match guard.part with
  | .whole => !guard.region.kind.isFree
  | .body => false
  | .handler => true

/-- A region with a handler is entered like any other code. -/
theorem isFree_of_hasHandler {kind : RegionKind} (h : kind.hasHandler = true) :
    kind.isFree = true := by
  cases kind with
  | finallyBlock | faultBlock => rfl
  | _ => cases h

namespace Code

variable {code : Code} {place : Place}

/-- The first of touching regions, and the rest. -/
theorem Touching.uncons {first last : Nat} {region : Region} {rest : List Region}
    (h : Touching first last (region :: rest)) :
    region.span.start = first ∧ Touching region.span.stop last rest := by
  cases h with
  | cons start later => exact ⟨start, later⟩

/-- Touching regions start behind the first offset. -/
theorem Touching.le_start {first last : Nat} {regions : List Region}
    (h : Touching first last regions) {region : Region} (mem : region ∈ regions) :
    first ≤ region.span.start := by
  induction h with
  | nil => cases mem
  | @cons first last other rest start later ih =>
    rw [List.mem_cons] at mem
    cases mem with
    | inl same => rw [same, start]
    | inr mem =>
      have := ih mem
      have := other.span.start_le_stop
      omega

/-- What a guard of well formed code spans of its region. -/
theorem region_of_guard (formed : code.Formed) {guard : Guard} (mem : guard ∈ code.guards place) :
    guard.region.kind ≠ .method ∧
      match guard.part with
      | .whole => guard.region.kind.hasHandler = false ∧ guard.region.handler = none ∧
        guard.span = guard.region.span
      | .body => guard.region.kind.hasHandler = true ∧
        guard.region.span.start = guard.span.start ∧
          ∃ handler, guard.region.handler = some handler ∧ handler.start = guard.span.stop
      | .handler => guard.region.kind.hasHandler = true ∧
        guard.region.handler = some guard.span := by
  have notMethod {kind : RegionKind} (h : kind.hasHandler = true) : kind ≠ .method := by
    rintro rfl
    cases h
  induction code generalizing place with
  | nothing | note | instr | mark => cases mem
  | append first second ihFirst ihSecond =>
    rw [guards, List.mem_append] at mem
    cases mem with
    | inl mem => exact ihFirst formed.1 mem
    | inr mem => exact ihSecond formed.2 mem
  | statement stmt inner ih => exact ih formed mem
  | region head inner ih =>
    rw [guards, List.mem_cons] at mem
    cases mem with
    | inl same =>
      rw [same]
      exact ⟨formed.2.2.2.1, formed.2.2.1, rfl, rfl⟩
    | inr mem => exact ih formed.2.1 mem
  | handled head inner handler ihInner ihHandler =>
    rw [guards, List.mem_cons, List.mem_cons, List.mem_append] at mem
    have kind := formed.2.2.2.2.1
    rcases mem with same | same | mem | mem
    · rw [same]
      exact ⟨notMethod kind, kind, rfl, _, rfl, rfl⟩
    · rw [same]
      exact ⟨notMethod kind, kind, rfl⟩
    · exact ihInner formed.1 mem
    · exact ihHandler formed.2.1 mem

/-- No guard of well formed code is empty. -/
theorem lt_of_guard (formed : code.Formed) {guard : Guard} (mem : guard ∈ code.guards place) :
    guard.span.start < guard.span.stop := by
  induction code generalizing place with
  | nothing | note | instr | mark => cases mem
  | append first second ihFirst ihSecond =>
    rw [guards, List.mem_append] at mem
    cases mem with
    | inl mem => exact ihFirst formed.1 mem
    | inr mem => exact ihSecond formed.2 mem
  | statement stmt inner ih => exact ih formed mem
  | region head inner ih =>
    rw [guards, List.mem_cons] at mem
    cases mem with
    | inl same =>
      rw [same]
      exact Nat.lt_add_of_pos_right formed.1
    | inr mem => exact ih formed.2.1 mem
  | handled head inner handler ihInner ihHandler =>
    rw [guards, List.mem_cons, List.mem_cons, List.mem_append] at mem
    rcases mem with same | same | mem | mem
    · rw [same]
      exact Nat.lt_add_of_pos_right formed.2.2.1
    · rw [same]
      exact Nat.lt_add_of_pos_right formed.2.2.2.1
    · exact ihInner formed.1 mem
    · exact ihHandler formed.2.1 mem

/-- A label in code that is made of regions only stands in one of them. -/
private theorem guarded_of_bare (bare : code.isBare = true) {label : LabelKey} {at' : Place}
    (mem : (.mark label, at') ∈ code.tokens place) :
    ∃ guard ∈ at'.guards, guard ∈ code.guards place ∧ at'.offset ≤ guard.span.stop := by
  induction code generalizing place with
  | nothing | note => cases mem
  | instr | mark | statement => cases bare
  | append first second ihFirst ihSecond =>
    rw [isBare, Bool.and_eq_true] at bare
    rw [tokens, List.mem_append] at mem
    cases mem with
    | inl mem =>
      obtain ⟨guard, around, listed, le⟩ := ihFirst bare.1 mem
      exact ⟨guard, around, List.mem_append_left _ listed, le⟩
    | inr mem =>
      obtain ⟨guard, around, listed, le⟩ := ihSecond bare.2 mem
      exact ⟨guard, around, List.mem_append_right _ listed, le⟩
  | region head inner =>
    rw [tokens, List.mem_cons] at mem
    cases mem with
    | inl same => cases same
    | inr mem =>
      exact ⟨_, (guards_mem_tokens mem).subset List.mem_cons_self, List.mem_cons_self,
        (offset_mem_tokens mem).2⟩
  | handled head inner handler =>
    rw [tokens, List.mem_cons, List.mem_append] at mem
    rcases mem with same | mem | mem
    · cases same
    · exact ⟨_, (guards_mem_tokens mem).subset List.mem_cons_self, List.mem_cons_self,
        (offset_mem_tokens mem).2⟩
    · exact ⟨_, (guards_mem_tokens mem).subset List.mem_cons_self,
        List.mem_cons_of_mem _ List.mem_cons_self, (offset_mem_tokens mem).2⟩

/-- The head of an outermost region is one of the outermost heads. -/
private theorem mem_tops {region : Region} (top : region ∈ code.topRegions place) :
    region.toRegionHead ∈ code.tops := by
  rw [← map_topRegions code place]
  exact List.mem_map_of_mem top

/-- The guard of a region that holds no handler. -/
def wholeOf (region : Region) : Guard := ⟨region, .whole, region.span⟩

/-- A region that is entered by an exception only. -/
private theorem closed_of_shut {region : Region} (shut : (wholeOf region).isShut = true) :
    region.kind.isFree = false := by
  simpa [Guard.isShut, wholeOf] using shut

/-- What a region with a handler protects is no clause. -/
private theorem not_closed_of_inner {head : RegionHead} {inner handler : Code}
    (formed : (handled head inner handler).Formed) {region : Region}
    (top : region ∈ inner.topRegions place) : region.kind.isFree ≠ false := by
  obtain ⟨only, tops, kind⟩ := formed.2.2.2.2.2.2.1
  have listed := mem_tops top
  rw [tops, List.mem_singleton] at listed
  rw [show region.kind = _ from congrArg RegionHead.kind listed, kind]
  simp [RegionKind.isFree]

/-- No outermost region of a handler is a clause. -/
private theorem not_closed_of_handler {head : RegionHead} {inner handler : Code}
    (formed : (handled head inner handler).Formed) {region : Region}
    (top : region ∈ handler.topRegions place) : region.kind.isFree ≠ false := by
  rw [formed.2.2.2.2.2.2.2 _ (mem_tops top)]
  simp

/-- The outermost regions lie in the code and are not empty. -/
private theorem bounds_of_top (formed : code.Formed) {region : Region}
    (mem : region ∈ code.topRegions place) :
    place.offset ≤ region.span.start ∧ region.span.start < region.span.stop ∧
      region.span.stop ≤ place.offset + code.size := by
  induction code generalizing place with
  | nothing | note | instr | mark => cases mem
  | append first second ihFirst ihSecond =>
    rw [topRegions, List.mem_append] at mem
    rw [size]
    cases mem with
    | inl mem =>
      have := ihFirst formed.1 mem
      omega
    | inr mem =>
      have : place.offset + first.size ≤ region.span.start ∧
          region.span.start < region.span.stop ∧
            region.span.stop ≤ place.offset + first.size + second.size := ihSecond formed.2 mem
      omega
  | statement stmt inner ih => exact ih formed mem
  | region head inner =>
    cases List.mem_singleton.mp mem
    exact ⟨Nat.le_refl _, Nat.lt_add_of_pos_right formed.1, Nat.le_refl _⟩
  | handled head inner handler =>
    cases List.mem_singleton.mp mem
    have := formed.2.2.1
    refine ⟨Nat.le_refl _, ?_, Nat.le_refl _⟩
    show place.offset < place.offset + (inner.size + handler.size)
    omega

/-- In code that is made of regions only, a label at the start of a region stands in it or at the
end of the part before. -/
private theorem left_of_bare (bare : code.isBare = true) (formed : code.Formed)
    {label : LabelKey} {at' : Place} (mem : (.mark label, at') ∈ code.tokens place)
    {region : Region} (top : region ∈ code.topRegions place)
    (shut : region.kind.isFree = false) (start : region.span.start = at'.offset) :
    wholeOf region ∈ at'.guards ∨
      ∃ guard ∈ at'.guards, guard ∈ code.guards place ∧ guard.span.stop = at'.offset := by
  induction code generalizing place with
  | nothing | note => cases mem
  | instr | mark | statement => cases bare
  | append first second ihFirst ihSecond =>
    rw [isBare, Bool.and_eq_true] at bare
    rw [tokens, List.mem_append] at mem
    rw [topRegions, List.mem_append] at top
    cases mem with
    | inl mem =>
      have before : at'.offset ≤ place.offset + first.size := (offset_mem_tokens mem).2
      cases top with
      | inl top =>
        rcases ihFirst bare.1 formed.1 mem top with within | ⟨guard, around, listed, stop⟩
        · exact .inl within
        · exact .inr ⟨guard, around, List.mem_append_left _ listed, stop⟩
      | inr top =>
        -- The label stands at the end of the first part, so at the end of one of its regions.
        have behind : place.offset + first.size ≤ region.span.start ∧ _ :=
          bounds_of_top formed.2 top
        obtain ⟨guard, around, listed, le⟩ := guarded_of_bare bare.1 mem
        have bounds := (mem_guards_bounds listed).1
        refine .inr ⟨guard, around, List.mem_append_left _ listed, ?_⟩
        omega
    | inr mem =>
      have behind : place.offset + first.size ≤ at'.offset := (offset_mem_tokens mem).1
      cases top with
      | inl top =>
        have before := bounds_of_top formed.1 top
        omega
      | inr top =>
        rcases ihSecond bare.2 formed.2 mem top with within | ⟨guard, around, listed, stop⟩
        · exact .inl within
        · exact .inr ⟨guard, around, List.mem_append_right _ listed, stop⟩
  | region head inner =>
    cases List.mem_singleton.mp top
    rw [tokens, List.mem_cons] at mem
    cases mem with
    | inl same => cases same
    | inr mem => exact .inl ((guards_mem_tokens mem).subset List.mem_cons_self)
  | handled head inner handler =>
    cases List.mem_singleton.mp top
    have kind : head.kind.hasHandler = true := formed.2.2.2.2.1
    have free : head.kind.isFree = false := shut
    rw [isFree_of_hasHandler kind] at free
    cases free

/-- A clause of a group stands behind the body of the group. -/
private theorem late_in_group (formed : code.Formed) (bare : code.isBare = true)
    (group : Group code.tops) {region : Region} (top : region ∈ code.topRegions place)
    (closed : region.kind.isFree = false) : place.offset < region.span.start := by
  have touching := touching_topRegions code place bare
  rw [← map_topRegions code place] at group
  have bounds {region : Region} (top : region ∈ code.topRegions place) := bounds_of_top formed top
  generalize code.topRegions place = regions at touching group top bounds
  cases regions with
  | nil => cases top
  | cons body rest =>
    cases group with
    | mk free clauses =>
      rw [List.mem_cons] at top
      cases top with
      | inl same =>
        rw [same] at closed
        exact absurd closed (by rw [free]; nofun)
      | inr top =>
        obtain ⟨start, later⟩ := touching.uncons
        have filled := (bounds List.mem_cons_self).2.1
        have behind := later.le_start top
        omega

/-- What is entered by an exception only starts behind the start of the code, unless it is one of
the outermost regions. -/
private theorem late_of_shut (formed : code.Formed) {gate : Guard}
    (listed : gate ∈ code.guards place) (shut : gate.isShut = true) :
    place.offset < gate.span.start ∨ ∃ region ∈ code.topRegions place, gate = wholeOf region := by
  induction code generalizing place with
  | nothing | note | instr | mark => cases listed
  | append first second ihFirst ihSecond =>
    rw [guards, List.mem_append] at listed
    cases listed with
    | inl listed =>
      rcases ihFirst formed.1 listed with late | ⟨region, top, same⟩
      · exact .inl late
      · exact .inr ⟨region, List.mem_append_left _ top, same⟩
    | inr listed =>
      rcases ihSecond formed.2 listed with late | ⟨region, top, same⟩
      · exact .inl (Nat.lt_of_le_of_lt (Nat.le_add_right _ _) late)
      · exact .inr ⟨region, List.mem_append_right _ top, same⟩
  | statement stmt inner ih => exact ih formed listed
  | region head inner ih =>
    rw [guards, List.mem_cons] at listed
    cases listed with
    | inl same => exact .inr ⟨_, List.mem_singleton_self _, same⟩
    | inr listed =>
      rcases ih formed.2.1 listed with late | ⟨region, top, rfl⟩
      · exact .inl late
      · left
        have closed := closed_of_shut shut
        rcases formed.2.2.2.2 with free | ⟨-, bare, group⟩
        · rw [free _ (mem_tops top)] at closed
          cases closed
        · -- A clause stands behind the body of its group.
          have late := late_in_group formed.2.1 bare group top closed
          exact late
  | handled head inner handler ihInner ihHandler =>
    rw [guards, List.mem_cons, List.mem_cons, List.mem_append] at listed
    have filled := formed.2.2.1
    rcases listed with same | same | listed | listed
    · rw [same] at shut
      cases shut
    · rw [same]
      exact .inl (Nat.lt_add_of_pos_right filled)
    · rcases ihInner formed.1 listed with late | ⟨region, top, rfl⟩
      · exact .inl late
      · exact (not_closed_of_inner formed top (closed_of_shut shut)).elim
    · have bounds : place.offset + inner.size ≤ gate.span.start := (mem_guards_bounds listed).1.1
      exact .inl (by omega)

/-- How a label stands at the start of what is entered by an exception only: in it, or at the end of
another guard around the label, unless it is one of the outermost regions. -/
private def Left (code : Code) (place : Place) (gate : Guard) (at' : Place) : Prop :=
  gate ∈ at'.guards ∨
    (∃ guard ∈ at'.guards, guard ∈ code.guards place ∧ guard.span.stop = at'.offset) ∨
    ∃ region ∈ code.topRegions place, gate = wholeOf region

/-- A label in a part of code stands likewise in all of it. -/
private theorem Left.widen {part : Code} {inside at' : Place} {gate : Guard}
    (left : Left part inside gate at')
    (wider : ∀ guard ∈ part.guards inside, guard ∈ code.guards place)
    (outermost : ∀ region ∈ part.topRegions inside, gate = wholeOf region →
      Left code place gate at') : Left code place gate at' := by
  rcases left with within | ⟨guard, around, own, stop⟩ | ⟨region, top, same⟩
  · exact .inl within
  · exact .inr (.inl ⟨guard, around, wider guard own, stop⟩)
  · exact outermost region top same

/-- In a region that holds clauses only, each clause has one before it. -/
private theorem left_of_region {head : RegionHead} {inner : Code}
    (formed : (region head inner).Formed) {label : LabelKey} {at' : Place}
    (mem : (.mark label, at') ∈ inner.tokens (place.within head inner)) {region' : Region}
    (top : region' ∈ inner.topRegions (place.within head inner))
    (closed : region'.kind.isFree = false) (start : region'.span.start = at'.offset) :
    Left (region head inner) place (wholeOf region') at' := by
  rcases formed.2.2.2.2 with free | ⟨-, bare, -⟩
  · rw [free _ (mem_tops top)] at closed
    cases closed
  · rcases left_of_bare bare formed.2.1 mem top closed start with within |
      ⟨guard, around, own, stop⟩
    · exact .inl within
    · exact .inr (.inl ⟨guard, around, List.mem_cons_of_mem _ own, stop⟩)

/-- A label at the start of what is entered by an exception only stands in it, or at the end of
another guard around the label, or the gate is one of the outermost regions. -/
theorem exists_left (formed : code.Formed) {label : LabelKey} {at' : Place}
    (mem : (.mark label, at') ∈ code.tokens place) {gate : Guard}
    (listed : gate ∈ code.guards place) (shut : gate.isShut = true)
    (start : gate.span.start = at'.offset) :
    gate ∈ at'.guards ∨
      (∃ guard ∈ at'.guards, guard ∈ code.guards place ∧ guard.span.stop = at'.offset) ∨
      ∃ region ∈ code.topRegions place, gate = wholeOf region := by
  change Left code place gate at'
  have filled := lt_of_guard formed listed
  induction code generalizing place with
  | nothing | note | instr | mark => cases listed
  | append first second ihFirst ihSecond =>
    rw [guards, List.mem_append] at listed
    rw [tokens, List.mem_append] at mem
    rcases mem with mem | mem <;> rcases listed with listed | listed
    · exact (ihFirst formed.1 mem listed).widen (fun _ ↦ List.mem_append_left _)
        fun region top same ↦ .inr (.inr ⟨region, List.mem_append_left _ top, same⟩)
    · have before : at'.offset ≤ place.offset + first.size := (offset_mem_tokens mem).2
      rcases late_of_shut formed.2 listed shut with late | ⟨region, top, same⟩
      · have late : place.offset + first.size < gate.span.start := late
        omega
      · exact .inr (.inr ⟨region, List.mem_append_right _ top, same⟩)
    · have bounds := (mem_guards_bounds listed).1
      have behind : place.offset + first.size ≤ at'.offset := (offset_mem_tokens mem).1
      omega
    · exact (ihSecond formed.2 mem listed).widen (fun _ ↦ List.mem_append_right _)
        fun region top same ↦ .inr (.inr ⟨region, List.mem_append_right _ top, same⟩)
  | statement stmt inner ih =>
    rw [tokens, List.mem_cons, List.mem_append, List.mem_singleton] at mem
    rcases mem with same | mem | same
    · cases same
    · exact ih formed mem listed
    · cases same
  | region head inner ih =>
    rw [guards, List.mem_cons] at listed
    rw [tokens, List.mem_cons] at mem
    rcases mem with same | mem
    · cases same
    rcases listed with same | listed
    · rw [same]
      exact .inl ((guards_mem_tokens mem).subset List.mem_cons_self)
    · refine (ih formed.2.1 mem listed).widen (fun _ ↦ List.mem_cons_of_mem _)
        fun region top same ↦ ?_
      subst same
      exact left_of_region formed mem top (closed_of_shut shut) start
  | handled head inner handler ihInner ihHandler =>
    rw [guards, List.mem_cons, List.mem_cons, List.mem_append] at listed
    rw [tokens, List.mem_cons, List.mem_append] at mem
    rcases mem with same | mem | mem
    · cases same
    · have before : at'.offset ≤ place.offset + inner.size := (offset_mem_tokens mem).2
      have around : place.bodyGuard head inner handler ∈ at'.guards :=
        (guards_mem_tokens mem).subset List.mem_cons_self
      rcases listed with same | same | listed | listed
      · rw [same] at shut
        cases shut
      · rw [same] at start
        exact .inr (.inl ⟨_, around, List.mem_cons_self, start⟩)
      · refine (ihInner formed.1 mem listed).widen (fun _ own ↦ List.mem_cons_of_mem _
          (List.mem_cons_of_mem _ (List.mem_append_left _ own))) fun region top same ↦ ?_
        exact (not_closed_of_inner formed top (closed_of_shut (same ▸ shut))).elim
      · rcases late_of_shut formed.2.1 listed shut with late | ⟨region, top, rfl⟩
        · have late : place.offset + inner.size < gate.span.start := late
          omega
        · exact (not_closed_of_handler formed top (closed_of_shut shut)).elim
    · have behind : place.offset + inner.size ≤ at'.offset := (offset_mem_tokens mem).1
      have around : place.handlerGuard head inner handler ∈ at'.guards :=
        (guards_mem_tokens mem).subset List.mem_cons_self
      rcases listed with same | same | listed | listed
      · rw [same] at shut
        cases shut
      · rw [same]
        exact .inl around
      · have bounds : gate.span.stop ≤ place.offset + inner.size := (mem_guards_bounds listed).1.2
        omega
      · refine (ihHandler formed.2.1 mem listed).widen (fun _ own ↦ List.mem_cons_of_mem _
          (List.mem_cons_of_mem _ (List.mem_append_right _ own))) fun region top same ↦ ?_
        exact (not_closed_of_handler formed top (closed_of_shut (same ▸ shut))).elim

/-- What the handler of a region protects is the first child of the region, a protected block. -/
theorem exists_child (formed : code.Formed) {region : Region} {at' : Place}
    (mem : (.opens region, at') ∈ code.tokens place) (holds : region.kind.hasHandler = true) :
    ∃ child at'' guard, (.opens child, at'') ∈ code.tokens place ∧ child.kind = .tryBlock ∧
      region.children.head? = some child.id ∧ guard ∈ code.guards place ∧
      guard.region = region ∧ guard.part = .body ∧ guard.span = child.span := by
  cases bracket_of_opens formed mem with
  | plain record formed tokens =>
    rw [record] at holds
    exact (Bool.eq_false_iff.mp formed.2.2.1 holds).elim
  | @handled head inner handler record formed body tail =>
    obtain ⟨-, -, -, -, -, bare, ⟨top, tops, kind⟩, -⟩ := formed
    rw [← map_topRegions inner (at'.inBody head inner handler)] at tops
    obtain ⟨child, children, rfl⟩ := List.map_eq_singleton_iff.mp tops
    have listed : child ∈ inner.topRegions (at'.inBody head inner handler) := by
      rw [children]
      exact List.mem_singleton_self _
    obtain ⟨⟨at'', opens⟩, -⟩ := mem_topRegions listed
    have touching := touching_topRegions inner (at'.inBody head inner handler) bare
    rw [children] at touching
    obtain ⟨first, last⟩ := touching.span
    have ids := map_id_topRegions inner (at'.inBody head inner handler)
    rw [children] at ids
    rcases guards_of_opens mem with ⟨none, -⟩ | ⟨span, after, found, start, stop, -, inBody, -⟩
    · rw [record] at none
      cases none
    refine ⟨child, at'', _, body opens, kind, ?_, inBody, rfl, rfl, ?_⟩
    · rw [record, Place.handled]
      show (inner.outermost (at'.next + 1) ++ _).head? = _
      rw [show inner.outermost (at'.next + 1) = _ from ids.symm]
      rfl
    · rw [record] at found start
      cases found
      ext
      · exact start.symm.trans first.symm
      · exact stop.trans last.symm

end Code
end ProtectedRegions
