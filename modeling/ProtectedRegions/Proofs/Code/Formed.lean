import ProtectedRegions.Proofs.Code.Tokens
import ProtectedRegions.Proofs.Outcome
import ProtectedRegions.Region.Validation

/-!
# Well-formed code

The rules of region trees as rules of structured code. No region is empty, a region with a
handler wraps one protected block, and catch handlers and filters stand in groups behind a
protected block, each filter right before its catch. A tree read off well-formed code is valid.
-/

namespace ProtectedRegions

/-- Regions that need no group around them. -/
def RegionKind.isFree : RegionKind → Bool
  | .tryBlock | .finallyBlock | .faultBlock => true
  | _ => false

/-- The handlers of a group: catches, and filters right before their catches. -/
inductive Clauses : List RegionHead → Prop
  | nil : Clauses []
  | typed {handler : RegionHead} {rest : List RegionHead} (kind : handler.kind = .catchBlock)
      (typed : handler.catchInfo.any (·.filtered) = false) (later : Clauses rest) :
      Clauses (handler :: rest)
  | filtered {filter handler : RegionHead} {rest : List RegionHead}
      (kind : filter.kind = .filterBlock) (kind' : handler.kind = .catchBlock)
      (later : Clauses rest) : Clauses (filter :: handler :: rest)

/-- A protected block with the handlers of its group. -/
inductive Group : List RegionHead → Prop
  | mk {body : RegionHead} {rest : List RegionHead} (free : body.kind.isFree = true)
      (clauses : Clauses rest) : Group (body :: rest)

namespace Code

/-- The heads of the outermost regions. -/
def tops : Code → List RegionHead
  | nothing | note _ | instr .. | mark _ => []
  | append first second => first.tops ++ second.tops
  | statement _ inner => inner.tops
  | region head _ | handled head .. => [head]

/-- The outermost regions of code that starts at a place. -/
def topRegions : Code → Place → List Region
  | nothing, _ | note _, _ | instr .., _ | mark _, _ => []
  | append first second, place =>
    first.topRegions place ++ second.topRegions (place.after first)
  | statement _ inner, place => inner.topRegions place
  | region head inner, place => [place.region head inner]
  | handled head inner handler, place => [place.handled head inner handler]

/-- Whether the code is made of regions only. -/
def isBare : Code → Bool
  | nothing | note _ | region .. | handled .. => true
  | instr .. | mark _ | statement .. => false
  | append first second => first.isBare && second.isBare

/-- The rules that make the regions of code a valid tree. -/
def Formed : Code → Prop
  | nothing | note _ | instr .. | mark _ => True
  | append first second => first.Formed ∧ second.Formed
  | statement _ inner => inner.Formed
  | region head inner =>
    0 < inner.size ∧ inner.Formed ∧ head.kind.hasHandler = false ∧ head.kind ≠ .method ∧
      ((∀ top ∈ inner.tops, top.kind.isFree = true) ∨
        head.kind = .tryBlock ∧ inner.isBare = true ∧ Group inner.tops)
  | handled head inner handler =>
    inner.Formed ∧ handler.Formed ∧ 0 < inner.size ∧ 0 < handler.size ∧
      head.kind.hasHandler = true ∧ inner.isBare = true ∧
      (∃ top, inner.tops = [top] ∧ top.kind = .tryBlock) ∧
      ∀ top ∈ handler.tops, top.kind.isFree = true

variable {code : Code} {place : Place}

/-- The heads of the outermost regions. -/
theorem map_topRegions (code : Code) (place : Place) :
    (code.topRegions place).map (·.toRegionHead) = code.tops := by
  induction code generalizing place with
  | nothing | note | instr | mark | region | handled => rfl
  | append first second ihFirst ihSecond =>
    rw [topRegions, List.map_append, ihFirst, ihSecond, tops]
  | statement stmt inner ih => exact ih place

/-- The ids of the outermost regions. -/
theorem map_id_topRegions (code : Code) (place : Place) :
    (code.topRegions place).map (·.id) = code.outermost place.next := by
  induction code generalizing place with
  | nothing | note | instr | mark | region | handled => rfl
  | append first second ihFirst ihSecond =>
    rw [topRegions, List.map_append, ihFirst, ihSecond, outermost]
    rfl
  | statement stmt inner ih => exact ih place

/-- An outermost region starts at a token and has the parent of the place. -/
theorem mem_topRegions {region : Region} (mem : region ∈ code.topRegions place) :
    (∃ at', (.opens region, at') ∈ code.tokens place) ∧ region.parent = place.parent := by
  induction code generalizing place with
  | nothing | note | instr | mark => cases mem
  | append first second ihFirst ihSecond =>
    rw [topRegions, List.mem_append] at mem
    rcases mem with mem | mem
    · obtain ⟨⟨at', opens⟩, parent⟩ := ihFirst mem
      exact ⟨⟨at', List.mem_append_left _ opens⟩, parent⟩
    · obtain ⟨⟨at', opens⟩, parent⟩ := ihSecond mem
      exact ⟨⟨at', List.mem_append_right _ opens⟩, parent⟩
  | statement stmt inner ih =>
    obtain ⟨⟨at', opens⟩, parent⟩ := ih mem
    exact ⟨⟨at', List.mem_cons_of_mem _ (List.mem_append_left _ opens)⟩, parent⟩
  | region head inner | handled head inner handler =>
    cases List.mem_singleton.mp mem
    exact ⟨⟨place, List.mem_cons_self⟩, rfl⟩

/-- Regions that follow one another between two offsets. -/
inductive Ordered : Nat → Nat → List Region → Prop
  | nil {first last : Nat} (le : first ≤ last) : Ordered first last []
  | cons {first last : Nat} {region : Region} {rest : List Region}
      (le : first ≤ region.span.start) (le' : region.span.stop ≤ last)
      (later : Ordered region.span.stop last rest) : Ordered first last (region :: rest)

theorem Ordered.le {first last : Nat} {regions : List Region} (h : Ordered first last regions) :
    first ≤ last := by
  induction h with
  | nil le => exact le
  | @cons first last region rest le le' later ih =>
    have := region.span.start_le_stop
    omega

/-- Ordered regions may start earlier. -/
theorem Ordered.weaken {first first' last : Nat} {regions : List Region}
    (h : Ordered first last regions) (le : first' ≤ first) : Ordered first' last regions := by
  cases h with
  | nil le' => exact .nil (Nat.le_trans le le')
  | cons le' stop later => exact .cons (Nat.le_trans le le') stop later

/-- Ordered regions behind ordered regions. -/
theorem Ordered.append {first middle last : Nat} {regions regions' : List Region}
    (h : Ordered first middle regions) (h' : Ordered middle last regions') :
    Ordered first last (regions ++ regions') := by
  induction h with
  | nil le => exact h'.weaken le
  | cons le le' later ih => exact .cons le (Nat.le_trans le' h'.le) (ih h')

/-- The outermost regions follow one another. -/
theorem ordered_topRegions (code : Code) (place : Place) :
    Ordered place.offset (place.offset + code.size) (code.topRegions place) := by
  induction code generalizing place with
  | nothing | note | instr | mark => exact .nil (Nat.le_add_right _ _)
  | append first second ihFirst ihSecond =>
    have := (ihFirst place).append (ihSecond (place.after first))
    rwa [Place.after, Nat.add_assoc] at this
  | statement stmt inner ih => exact ih place
  | region head inner | handled head inner handler =>
    exact .cons (Nat.le_refl _) (Nat.le_refl _) (.nil (Nat.le_refl _))

/-- Regions that touch one another between two offsets. -/
inductive Touching : Nat → Nat → List Region → Prop
  | nil {offset : Nat} : Touching offset offset []
  | cons {first last : Nat} {region : Region} {rest : List Region}
      (start : region.span.start = first) (later : Touching region.span.stop last rest) :
      Touching first last (region :: rest)

/-- The outermost regions of bare code touch one another. -/
theorem touching_topRegions (code : Code) (place : Place) (bare : code.isBare = true) :
    Touching place.offset (place.offset + code.size) (code.topRegions place) := by
  have append {first middle last : Nat} {regions regions' : List Region}
      (h : Touching first middle regions) (h' : Touching middle last regions') :
      Touching first last (regions ++ regions') := by
    induction h with
    | nil => exact h'
    | cons start later ih => exact .cons start (ih h')
  induction code generalizing place with
  | nothing | note => exact .nil
  | instr | mark | statement => cases bare
  | append first second ihFirst ihSecond =>
    rw [isBare, Bool.and_eq_true] at bare
    have := append (ihFirst place bare.1) (ihSecond (place.after first) bare.2)
    rwa [Place.after, Nat.add_assoc] at this
  | region head inner | handled head inner handler => exact .cons rfl .nil

/-- Neighbours among touching regions. -/
theorem Touching.adjacent {first last : Nat} {regions : List Region}
    (h : Touching first last regions) {index : Nat} {region next : Region}
    (found : regions[index]? = some region) (found' : regions[index + 1]? = some next) :
    next.span.start = region.span.stop := by
  induction h generalizing index with
  | nil => cases found
  | cons start later ih =>
    cases index with
    | zero =>
      cases found
      cases later with
      | nil => cases found'
      | cons start later =>
        cases found'
        exact start
    | succ index => exact ih found found'

/-- A region that touches both offsets spans all between them. -/
theorem Touching.span {first last : Nat} {region : Region} (h : Touching first last [region]) :
    region.span.start = first ∧ region.span.stop = last := by
  cases h with
  | cons start later =>
    refine ⟨start, ?_⟩
    generalize region.span.stop = offset at later
    cases later
    rfl

/-- How a region stands in code: as a bracket around code of its own, which is well formed and
has its tokens among those of the code. -/
inductive Bracket (code : Code) (place : Place) (region : Region) (at' : Place) : Prop
  | plain {head : RegionHead} {inner : Code} (record : region = at'.region head inner)
      (formed : (Code.region head inner).Formed)
      (tokens : inner.tokens (at'.within head inner) ⊆ code.tokens place)
  | handled {head : RegionHead} {inner handler : Code}
      (record : region = at'.handled head inner handler)
      (formed : (Code.handled head inner handler).Formed)
      (body : inner.tokens (at'.inBody head inner handler) ⊆ code.tokens place)
      (tail : handler.tokens (at'.inHandler head inner handler) ⊆ code.tokens place)

/-- A bracket of a part is a bracket of the whole. -/
theorem Bracket.mono {part : Code} {place' : Place} {region : Region} {at' : Place}
    (bracket : Bracket part place' region at') (subset : part.tokens place' ⊆ code.tokens place) :
    Bracket code place region at' := by
  cases bracket with
  | plain record formed tokens => exact .plain record formed fun _ listed ↦ subset (tokens listed)
  | handled record formed body tail =>
    exact .handled record formed (fun _ listed ↦ subset (body listed))
      fun _ listed ↦ subset (tail listed)

/-- A region that starts at a token is a bracket. -/
theorem bracket_of_opens (formed : code.Formed) {region : Region} {at' : Place}
    (mem : (.opens region, at') ∈ code.tokens place) : Bracket code place region at' := by
  induction code generalizing place with
  | nothing | note => cases mem
  | instr | mark => cases List.mem_singleton.mp mem
  | append first second ihFirst ihSecond =>
    rcases List.mem_append.mp mem with mem | mem
    · exact (ihFirst formed.1 mem).mono (List.subset_append_left _ _)
    · exact (ihSecond formed.2 mem).mono (List.subset_append_right _ _)
  | statement stmt inner ih =>
    rw [tokens, List.mem_cons, List.mem_append, List.mem_singleton] at mem
    rcases mem with mem | mem | mem
    · cases mem
    · refine (ih formed mem).mono fun entry listed ↦ ?_
      exact List.mem_cons_of_mem _ (List.mem_append_left _ listed)
    · cases mem
  | region head inner ih =>
    rcases List.mem_cons.mp mem with mem | mem
    · cases mem
      exact .plain rfl formed (List.subset_cons_self _ _)
    · exact (ih formed.2.1 mem).mono (List.subset_cons_self _ _)
  | handled head inner handler ihInner ihHandler =>
    have body : inner.tokens (place.inBody head inner handler) ⊆
        (Code.handled head inner handler).tokens place :=
      fun entry listed ↦ List.mem_cons_of_mem _ (List.mem_append_left _ listed)
    have tail : handler.tokens (place.inHandler head inner handler) ⊆
        (Code.handled head inner handler).tokens place :=
      fun entry listed ↦ List.mem_cons_of_mem _ (List.mem_append_right _ listed)
    rw [tokens, List.mem_cons, List.mem_append] at mem
    rcases mem with mem | mem | mem
    · cases mem
      exact .handled rfl formed body tail
    · exact (ihInner formed.1 mem).mono body
    · exact (ihHandler formed.2.1 mem).mono tail

/-- The group of a region: the region is outermost, or outermost in a bracket. -/
inductive Contained (code : Code) (place : Place) (region : Region) : Prop
  | outermost (mem : region ∈ code.topRegions place)
  | inner {outer : Region} {at' : Place} {head : RegionHead} {inner : Code}
      (opens : (.opens outer, at') ∈ code.tokens place) (record : outer = at'.region head inner)
      (formed : (Code.region head inner).Formed)
      (tokens : inner.tokens (at'.within head inner) ⊆ code.tokens place)
      (mem : region ∈ inner.topRegions (at'.within head inner))
  | guarded {outer : Region} {at' : Place} {head : RegionHead} {inner handler : Code}
      (opens : (.opens outer, at') ∈ code.tokens place)
      (record : outer = at'.handled head inner handler)
      (formed : (Code.handled head inner handler).Formed)
      (mem : region ∈ inner.topRegions (at'.inBody head inner handler) ∨
        region ∈ handler.topRegions (at'.inHandler head inner handler))

private theorem Contained.mono {part : Code} {place' : Place} {region : Region}
    (contained : Contained part place' region) (subset : part.tokens place' ⊆ code.tokens place)
    (outermost : region ∈ part.topRegions place' → Contained code place region) :
    Contained code place region := by
  cases contained with
  | outermost mem => exact outermost mem
  | inner opens record formed tokens mem =>
    exact .inner (subset opens) record formed (fun _ listed ↦ subset (tokens listed)) mem
  | guarded opens record formed mem => exact .guarded (subset opens) record formed mem

/-- Every region is outermost somewhere. -/
theorem contained_of_opens (formed : code.Formed) {region : Region} {at' : Place}
    (mem : (.opens region, at') ∈ code.tokens place) : Contained code place region := by
  induction code generalizing place with
  | nothing | note => cases mem
  | instr | mark => cases List.mem_singleton.mp mem
  | append first second ihFirst ihSecond =>
    rcases List.mem_append.mp mem with mem | mem
    · exact (ihFirst formed.1 mem).mono (List.subset_append_left _ _)
        fun top ↦ .outermost (List.mem_append_left _ top)
    · exact (ihSecond formed.2 mem).mono (List.subset_append_right _ _)
        fun top ↦ .outermost (List.mem_append_right _ top)
  | statement stmt inner ih =>
    rw [tokens, List.mem_cons, List.mem_append, List.mem_singleton] at mem
    rcases mem with mem | mem | mem
    · cases mem
    · refine (ih formed mem).mono (fun entry listed ↦ ?_) fun top ↦ .outermost top
      exact List.mem_cons_of_mem _ (List.mem_append_left _ listed)
    · cases mem
  | region head inner ih =>
    rcases List.mem_cons.mp mem with mem | mem
    · cases mem
      exact .outermost List.mem_cons_self
    · exact (ih formed.2.1 mem).mono (List.subset_cons_self _ _)
        fun top ↦ .inner List.mem_cons_self rfl formed (List.subset_cons_self _ _) top
  | handled head inner handler ihInner ihHandler =>
    have body : inner.tokens (place.inBody head inner handler) ⊆
        (Code.handled head inner handler).tokens place :=
      fun entry listed ↦ List.mem_cons_of_mem _ (List.mem_append_left _ listed)
    have tail : handler.tokens (place.inHandler head inner handler) ⊆
        (Code.handled head inner handler).tokens place :=
      fun entry listed ↦ List.mem_cons_of_mem _ (List.mem_append_right _ listed)
    rw [tokens, List.mem_cons, List.mem_append] at mem
    rcases mem with mem | mem | mem
    · cases mem
      exact .outermost List.mem_cons_self
    · exact (ihInner formed.1 mem).mono body
        fun top ↦ .guarded List.mem_cons_self rfl formed (.inl top)
    · exact (ihHandler formed.2.1 mem).mono tail
        fun top ↦ .guarded List.mem_cons_self rfl formed (.inr top)

end Code
end ProtectedRegions
