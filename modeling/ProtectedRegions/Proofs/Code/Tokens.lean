import Mathlib.Data.List.Nodup
import Mathlib.Data.List.Range
import ProtectedRegions.Code.Basic
import ProtectedRegions.Flow.Node

/-!
# Tokens of structured code

Structured code read from left to right: the instructions, the labels, the starts and ends of
statements, and the starts of regions, each with its place. A place is an offset together with
the parts of regions around it. What is laid out and which regions there are follow from the
list of tokens.
-/

namespace ProtectedRegions

/-- The part of a region that a guard stands for. -/
inductive GuardPart where
  /-- All of a region that holds no handler. -/
  | whole
  /-- What the handler of a region protects. -/
  | body
  | handler
  deriving DecidableEq

/-- A part of a region as something that lies around a place. -/
structure Guard where
  region : Region
  part : GuardPart
  span : Span
  deriving DecidableEq

/-- A point between instructions, with the number of the next region to start and the guards
around the point, innermost first. -/
structure Place where
  offset : Nat
  next : Nat
  guards : List Guard

namespace Place

/-- The region around a place. -/
def parent (place : Place) : Option RegionId := place.guards.head?.map (·.region.id)

/-- The place behind code. -/
def after (place : Place) (code : Code) : Place :=
  { place with
    offset := place.offset + code.size
    next := place.next + code.regionCount }

/-- The region without a handler that starts at a place. -/
def region (place : Place) (head : RegionHead) (inner : Code) : Region :=
  { head with
    id := ⟨place.next⟩
    span := .ofLength place.offset inner.size
    parent := place.parent
    children := inner.outermost (place.next + 1)
    handler := none }

/-- The region with a handler that starts at a place. -/
def handled (place : Place) (head : RegionHead) (inner handler : Code) : Region :=
  { head with
    id := ⟨place.next⟩
    span := .ofLength place.offset (inner.size + handler.size)
    parent := place.parent
    children := inner.outermost (place.next + 1) ++
      handler.outermost (place.next + 1 + inner.regionCount)
    handler := some (.ofLength (place.offset + inner.size) handler.size) }

/-- The guard of a region without a handler. -/
def guard (place : Place) (head : RegionHead) (inner : Code) : Guard :=
  ⟨place.region head inner, .whole, .ofLength place.offset inner.size⟩

/-- The guard of the body of a region with a handler. -/
def bodyGuard (place : Place) (head : RegionHead) (inner handler : Code) : Guard :=
  ⟨place.handled head inner handler, .body, .ofLength place.offset inner.size⟩

/-- The guard of a handler. -/
def handlerGuard (place : Place) (head : RegionHead) (inner handler : Code) : Guard :=
  ⟨place.handled head inner handler, .handler,
    .ofLength (place.offset + inner.size) handler.size⟩

/-- The place at the start of a region without a handler. -/
def within (place : Place) (head : RegionHead) (inner : Code) : Place :=
  ⟨place.offset, place.next + 1, place.guard head inner :: place.guards⟩

/-- The place at the start of the body of a region with a handler. -/
def inBody (place : Place) (head : RegionHead) (inner handler : Code) : Place :=
  ⟨place.offset, place.next + 1, place.bodyGuard head inner handler :: place.guards⟩

/-- The place at the start of a handler. -/
def inHandler (place : Place) (head : RegionHead) (inner handler : Code) : Place :=
  ⟨place.offset + inner.size, place.next + 1 + inner.regionCount,
    place.handlerGuard head inner handler :: place.guards⟩

/-- Regions that start at or behind a place have numbers of their own. -/
def Fresh (place : Place) : Prop := ∀ guard ∈ place.guards, guard.region.id.index < place.next

end Place

/-- What stands at a place of structured code. -/
inductive Token where
  /-- The start or the end of a statement. -/
  | node (node : FlowNode)
  | mark (label : LabelKey)
  | instr (source : StmtId) (operation : Instruction LabelKey)
  /-- The start of a region. -/
  | opens (region : Region)
  deriving DecidableEq

/-- A statement inside code, with its own code and place. -/
structure CodePart where
  stmt : StmtId
  inner : Code
  place : Place

/-- Two entries of a list with one key are the same if no key occurs twice. -/
theorem eq_of_nodup_filterMap {α β : Type} {key? : α → Option β} {list : List α}
    (nodup : (list.filterMap key?).Nodup) {first second : α} {key : β} (mem : first ∈ list)
    (mem' : second ∈ list) (found : key? first = some key) (found' : key? second = some key) :
    first = second := by
  induction list with
  | nil => cases mem
  | cons entry list ih =>
    rw [List.filterMap_cons] at nodup
    have absent {other : α} (h : key? entry = some key) (mem : other ∈ list) :
        key? other ≠ some key := by
      intro same
      rw [h] at nodup
      exact (List.nodup_cons.mp nodup).1 (List.mem_filterMap.mpr ⟨_, mem, same⟩)
    have rest : (list.filterMap key?).Nodup := by
      split at nodup
      · exact nodup
      · exact (List.nodup_cons.mp nodup).2
    rcases List.mem_cons.mp mem with rfl | inner
    · rcases List.mem_cons.mp mem' with rfl | inner'
      · rfl
      · exact absurd found' (absent found inner')
    · rcases List.mem_cons.mp mem' with rfl | inner'
      · exact absurd found (absent found' inner)
      · exact ih rest inner inner'

namespace Code

/-- The tokens of code that starts at a place. -/
def tokens : Code → Place → List (Token × Place)
  | nothing, _ | note _, _ => []
  | instr source operation, place => [(.instr source operation, place)]
  | mark label, place => [(.mark label, place)]
  | append first second, place => first.tokens place ++ second.tokens (place.after first)
  | statement stmt inner, place =>
    (.node (.entry stmt), place) :: (inner.tokens place ++
      [(.node (.ending stmt), place.after inner)])
  | region head inner, place =>
    (.opens (place.region head inner), place) :: inner.tokens (place.within head inner)
  | handled head inner handler, place =>
    (.opens (place.handled head inner handler), place) ::
      (inner.tokens (place.inBody head inner handler) ++
        handler.tokens (place.inHandler head inner handler))

/-- The tokens that belong to no statement inside the code. -/
def own : Code → Place → List (Token × Place)
  | nothing, _ | note _, _ | statement .., _ => []
  | instr source operation, place => [(.instr source operation, place)]
  | mark label, place => [(.mark label, place)]
  | append first second, place => first.own place ++ second.own (place.after first)
  | region head inner, place =>
    (.opens (place.region head inner), place) :: inner.own (place.within head inner)
  | handled head inner handler, place =>
    (.opens (place.handled head inner handler), place) ::
      (inner.own (place.inBody head inner handler) ++
        handler.own (place.inHandler head inner handler))

/-- The statements directly inside the code. -/
def nested : Code → Place → List CodePart
  | nothing, _ | note _, _ | instr .., _ | mark _, _ => []
  | append first second, place => first.nested place ++ second.nested (place.after first)
  | statement stmt inner, place => [⟨stmt, inner, place⟩]
  | region head inner, place => inner.nested (place.within head inner)
  | handled head inner handler, place =>
    inner.nested (place.inBody head inner handler) ++
      handler.nested (place.inHandler head inner handler)

/-- The instructions with the statements they are made for. -/
def instrs : Code → List (StmtId × Instruction LabelKey)
  | nothing | note _ | mark _ => []
  | instr source operation => [(source, operation)]
  | append first second => first.instrs ++ second.instrs
  | statement _ inner | region _ inner => inner.instrs
  | handled _ inner handler => inner.instrs ++ handler.instrs

/-- The labels that the code places. -/
def marks : Code → List LabelKey
  | nothing | note _ | instr .. => []
  | mark label => [label]
  | append first second => first.marks ++ second.marks
  | statement _ inner | region _ inner => inner.marks
  | handled _ inner handler => inner.marks ++ handler.marks

/-- The statements whose code is inside. -/
def statements : Code → List StmtId
  | nothing | note _ | instr .. | mark _ => []
  | append first second => first.statements ++ second.statements
  | statement stmt inner => stmt :: inner.statements
  | region _ inner => inner.statements
  | handled _ inner handler => inner.statements ++ handler.statements

end Code

namespace Token

/-- The number of offsets that a token takes. -/
def width : Token → Nat
  | .instr .. => 1
  | _ => 0

/-- The label that a token places. -/
def mark? : Token × Place → Option LabelKey
  | (.mark label, _) => some label
  | _ => none

/-- The statement that starts at a token. -/
def entry? : Token × Place → Option StmtId
  | (.node (.entry stmt), _) => some stmt
  | _ => none

/-- The instruction of a token with its offset. -/
def placed? : Token × Place → Option ((StmtId × Instruction LabelKey) × Nat)
  | (.instr source operation, place) => some ((source, operation), place.offset)
  | _ => none

/-- The region that starts at a token. -/
def opened? : Token × Place → Option Region
  | (.opens region, _) => some region
  | _ => none

end Token

namespace Code

variable {code : Code} {place : Place}

/-- Appending by the operator is the constructor. -/
theorem append_eq (first second : Code) : first ++ second = append first second := rfl

/-- A token lies between the start and the end of its code. -/
theorem offset_mem_tokens {token : Token} {at' : Place} (mem : (token, at') ∈ code.tokens place) :
    place.offset ≤ at'.offset ∧ at'.offset + token.width ≤ place.offset + code.size := by
  induction code generalizing place with
  | nothing | note => cases mem
  | instr | mark =>
    cases List.mem_singleton.mp mem
    exact ⟨Nat.le_refl _, Nat.le_refl _⟩
  | append first second ihFirst ihSecond =>
    rw [tokens, List.mem_append] at mem
    rw [size]
    rcases mem with mem | mem
    · have := ihFirst mem
      omega
    · have := ihSecond mem
      simp only [Place.after] at this
      omega
  | statement stmt inner ih =>
    rw [tokens, List.mem_cons, List.mem_append, List.mem_singleton] at mem
    rw [size]
    rcases mem with mem | mem | mem
    · cases mem
      exact ⟨Nat.le_refl _, Nat.le_add_right _ _⟩
    · exact ih mem
    · cases mem
      exact ⟨Nat.le_add_right _ _, Nat.le_refl _⟩
  | region head inner ih =>
    rw [tokens, List.mem_cons] at mem
    rw [size]
    rcases mem with mem | mem
    · cases mem
      exact ⟨Nat.le_refl _, Nat.le_add_right _ _⟩
    · have := ih mem
      simp only [Place.within] at this
      omega
  | handled head inner handler ihInner ihHandler =>
    rw [tokens, List.mem_cons, List.mem_append] at mem
    rw [size]
    rcases mem with mem | mem | mem
    · cases mem
      exact ⟨Nat.le_refl _, Nat.le_add_right _ _⟩
    · have := ihInner mem
      simp only [Place.inBody] at this
      omega
    · have := ihHandler mem
      simp only [Place.inHandler] at this
      omega

/-- What lies around code lies around its tokens. -/
theorem guards_mem_tokens {token : Token} {at' : Place} (mem : (token, at') ∈ code.tokens place) :
    place.guards <:+ at'.guards := by
  induction code generalizing place with
  | nothing | note => cases mem
  | instr | mark =>
    cases List.mem_singleton.mp mem
    exact List.suffix_rfl
  | append first second ihFirst ihSecond =>
    rw [tokens, List.mem_append] at mem
    exact mem.elim ihFirst ihSecond
  | statement stmt inner ih =>
    rw [tokens, List.mem_cons, List.mem_append, List.mem_singleton] at mem
    rcases mem with mem | mem | mem
    · cases mem
      exact List.suffix_rfl
    · exact ih mem
    · cases mem
      exact List.suffix_rfl
  | region head inner ih =>
    rw [tokens, List.mem_cons] at mem
    rcases mem with mem | mem
    · cases mem
      exact List.suffix_rfl
    · exact (List.suffix_cons _ _).trans (ih mem)
  | handled head inner handler ihInner ihHandler =>
    rw [tokens, List.mem_cons, List.mem_append] at mem
    rcases mem with mem | mem | mem
    · cases mem
      exact List.suffix_rfl
    · exact (List.suffix_cons _ _).trans (ihInner mem)
    · exact (List.suffix_cons _ _).trans (ihHandler mem)

/-- The number of instructions. -/
theorem length_instrs (code : Code) : code.instrs.length = code.size := by
  induction code <;> simp_all [instrs, size]

/-- The instructions stand at consecutive offsets. -/
theorem filterMap_placed? (code : Code) (place : Place) :
    (code.tokens place).filterMap Token.placed? = code.instrs.zipIdx place.offset := by
  induction code generalizing place with
  | nothing | note | instr | mark => rfl
  | append first second ihFirst ihSecond =>
    simp only [tokens, List.filterMap_append, ihFirst, ihSecond, instrs, Place.after,
      List.zipIdx_append, length_instrs]
  | statement stmt inner ih =>
    simp [tokens, List.filterMap_cons, Token.placed?, ih, instrs]
  | region head inner ih =>
    simp only [tokens, List.filterMap_cons, Token.placed?, ih, instrs]
    rfl
  | handled head inner handler ihInner ihHandler =>
    simp only [tokens, List.filterMap_cons, Token.placed?, List.filterMap_append, ihInner,
      ihHandler, instrs, List.zipIdx_append, length_instrs]
    rfl

/-- An instruction of the list stands at its offset among the tokens. -/
theorem getElem?_instrs {index : Nat} {source : StmtId} {operation : Instruction LabelKey} :
    code.instrs[index]? = some (source, operation) ↔
      ∃ at', (.instr source operation, at') ∈ code.tokens place ∧
        at'.offset = place.offset + index := by
  rw [← List.mk_add_mem_zipIdx_iff_getElem? (k := place.offset), ← filterMap_placed?,
    List.mem_filterMap]
  constructor
  · rintro ⟨⟨token, at'⟩, mem, found⟩
    cases token with
    | instr source operation =>
      simp only [Token.placed?, Option.some.injEq, Prod.mk.injEq] at found
      obtain ⟨⟨rfl, rfl⟩, offset⟩ := found
      exact ⟨at', mem, offset⟩
    | _ => cases found
  · rintro ⟨at', mem, offset⟩
    refine ⟨_, mem, ?_⟩
    rw [Token.placed?, offset]

/-- An instruction of the list stands somewhere among the tokens. -/
theorem mem_instrs {source : StmtId} {operation : Instruction LabelKey} :
    (source, operation) ∈ code.instrs ↔
      ∃ at', (.instr source operation, at') ∈ code.tokens place := by
  rw [List.mem_iff_getElem?]
  constructor
  · rintro ⟨index, found⟩
    obtain ⟨at', mem, -⟩ := (@getElem?_instrs code place _ _ _).mp found
    exact ⟨at', mem⟩
  · rintro ⟨at', mem⟩
    have := (offset_mem_tokens mem).1
    exact ⟨at'.offset - place.offset, getElem?_instrs.mpr ⟨at', mem, by omega⟩⟩

/-- Instructions at one offset are the same. -/
theorem instr_unique {first second : StmtId} {operation operation' : Instruction LabelKey}
    {at' at'' : Place} (mem : (.instr first operation, at') ∈ code.tokens place)
    (mem' : (.instr second operation', at'') ∈ code.tokens place)
    (same : at'.offset = at''.offset) :
    first = second ∧ operation = operation' ∧ at' = at'' := by
  have least := (offset_mem_tokens mem).1
  have found := getElem?_instrs.mpr ⟨at', mem, (Nat.add_sub_of_le least).symm⟩
  have found' := getElem?_instrs.mpr
    ⟨at'', mem', by rw [← same]; exact (Nat.add_sub_of_le least).symm⟩
  rw [found] at found'
  cases found'
  have nodup : (code.instrs.zipIdx place.offset).Nodup := by
    apply List.Nodup.of_map Prod.snd
    rw [List.zipIdx_map_snd]
    exact List.nodup_range'
  rw [← filterMap_placed?] at nodup
  have := eq_of_nodup_filterMap nodup mem mem' rfl (by rw [Token.placed?, same])
  cases this
  exact ⟨rfl, rfl, rfl⟩

/-- The labels are those of the tokens. -/
theorem filterMap_mark? (code : Code) (place : Place) :
    (code.tokens place).filterMap Token.mark? = code.marks := by
  induction code generalizing place <;>
    simp_all [tokens, List.filterMap_cons, Token.mark?, marks]

/-- The statements are those that start at a token. -/
theorem filterMap_entry? (code : Code) (place : Place) :
    (code.tokens place).filterMap Token.entry? = code.statements := by
  induction code generalizing place <;>
    simp_all [tokens, List.filterMap_cons, Token.entry?, statements]

/-- The regions are those that start at a token. -/
theorem filterMap_opened? (code : Code) (place : Place) :
    (code.tokens place).filterMap Token.opened? =
      code.regions place.offset place.next place.parent := by
  induction code generalizing place with
  | nothing | note | instr | mark => rfl
  | append first second ihFirst ihSecond =>
    simp only [tokens, List.filterMap_append, ihFirst, ihSecond, regions]
    rfl
  | statement stmt inner ih =>
    simp [tokens, List.filterMap_cons, Token.opened?, ih, regions]
  | region head inner ih =>
    simp only [tokens, List.filterMap_cons, Token.opened?, ih, regions]
    rfl
  | handled head inner handler ihInner ihHandler =>
    simp only [tokens, List.filterMap_cons, Token.opened?, List.filterMap_append, ihInner,
      ihHandler, regions]
    rfl

/-- A label is placed where its token is. -/
theorem mem_marks {label : LabelKey} :
    label ∈ code.marks ↔ ∃ at', (.mark label, at') ∈ code.tokens place := by
  rw [← filterMap_mark? code place, List.mem_filterMap]
  constructor
  · rintro ⟨⟨token, at'⟩, mem, found⟩
    cases token <;> cases found
    exact ⟨at', mem⟩
  · rintro ⟨at', mem⟩
    exact ⟨_, mem, rfl⟩

/-- The regions are what the tokens open. -/
theorem mem_regions {region : Region} :
    region ∈ code.regions place.offset place.next place.parent ↔
      ∃ at', (.opens region, at') ∈ code.tokens place := by
  rw [← filterMap_opened? code place, List.mem_filterMap]
  constructor
  · rintro ⟨⟨token, at'⟩, mem, found⟩
    cases token <;> cases found
    exact ⟨at', mem⟩
  · rintro ⟨at', mem⟩
    exact ⟨_, mem, rfl⟩

/-- The regions are numbered from the first one on. -/
theorem map_id_regions (code : Code) (offset next : Nat) (parent : Option RegionId) :
    (code.regions offset next parent).map (·.id.index) = List.range' next code.regionCount := by
  induction code generalizing offset next parent with
  | nothing | note | instr | mark => rfl
  | append first second ihFirst ihSecond =>
    rw [regions, List.map_append, ihFirst, ihSecond, regionCount]
    exact List.range'_append_1
  | statement stmt inner ih => exact ih offset next parent
  | region head inner ih =>
    rw [regions, List.map_cons, ih, regionCount, List.range'_succ]
  | handled head inner handler ihInner ihHandler =>
    rw [regions, List.map_cons, List.map_append, ihInner, ihHandler, regionCount,
      List.range'_succ, List.range'_append_1]

/-- A region is found under its number. -/
theorem getElem?_regions {region : Region} {offset next : Nat} {parent : Option RegionId}
    (mem : region ∈ code.regions offset next parent) :
    next ≤ region.id.index ∧ region.id.index < next + code.regionCount ∧
      (code.regions offset next parent)[region.id.index - next]? = some region := by
  obtain ⟨index, found⟩ := List.mem_iff_getElem?.mp mem
  have numbered := map_id_regions code offset next parent
  have number := congrArg (·[index]?) numbered
  simp only [List.getElem?_map, found, Option.map_some] at number
  obtain ⟨lt, eq⟩ := List.getElem?_eq_some_iff.mp number.symm
  rw [List.length_range'] at lt
  rw [List.getElem_range'_1] at eq
  rw [← eq, Nat.add_sub_cancel_left]
  exact ⟨Nat.le_add_right _ _, by omega, found⟩

/-- Tokens belong to the code itself or to a statement directly inside. -/
theorem mem_tokens_iff {entry : Token × Place} :
    entry ∈ code.tokens place ↔ entry ∈ code.own place ∨
      ∃ part ∈ code.nested place,
        entry ∈ (statement part.stmt part.inner).tokens part.place := by
  induction code generalizing place with
  | nothing | note | instr | mark => simp [tokens, own, nested]
  | append first second ihFirst ihSecond =>
    simp only [tokens, own, nested, List.mem_append, ihFirst, ihSecond]
    grind
  | statement stmt inner ih => simp [own, nested]
  | region head inner ih =>
    simp only [tokens, own, nested, List.mem_cons, ih]
    grind
  | handled head inner handler ihInner ihHandler =>
    simp only [tokens, own, nested, List.mem_cons, List.mem_append, ihInner, ihHandler]
    grind

/-- A statement directly inside has its tokens among those of the code. -/
theorem tokens_nested {part : CodePart} (mem : part ∈ code.nested place) :
    (statement part.stmt part.inner).tokens part.place ⊆ code.tokens place :=
  fun _ inside ↦ mem_tokens_iff.mpr (.inr ⟨part, mem, inside⟩)

/-- The tokens of the code itself are among its tokens. -/
theorem own_subset : code.own place ⊆ code.tokens place :=
  fun _ mem ↦ mem_tokens_iff.mpr (.inl mem)

/-- The statements inside are the ones directly inside and those inside them. -/
theorem statements_eq_flatMap (code : Code) (place : Place) :
    code.statements = (code.nested place).flatMap fun part ↦
      part.stmt :: part.inner.statements := by
  induction code generalizing place with
  | nothing | note | instr | mark => rfl
  | append first second ihFirst ihSecond =>
    rw [statements, nested, List.flatMap_append, ← ihFirst, ← ihSecond]
  | statement stmt inner ih => simp [statements, nested]
  | region head inner ih =>
    rw [statements, nested, ← ih]
  | handled head inner handler ihInner ihHandler =>
    rw [statements, nested, List.flatMap_append, ← ihInner, ← ihHandler]

end Code
end ProtectedRegions
