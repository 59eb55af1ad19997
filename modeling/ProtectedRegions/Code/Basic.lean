import ProtectedRegions.Code.Layout
import ProtectedRegions.Event
import ProtectedRegions.Region.Tree

/-!
# Structured code

The code of a method before it is laid out: instructions and labels in sequence, with regions
and statements as brackets around parts of it. Laying it out gives the instruction stream; the
regions and their spans are read off its structure, since every instruction takes one offset.
-/

namespace ProtectedRegions

/-- Code with labels and nested regions. -/
inductive Code where
  | nothing
  /-- An instruction, with the statement it is made for. -/
  | instr (source : StmtId) (operation : Instruction LabelKey)
  /-- Places a label. -/
  | mark (label : LabelKey)
  /-- Reports an event; takes no space. -/
  | note (event : Event)
  | append (first second : Code)
  /-- The code of a statement; the bracket takes no space. -/
  | statement (stmt : StmtId) (inner : Code)
  | region (head : RegionHead) (inner : Code)
  /-- A region whose code ends in its own handler. -/
  | handled (head : RegionHead) (inner handler : Code)
  deriving DecidableEq, Repr

namespace Code

instance : Append Code where
  append := append

/-- Code in sequence. -/
def concat (parts : List Code) : Code := parts.foldr append nothing

/-- Code that is there only under a condition. -/
def onlyIf (condition : Bool) (code : Code) : Code := if condition then code else nothing

/-- Events in sequence. -/
def notes (events : List Event) : Code := concat (events.map note)

/-- The number of instructions. -/
def size : Code → Nat
  | nothing | mark _ | note _ => 0
  | instr .. => 1
  | append first second => first.size + second.size
  | statement _ inner | region _ inner => inner.size
  | handled _ inner handler => inner.size + handler.size

/-- The number of regions. -/
def regionCount : Code → Nat
  | nothing | mark _ | note _ | instr .. => 0
  | append first second => first.regionCount + second.regionCount
  | statement _ inner => inner.regionCount
  | region _ inner => inner.regionCount + 1
  | handled _ inner handler => inner.regionCount + handler.regionCount + 1

/-- The ids of the outermost regions, if the next region to start has the number `next`. -/
def outermost (next : Nat) : Code → List RegionId
  | nothing | mark _ | note _ | instr .. => []
  | append first second => first.outermost next ++ second.outermost (next + first.regionCount)
  | statement _ inner => inner.outermost next
  | region .. | handled .. => [⟨next⟩]

/-- The regions of code that starts at an offset inside a parent, in the order in which they
start. The first of them has the number `next`. -/
def regions (offset next : Nat) (parent : Option RegionId) : Code → List Region
  | nothing | mark _ | note _ | instr .. => []
  | append first second =>
    first.regions offset next parent ++
      second.regions (offset + first.size) (next + first.regionCount) parent
  | statement _ inner => inner.regions offset next parent
  | region head inner =>
    { head with
      id := ⟨next⟩
      span := .ofLength offset inner.size
      parent
      children := inner.outermost (next + 1)
      handler := none } :: inner.regions offset (next + 1) (some ⟨next⟩)
  | handled head inner handler =>
    let start := offset + inner.size
    let later := next + 1 + inner.regionCount
    { head with
      id := ⟨next⟩
      span := .ofLength offset (inner.size + handler.size)
      parent
      children := inner.outermost (next + 1) ++ handler.outermost later
      handler := some (.ofLength start handler.size) } ::
      (inner.regions offset (next + 1) (some ⟨next⟩) ++
        handler.regions start later (some ⟨next⟩))

/-- The reported events in order. -/
def events : Code → List Event
  | nothing | mark _ | instr .. => []
  | note event => [event]
  | append first second => first.events ++ second.events
  | statement _ inner | region _ inner => inner.events
  | handled _ inner handler => inner.events ++ handler.events

/-- Lays code out behind what a layout already holds. -/
def lay : Code → Layout → Except Error Layout
  | nothing, layout | note _, layout => .ok layout
  | instr _ operation, layout => .ok (layout.emitLabeled operation)
  | mark label, layout =>
    match layout.place label with
    | (.ok (), moved) => .ok moved
    | (.error error, _) => .error error
  | append first second, layout => do second.lay (← first.lay layout)
  | statement _ inner, layout | region _ inner, layout => inner.lay layout
  | handled _ inner handler, layout => do handler.lay (← inner.lay layout)

/-- Laid out code takes as many offsets as it has instructions. -/
theorem offset_of_lay {code : Code} {before after : Layout} (h : code.lay before = .ok after) :
    after.offset = before.offset + code.size := by
  induction code generalizing before after with
  | nothing | note =>
    cases h
    rfl
  | instr source operation =>
    cases h
    exact before.offset_emitLabeled operation
  | mark label =>
    have moved := before.offset_place label
    unfold lay at h
    split at h
    · next placed =>
      cases h
      rw [placed] at moved
      exact moved
    · cases h
  | append first second ihFirst ihSecond | handled head first second ihFirst ihSecond =>
    unfold lay at h
    cases laid : first.lay before with
    | error error =>
      rw [laid] at h
      cases h
    | ok middle =>
      rw [laid] at h
      have := ihFirst laid
      have := ihSecond h
      simp only [size]
      omega
  | statement stmt inner ih | region head inner ih => exact ih h

/-- Each region is listed once. -/
theorem length_regions (code : Code) (offset next : Nat) (parent : Option RegionId) :
    (code.regions offset next parent).length = code.regionCount := by
  induction code generalizing offset next parent <;> simp_all [regions, regionCount]

end Code
end ProtectedRegions
