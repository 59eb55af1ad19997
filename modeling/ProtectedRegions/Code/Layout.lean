import ProtectedRegions.Code.Instruction
import ProtectedRegions.Error

/-!
# Layouts

An instruction stream under construction, as a two-pass assembler keeps it. An instruction that
names labels is appended with blank targets and a fixup for each of them, labels are placed at
offsets, and `link` patches every fixup once the places are known.
-/

namespace ProtectedRegions

/-- A target slot of an instruction in the stream that waits for the offset of a label
(`codegen/layout:34–41`). -/
structure Fixup where
  instruction : Nat
  slot : Nat
  label : LabelKey
  deriving DecidableEq, Repr

/-- The fixups of an instruction at an offset, slot by slot (`codegen/layout:98–108`). -/
def Instruction.fixups (offset : Nat) (instr : Instruction LabelKey) : List Fixup :=
  instr.targets.zipIdx.map fun (label, slot) ↦ ⟨offset, slot, label⟩

/-- The instructions so far, the places of labels with the latest first, and the fixups in the
order of their slots (`codegen/layout:45–51`). -/
structure Layout where
  instructions : Array (Instruction Nat)
  placements : List (LabelKey × Nat)
  fixups : Array Fixup
  deriving DecidableEq, Repr

namespace Layout

/-- The layout without instructions (`codegen/layout:56–58`). -/
def empty : Layout := ⟨#[], [], #[]⟩

/-- The offset that the next instruction will have (`codegen/layout:62–64`). -/
def offset (layout : Layout) : Nat := layout.instructions.size

/-- The offset at which a label was placed last. -/
def placement? (layout : Layout) (label : LabelKey) : Option Nat :=
  layout.placements.lookup label

/-- Appends an instruction whose targets are offsets already (`codegen/layout:67–71`). -/
def emit (layout : Layout) (instr : Instruction Nat) : Layout :=
  { layout with instructions := layout.instructions.push instr }

/-- Appends an instruction whose targets are labels, with blank targets and their fixups
(`codegen/layout:74–108`). -/
def emitLabeled (layout : Layout) (instr : Instruction LabelKey) : Layout :=
  { layout with
    instructions := layout.instructions.push (instr.mapTargets fun _ ↦ 0)
    fixups := layout.fixups ++ (instr.fixups layout.offset).toArray }

/-- Places a label at the current offset. A label that was placed before moves, and the two
offsets are reported (`codegen/layout:115–126`). -/
def place (layout : Layout) (label : LabelKey) : Except Error Unit × Layout :=
  let moved := { layout with placements := (label, layout.offset) :: layout.placements }
  match layout.placement? label with
  | none => (.ok (), moved)
  | some first => (.error (.malformed (.labelPlacedTwice label first layout.offset)), moved)

/-- Whether an instruction names the label (`codegen/layout:130–132`). -/
def mentions (layout : Layout) (label : LabelKey) : Bool :=
  layout.fixups.any (·.label == label)

/-- Whether an instruction names a label that is placed at the offset (`codegen/layout:136–140`). -/
def targets (layout : Layout) (offset : Nat) : Bool :=
  layout.fixups.any fun fixup ↦ layout.placement? fixup.label == some offset

/-- The error of a label that is named and has no place (`codegen/layout:151–154`). -/
def unplaced : LabelKey → Error
  | .user label => .unresolvedLabel label
  | label => .malformed (.labelNeverPlaced label)

/-- Fills the slot of a fixup with the offset of its label (`codegen/layout:149–168`). -/
def patch (layout : Layout) (stream : Array (Instruction Nat)) (fixup : Fixup) :
    Except Error (Array (Instruction Nat)) :=
  match layout.placement? fixup.label with
  | none => .error (unplaced fixup.label)
  | some offset =>
    match stream[fixup.instruction]?.bind (·.setTarget? fixup.slot offset) with
    | none => .error (.malformed (.noTargetSlot fixup.instruction fixup.slot))
    | some instr => .ok (stream.setIfInBounds fixup.instruction instr)

/-- The stream with every fixup patched, or the error of the first that cannot be
(`codegen/layout:148–171`). -/
def link (layout : Layout) : Except Error (List (Instruction Nat)) :=
  (layout.fixups.toList.foldlM layout.patch layout.instructions).map (·.toList)

/-- An instruction takes one offset. -/
theorem offset_emitLabeled (layout : Layout) (instr : Instruction LabelKey) :
    (layout.emitLabeled instr).offset = layout.offset + 1 := by
  simp [emitLabeled, offset]

/-- A label takes no offset. -/
theorem offset_place (layout : Layout) (label : LabelKey) :
    (layout.place label).2.offset = layout.offset := by
  unfold place
  split <;> rfl

/-- Placing a label moves it, even where that is an error, and moves no other label. -/
theorem placement?_place (layout : Layout) (label other : LabelKey) :
    (layout.place label).2.placement? other =
      if other = label then some layout.offset else layout.placement? other := by
  have moved : (layout.place label).2.placements =
      (label, layout.offset) :: layout.placements := by
    unfold place
    split <;> rfl
  rw [placement?, moved, List.lookup_cons]
  by_cases h : other = label
  · simp [h]
  · simp [h, beq_eq_false_iff_ne.mpr h, placement?]

end Layout
end ProtectedRegions
