import ProtectedRegions.Proofs.Code.Patching
import ProtectedRegions.Proofs.Code.Tokens
import ProtectedRegions.Proofs.Lookup

/-!
# Laying out and linking code

Code that places no label twice is laid out, and if it names no label without a place it is
linked. The stream is the list of its instructions with each label replaced by the offset of its
token.
-/

namespace ProtectedRegions
namespace Code

/-- The labels of code that starts at an offset, with their offsets. -/
def placements : Code → Nat → List (LabelKey × Nat)
  | nothing, _ | note _, _ | instr .., _ => []
  | mark label, offset => [(label, offset)]
  | append first second, offset =>
    first.placements offset ++ second.placements (offset + first.size)
  | statement _ inner, offset | region _ inner, offset => inner.placements offset
  | handled _ inner handler, offset =>
    inner.placements offset ++ handler.placements (offset + inner.size)

/-- The layout that code gives rise to. -/
def layout (code : Code) : Layout where
  instructions := (code.instrs.map (·.2.mapTargets fun _ ↦ 0)).toArray
  placements := (code.placements 0).reverse
  fixups := (code.instrs.zipIdx.flatMap fun (entry, place) ↦ entry.2.fixups place).toArray

/-- The offset of a label. -/
def offsetOf (code : Code) (label : LabelKey) : Nat := (code.layout.placement? label).getD 0

/-- The instructions with labels replaced by their offsets. -/
def linked (code : Code) : List (Instruction Nat) :=
  code.instrs.map (·.2.mapTargets code.offsetOf)

variable {code : Code}

/-- The placed labels in order. -/
theorem map_fst_placements (code : Code) (offset : Nat) :
    (code.placements offset).map Prod.fst = code.marks := by
  induction code generalizing offset <;> simp_all [placements, marks]

/-- The label that a token places, with its offset. -/
private def placement? : Token × Place → Option (LabelKey × Nat)
  | (.mark label, place) => some (label, place.offset)
  | _ => none

private theorem filterMap_placement? (code : Code) (place : Place) :
    (code.tokens place).filterMap placement? = code.placements place.offset := by
  induction code generalizing place with
  | nothing | note | instr | mark => rfl
  | append first second ihFirst ihSecond =>
    simp only [tokens, List.filterMap_append, ihFirst, ihSecond, placements]
    rfl
  | statement stmt inner ih =>
    simp [tokens, List.filterMap_cons, placement?, ih, placements]
  | region head inner ih =>
    simp only [tokens, List.filterMap_cons, placement?, ih, placements]
    rfl
  | handled head inner handler ihInner ihHandler =>
    simp only [tokens, List.filterMap_cons, placement?, List.filterMap_append, ihInner, ihHandler,
      placements]
    rfl

/-- A label stands where it is placed. -/
theorem mem_placements_iff {label : LabelKey} {offset : Nat} (place : Place) :
    (label, offset) ∈ code.placements place.offset ↔
      ∃ at', (.mark label, at') ∈ code.tokens place ∧ at'.offset = offset := by
  rw [← filterMap_placement?, List.mem_filterMap]
  constructor
  · rintro ⟨⟨token, at'⟩, mem, found⟩
    cases token <;> cases found
    exact ⟨at', mem, rfl⟩
  · rintro ⟨at', mem, rfl⟩
    exact ⟨_, mem, rfl⟩

/-- The labels that a layout places, the last one first. -/
theorem map_fst_layout (code : Code) :
    code.layout.placements.map Prod.fst = code.marks.reverse := by
  rw [layout, List.map_reverse, map_fst_placements]

/-- Code without repeated labels has no repeated labels in its layout. -/
theorem nodup_placements (nodup : code.marks.Nodup) :
    (code.layout.placements.map Prod.fst).Nodup := by
  rw [map_fst_layout]
  exact List.nodup_reverse.mpr nodup

/-- A label of code has a place in the layout. -/
theorem exists_placement {label : LabelKey} (mem : label ∈ code.marks) :
    ∃ offset, code.layout.placement? label = some offset := by
  rw [← List.mem_reverse, ← map_fst_layout] at mem
  cases found : code.layout.placement? label with
  | some offset => exact ⟨offset, rfl⟩
  | none => exact (lookup_eq_none.mp found mem).elim

/-- A label of code without repeated labels has the place at which it is listed. -/
theorem placement?_layout_iff (nodup : code.marks.Nodup) {label : LabelKey} {offset : Nat} :
    code.layout.placement? label = some offset ↔ (label, offset) ∈ code.placements 0 := by
  rw [Layout.placement?, lookup_eq_some (nodup_placements nodup), layout, List.mem_reverse]

/-- A label of code without repeated labels has the offset of its token. -/
theorem placement?_layout (nodup : code.marks.Nodup) {label : LabelKey} {place at' : Place}
    (first : place.offset = 0) (mem : (.mark label, at') ∈ code.tokens place) :
    code.layout.placement? label = some at'.offset := by
  rw [placement?_layout_iff nodup, ← first]
  exact (mem_placements_iff place).mpr ⟨at', mem, rfl⟩

theorem offsetOf_eq (nodup : code.marks.Nodup) {label : LabelKey} {place at' : Place}
    (first : place.offset = 0) (mem : (.mark label, at') ∈ code.tokens place) :
    code.offsetOf label = at'.offset := by
  rw [offsetOf, placement?_layout nodup first mem]
  rfl

/-- The layout that code gives rise to behind what a layout already holds. -/
def layoutFrom (before : Layout) (code : Code) : Layout where
  instructions := before.instructions ++ (code.instrs.map (·.2.mapTargets fun _ ↦ 0)).toArray
  placements := (code.placements before.offset).reverse ++ before.placements
  fixups := before.fixups ++
    ((code.instrs.zipIdx before.offset).flatMap fun (entry, place) ↦ entry.2.fixups place).toArray

/-- The instructions of the code take one offset each. -/
theorem offset_layoutFrom (before : Layout) (code : Code) :
    (code.layoutFrom before).offset = before.offset + code.size := by
  simp [layoutFrom, Layout.offset, length_instrs]

/-- Code in sequence is laid out in sequence. -/
theorem layoutFrom_append (before : Layout) (first second : Code) :
    (append first second).layoutFrom before = second.layoutFrom (first.layoutFrom before) := by
  have offset := first.offset_layoutFrom before
  rw [layoutFrom, layoutFrom.eq_def (first.layoutFrom before), offset]
  simp [layoutFrom, instrs, placements, List.zipIdx_append, length_instrs]

/-- The labels placed behind a layout are those of the layout and of the code. -/
theorem map_fst_layoutFrom (before : Layout) (code : Code) :
    (code.layoutFrom before).placements.map Prod.fst =
      code.marks.reverse ++ before.placements.map Prod.fst := by
  rw [layoutFrom, List.map_append, List.map_reverse, map_fst_placements]

/-- Code whose labels are different from each other and from those placed before is laid out. -/
theorem lay_eq (code : Code) (before : Layout)
    (nodup : (before.placements.map Prod.fst ++ code.marks).Nodup) :
    code.lay before = .ok (code.layoutFrom before) := by
  -- Two codes, one laid out behind the other.
  have both {first second : Code}
      (ihFirst : ∀ before : Layout, (before.placements.map Prod.fst ++ first.marks).Nodup →
        first.lay before = .ok (first.layoutFrom before))
      (ihSecond : ∀ before : Layout, (before.placements.map Prod.fst ++ second.marks).Nodup →
        second.lay before = .ok (second.layoutFrom before))
      (before : Layout)
      (nodup : (before.placements.map Prod.fst ++ (first.marks ++ second.marks)).Nodup) :
      (first.lay before >>= second.lay) = .ok ((append first second).layoutFrom before) := by
    rw [← List.append_assoc] at nodup
    rw [ihFirst before (List.Nodup.of_append_left nodup), layoutFrom_append]
    show second.lay _ = _
    rw [ihSecond]
    rw [map_fst_layoutFrom]
    refine (List.Perm.nodup_iff ?_).mpr nodup
    refine List.Perm.append_right _ ?_
    exact ((List.reverse_perm _).append_right _).trans List.perm_append_comm
  induction code generalizing before with
  | nothing | note => simp [lay, layoutFrom, instrs, placements]
  | instr source operation =>
    simp [lay, layoutFrom, instrs, placements, Layout.emitLabeled]
  | mark label =>
    have absent : before.placement? label = none := by
      rw [Layout.placement?, lookup_eq_none]
      intro mem
      rw [marks, List.nodup_append] at nodup
      exact nodup.2.2 _ mem _ (List.mem_singleton_self _) rfl
    simp [lay, layoutFrom, Layout.place, absent, instrs, placements]
  | append first second ihFirst ihSecond => exact both ihFirst ihSecond before nodup
  | statement stmt inner ih => exact ih before nodup
  | region head inner ih => exact ih before nodup
  | handled head inner handler ihInner ihHandler => exact both ihInner ihHandler before nodup

/-- Code without repeated labels is laid out from the start. -/
theorem lay_empty (nodup : code.marks.Nodup) : code.lay .empty = .ok code.layout := by
  rw [lay_eq code .empty nodup]
  simp [layout, layoutFrom, Layout.empty, Layout.offset]

/-- The layout of code is made of the instructions of the code. -/
theorem madeOf_layout (code : Code) :
    code.layout.MadeOf (code.instrs.map fun entry ↦ .labeled entry.2) where
  instructions := by
    rw [layout, List.toList_toArray, List.map_map]
    rfl
  fixups := by
    rw [layout, List.toList_toArray, List.zipIdx_map, List.flatMap_map]
    rfl

/-- A label is mentioned in a layout if an instruction of the code names it. -/
theorem mentions_layout {label : LabelKey} :
    code.layout.mentions label = true ↔ ∃ entry ∈ code.instrs, label ∈ entry.2.targets := by
  simp only [code.madeOf_layout.mentions_iff, List.mem_map, exists_exists_and_eq_and]
  rfl

/-- An offset is targeted in a layout if an instruction of the code names a label there. -/
theorem targets_layout (nodup : code.marks.Nodup) {offset : Nat} :
    code.layout.targets offset = true ↔ ∃ entry ∈ code.instrs, ∃ label ∈ entry.2.targets,
      (label, offset) ∈ code.placements 0 := by
  simp only [code.madeOf_layout.targets_iff, List.mem_map, exists_exists_and_eq_and,
    placement?_layout_iff nodup]
  rfl

end Code

/-- Labels that have a place are replaced by it. -/
theorem Instruction.mapTargetsM_locate {layout : Layout} {offsetOf : LabelKey → Nat}
    (operation : Instruction LabelKey)
    (placed : ∀ label ∈ operation.targets, layout.placement? label = some (offsetOf label)) :
    operation.mapTargetsM layout.locate = .ok (operation.mapTargets offsetOf) := by
  have locate {label : LabelKey} (mem : label ∈ operation.targets) :
      layout.locate label = .ok (offsetOf label) := by
    rw [Layout.locate, placed label mem]
  cases operation with
  | branch target | branchIf target | leave target =>
    have := locate (List.mem_singleton_self target)
    simp [mapTargets, mapTargetsM, this]
  | switch targets =>
    have : targets.mapM layout.locate = .ok (targets.map offsetOf) := by
      rw [Outcome.mapM_eq_ok]
      refine List.forall₂_map_right_iff.mpr ?_
      exact List.forall₂_same.mpr fun label mem ↦ locate mem
    simp [mapTargets, mapTargetsM, this]
  | _ => rfl

namespace Code

variable {code : Code}

/-- Code whose labels all have a place is linked. -/
theorem link_layout
    (placed : ∀ entry ∈ code.instrs, ∀ label ∈ entry.2.targets, label ∈ code.marks) :
    code.layout.link = .ok code.linked := by
  rw [code.madeOf_layout.link_eq, Outcome.mapM_eq_ok, linked, List.forall₂_map_left_iff,
    List.forall₂_map_right_iff]
  refine List.forall₂_same.mpr fun entry mem ↦ ?_
  refine Instruction.mapTargetsM_locate entry.2 fun label named ↦ ?_
  obtain ⟨offset, found⟩ := exists_placement (placed entry mem label named)
  rw [offsetOf, found]
  rfl

end Code
end ProtectedRegions
