import ProtectedRegions.Code.Layout
import ProtectedRegions.Proofs.Outcome

/-!
# Patching

A layout is made of emissions: instructions over offsets, and instructions over labels that leave
a fixup for each slot. Patching the fixups one after the other is the same as going through the
emissions once, each label replaced by its place, up to the first label that has none. The slot of
a fixup is always there.
-/

namespace ProtectedRegions

/-- What is appended to a layout. -/
inductive Emission where
  /-- An instruction whose targets are offsets. -/
  | fixed (instr : Instruction Nat)
  /-- An instruction whose targets are labels. -/
  | labeled (instr : Instruction LabelKey)

namespace Emission

/-- The instruction before its fixups are patched. -/
def draft : Emission → Instruction Nat
  | fixed instr => instr
  | labeled instr => instr.mapTargets fun _ ↦ 0

/-- The labels that are named, slot by slot. -/
def labels : Emission → List LabelKey
  | fixed _ => []
  | labeled instr => instr.targets

/-- The fixups of an emission at an offset. -/
def fixups (offset : Nat) : Emission → List Fixup
  | fixed _ => []
  | labeled instr => instr.fixups offset

end Emission

/-- The place of a label, or the error of a label without one. -/
def Layout.locate (layout : Layout) (label : LabelKey) : Except Error Nat :=
  match layout.placement? label with
  | some offset => .ok offset
  | none => .error (unplaced label)

/-- The instruction after its fixups are patched. -/
def Emission.resolve (layout : Layout) : Emission → Except Error (Instruction Nat)
  | fixed instr => .ok instr
  | labeled instr => instr.mapTargetsM layout.locate

/-- The instructions and the fixups of a layout are those of the emissions. -/
structure Layout.MadeOf (layout : Layout) (emissions : List Emission) : Prop where
  instructions : layout.instructions.toList = emissions.map Emission.draft
  fixups : layout.fixups.toList =
    emissions.zipIdx.flatMap fun (emission, offset) ↦ emission.fixups offset

/-- The fixups of an instruction name its labels. -/
theorem Instruction.map_label_fixups (offset : Nat) (instr : Instruction LabelKey) :
    (instr.fixups offset).map (·.label) = instr.targets := by
  rw [fixups, List.map_map]
  exact List.zipIdx_map_fst 0 instr.targets

/-- The fixups of an emission name its labels. -/
theorem Emission.map_label_fixups (offset : Nat) (emission : Emission) :
    (emission.fixups offset).map (·.label) = emission.labels := by
  cases emission with
  | fixed instr => rfl
  | labeled instr => exact instr.map_label_fixups offset

namespace Layout

variable {layout : Layout} {emissions : List Emission}

/-- The layout without instructions is made of nothing. -/
theorem madeOf_empty : empty.MadeOf [] := ⟨rfl, rfl⟩

/-- A layout is made of as many emissions as it has instructions. -/
theorem MadeOf.offset_eq (made : layout.MadeOf emissions) : layout.offset = emissions.length := by
  rw [offset, ← Array.length_toList, made.instructions, List.length_map]

/-- An instruction over offsets is one more emission. -/
theorem MadeOf.emit (made : layout.MadeOf emissions) (instr : Instruction Nat) :
    (layout.emit instr).MadeOf (emissions ++ [.fixed instr]) where
  instructions := by
    rw [Layout.emit, Array.toList_push, made.instructions, List.map_append]
    rfl
  fixups := by
    rw [List.zipIdx_append, List.flatMap_append, ← made.fixups]
    exact (List.append_nil _).symm

/-- An instruction over labels is one more emission. -/
theorem MadeOf.emitLabeled (made : layout.MadeOf emissions) (instr : Instruction LabelKey) :
    (layout.emitLabeled instr).MadeOf (emissions ++ [.labeled instr]) where
  instructions := by
    rw [Layout.emitLabeled, Array.toList_push, made.instructions, List.map_append]
    rfl
  fixups := by
    rw [List.zipIdx_append, List.flatMap_append, ← made.fixups, Layout.emitLabeled,
      Array.toList_append, made.offset_eq]
    simp [Emission.fixups]

/-- Placing a label emits nothing. -/
theorem MadeOf.place (made : layout.MadeOf emissions) (label : LabelKey) :
    (layout.place label).2.MadeOf emissions := by
  unfold Layout.place
  split <;> exact ⟨made.instructions, made.fixups⟩

/-- The fixups name the labels of the emissions in order. -/
theorem MadeOf.map_label_fixups (made : layout.MadeOf emissions) :
    layout.fixups.toList.map (·.label) = emissions.flatMap Emission.labels := by
  rw [made.fixups, List.map_flatMap]
  simp only [Emission.map_label_fixups]
  conv_rhs => rw [← List.zipIdx_map_fst 0 emissions, List.flatMap_map]

/-- The labels that fixups wait for are those that the emissions name. -/
theorem MadeOf.exists_fixup_iff (made : layout.MadeOf emissions) {label : LabelKey} :
    (∃ fixup ∈ layout.fixups.toList, fixup.label = label) ↔
      ∃ emission ∈ emissions, label ∈ emission.labels := by
  rw [← List.mem_flatMap, ← made.map_label_fixups, List.mem_map]

/-- A label is mentioned if an emission names it. -/
theorem MadeOf.mentions_iff (made : layout.MadeOf emissions) {label : LabelKey} :
    layout.mentions label = true ↔ ∃ emission ∈ emissions, label ∈ emission.labels := by
  rw [← made.exists_fixup_iff, mentions, ← Array.any_toList, List.any_eq_true]
  simp only [beq_iff_eq]

/-- An offset is targeted if an emission names a label that is placed there. -/
theorem MadeOf.targets_iff (made : layout.MadeOf emissions) {offset : Nat} :
    layout.targets offset = true ↔
      ∃ emission ∈ emissions, ∃ label ∈ emission.labels, layout.placement? label = some offset := by
  rw [targets, ← Array.any_toList, List.any_eq_true]
  constructor
  · rintro ⟨fixup, mem, placed⟩
    obtain ⟨emission, listed, named⟩ := made.exists_fixup_iff.mp ⟨fixup, mem, rfl⟩
    exact ⟨emission, listed, _, named, beq_iff_eq.mp placed⟩
  · rintro ⟨emission, listed, label, named, placed⟩
    obtain ⟨fixup, mem, rfl⟩ := made.exists_fixup_iff.mpr ⟨emission, listed, named⟩
    exact ⟨fixup, mem, beq_iff_eq.mpr placed⟩

/-- Writing what is there already changes nothing. -/
private theorem setIfInBounds_of_getElem? {stream : Array (Instruction Nat)} {place : Nat}
    {instr : Instruction Nat} (found : stream[place]? = some instr) :
    stream.setIfInBounds place instr = stream := by
  obtain ⟨inside, rfl⟩ := Array.getElem?_eq_some_iff.mp found
  rw [Array.setIfInBounds_def, dif_pos inside, Array.set_getElem_self]

/-- A fixup whose slot is there is patched if its label has a place. -/
theorem patch_eq {stream : Array (Instruction Nat)} {place slot : Nat} {label : LabelKey}
    {instr : Instruction Nat} {filled : Nat → Instruction Nat}
    (found : stream[place]? = some instr)
    (fills : ∀ offset, instr.setTarget? slot offset = some (filled offset)) :
    layout.patch stream ⟨place, slot, label⟩ =
      (layout.locate label).map fun offset ↦ stream.setIfInBounds place (filled offset) := by
  rw [patch, locate]
  cases layout.placement? label with
  | none => rfl
  | some offset =>
    simp only [found, Option.bind_some, fills]
    rfl

/-- The remaining slots of a switch are patched one by one. -/
private theorem foldlM_patch_switch {stream : Array (Instruction Nat)} {place : Nat}
    {offsets : List Nat} (labels : List LabelKey)
    (found : stream[place]? = some (.switch (offsets ++ labels.map fun _ ↦ 0))) :
    ((labels.zipIdx offsets.length).map fun (label, slot) ↦ (⟨place, slot, label⟩ : Fixup)).foldlM
        layout.patch stream =
      (labels.mapM layout.locate).map fun later ↦
        stream.setIfInBounds place (.switch (offsets ++ later)) := by
  induction labels generalizing stream offsets with
  | nil =>
    rw [List.map_nil] at found
    exact congrArg Except.ok (setIfInBounds_of_getElem? found).symm
  | cons label rest ih =>
    have fills (offset : Nat) :
        (Instruction.switch (offsets ++ (label :: rest).map fun _ ↦ 0)).setTarget?
          offsets.length offset =
            some (.switch (offsets ++ [offset] ++ rest.map fun _ ↦ 0)) := by
      simp [Instruction.setTarget?]
    rw [List.zipIdx_cons, List.map_cons, List.foldlM_cons, List.mapM_cons, patch_eq found fills]
    cases layout.locate label with
    | error error => rfl
    | ok offset =>
      have inside := (Array.getElem?_eq_some_iff.mp found).1
      have later := @ih (stream.setIfInBounds place
        (.switch (offsets ++ [offset] ++ rest.map fun _ ↦ 0))) (offsets ++ [offset])
        (by rw [Array.getElem?_setIfInBounds_self, if_pos inside])
      rw [List.length_append, List.length_singleton] at later
      refine later.trans ?_
      simp only [Array.setIfInBounds_setIfInBounds, List.append_assoc, List.singleton_append]
      cases rest.mapM layout.locate <;> rfl

/-- The fixups of one emission are patched, slot by slot. -/
theorem foldlM_patch_fixups {stream : Array (Instruction Nat)} {place : Nat} (emission : Emission)
    (found : stream[place]? = some emission.draft) :
    (emission.fixups place).foldlM layout.patch stream =
      (emission.resolve layout).map fun instr ↦ stream.setIfInBounds place instr := by
  have unchanged {instr : Instruction Nat} (found : stream[place]? = some instr) :
      (.ok stream : Except Error _) = .ok (stream.setIfInBounds place instr) := by
    rw [setIfInBounds_of_getElem? found]
  cases emission with
  | fixed instr => exact unchanged found
  | labeled instr =>
    cases instr with
    | branch target | branchIf target | leave target =>
      have patched := @patch_eq layout _ _ 0 target _ _ found fun _ ↦ rfl
      simp only [Emission.fixups, Instruction.fixups, Instruction.targets, List.zipIdx_cons,
        List.zipIdx_nil, List.map_cons, List.map_nil, List.foldlM_cons, List.foldlM_nil, patched,
        Emission.resolve, Instruction.mapTargetsM]
      cases layout.locate target <;> rfl
    | switch targets =>
      refine (@foldlM_patch_switch layout _ _ [] targets ?_).trans ?_
      · rw [found]
        simp [Emission.draft, Instruction.mapTargets, Instruction.mapTargetsM]
      · simp only [Emission.resolve, Instruction.mapTargetsM, List.nil_append]
        cases targets.mapM layout.locate <;> rfl
    | _ => exact unchanged found

/-- Behind what is patched already, the fixups of the emissions are patched in order. -/
private theorem foldlM_patch {stream : Array (Instruction Nat)} (patched : List (Instruction Nat))
    (emissions : List Emission)
    (held : stream.toList = patched ++ emissions.map Emission.draft) :
    (((emissions.zipIdx patched.length).flatMap fun (emission, offset) ↦
        emission.fixups offset).foldlM layout.patch stream).map (·.toList) =
      (emissions.mapM (Emission.resolve layout)).map (patched ++ ·) := by
  induction emissions generalizing stream patched with
  | nil =>
    show Except.ok stream.toList = Except.ok (patched ++ [])
    rw [held, List.map_nil]
  | cons emission rest ih =>
    have found : stream[patched.length]? = some emission.draft := by
      rw [← Array.getElem?_toList, held, List.getElem?_append_right (Nat.le_refl _), Nat.sub_self]
      rfl
    rw [List.zipIdx_cons, List.flatMap_cons, List.foldlM_append, foldlM_patch_fixups _ found,
      List.mapM_cons]
    cases emission.resolve layout with
    | error error => rfl
    | ok instr =>
      have later := @ih (stream.setIfInBounds patched.length instr) (patched ++ [instr]) (by
        rw [Array.toList_setIfInBounds, held]
        simp)
      rw [List.length_append, List.length_singleton] at later
      refine later.trans ?_
      cases rest.mapM (Emission.resolve layout) with
      | error error => rfl
      | ok instrs => exact congrArg Except.ok (List.append_assoc ..)

/-- Linking goes through the emissions once. -/
theorem MadeOf.link_eq (made : layout.MadeOf emissions) :
    layout.link = emissions.mapM (Emission.resolve layout) := by
  have patched := @foldlM_patch layout _ [] emissions made.instructions
  rw [List.length_nil, ← made.fixups] at patched
  refine patched.trans ?_
  cases emissions.mapM (Emission.resolve layout) <;> rfl

/-- An emission is resolved if its labels are located, and fails as they do. -/
theorem map_resolve (layout : Layout) (emission : Emission) :
    (emission.resolve layout).map (fun _ ↦ ()) =
      (emission.labels.mapM layout.locate).map fun _ ↦ () := by
  cases emission with
  | fixed instr => rfl
  | labeled instr =>
    cases instr with
    | branch target | branchIf target | leave target =>
      simp only [Emission.resolve, Emission.labels, Instruction.mapTargetsM, Instruction.targets,
        List.mapM_cons, List.mapM_nil]
      cases layout.locate target <;> rfl
    | switch targets =>
      simp only [Emission.resolve, Emission.labels, Instruction.mapTargetsM, Instruction.targets]
      cases targets.mapM layout.locate <;> rfl
    | _ => rfl

/-- Linking succeeds if the labels of all emissions are located, and fails as they do. -/
theorem MadeOf.map_link (made : layout.MadeOf emissions) :
    layout.link.map (fun _ ↦ ()) =
      ((emissions.flatMap Emission.labels).mapM layout.locate).map fun _ ↦ () := by
  rw [made.link_eq]
  clear made
  induction emissions with
  | nil => rfl
  | cons emission rest ih =>
    have first := map_resolve layout emission
    rw [List.flatMap_cons, List.mapM_cons, List.mapM_append]
    revert first ih
    cases emission.resolve layout <;> cases emission.labels.mapM layout.locate <;>
      cases rest.mapM (Emission.resolve layout) <;>
        cases (rest.flatMap Emission.labels).mapM layout.locate <;>
          simp [Except.map, bind, Except.bind, pure, Except.pure]

/-- Linking succeeds if the labels of all emissions are located. -/
theorem MadeOf.exists_link_iff (made : layout.MadeOf emissions) :
    (∃ stream, layout.link = .ok stream) ↔
      ∃ offsets, (emissions.flatMap Emission.labels).mapM layout.locate = .ok offsets := by
  have alike := made.map_link
  revert alike
  cases layout.link <;> cases (emissions.flatMap Emission.labels).mapM layout.locate <;>
    simp [Except.map]

/-- Linking fails as locating the labels of all emissions does. -/
theorem MadeOf.link_eq_error_iff (made : layout.MadeOf emissions) {error : Error} :
    layout.link = .error error ↔
      (emissions.flatMap Emission.labels).mapM layout.locate = .error error := by
  have alike := made.map_link
  revert alike
  cases layout.link <;> cases (emissions.flatMap Emission.labels).mapM layout.locate <;>
    simp +contextual [Except.map]

end Layout
end ProtectedRegions
