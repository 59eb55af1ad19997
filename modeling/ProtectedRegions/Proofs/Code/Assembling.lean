import Mathlib.Data.List.Induction
import ProtectedRegions.Proofs.Code.Patching

/-!
# Assembling

What a layout answers after any sequence of calls, read off the calls alone. A label stands at the
number of instructions before the last call that places it, refused calls included. Linking gives
the instruction of each call with its labels replaced by where they stand, or reports the first
label that is named and placed by no call.
-/

namespace ProtectedRegions
namespace Layout

/-- A call that changes a layout. -/
inductive Call where
  | emit (instr : Instruction Nat)
  | branch (label : LabelKey)
  | branchIf (label : LabelKey)
  | leave (label : LabelKey)
  | switch (labels : List LabelKey)
  | place (label : LabelKey)
  deriving DecidableEq, Repr

/-- Carries out a call. A label that is refused moves nevertheless. -/
def perform (layout : Layout) : Call → Layout
  | .emit instr => layout.emit instr
  | .branch label => layout.emitLabeled (.branch label)
  | .branchIf label => layout.emitLabeled (.branchIf label)
  | .leave label => layout.emitLabeled (.leave label)
  | .switch labels => layout.emitLabeled (.switch labels)
  | .place label => (layout.place label).2

/-- The layout after a sequence of calls. -/
def ofCalls (calls : List Call) : Layout := calls.foldl perform empty

namespace Call

/-- Whether the call appends an instruction. -/
def emits : Call → Bool
  | place _ => false
  | _ => true

/-- The labels that the call names, slot by slot. -/
def labels : Call → List LabelKey
  | branch label | branchIf label | leave label => [label]
  | switch labels => labels
  | emit _ | place _ => []

/-- What the call appends. -/
def emission? : Call → Option Emission
  | emit instr => some (.fixed instr)
  | branch label => some (.labeled (.branch label))
  | branchIf label => some (.labeled (.branchIf label))
  | leave label => some (.labeled (.leave label))
  | switch labels => some (.labeled (.switch labels))
  | place _ => none

end Call

/-- The number of instructions before the last of the calls that places the label. -/
def PlacedAt (calls : List Call) (label : LabelKey) (offset : Nat) : Prop :=
  ∃ before after, calls = before ++ .place label :: after ∧ .place label ∉ after ∧
    offset = before.countP Call.emits

/-- The instruction that a call stands for once the labels are placed as the calls say. -/
inductive Assembles (calls : List Call) : Call → Instruction Nat → Prop
  | emit {instr : Instruction Nat} : Assembles calls (.emit instr) instr
  | branch {label : LabelKey} {offset : Nat} (placed : PlacedAt calls label offset) :
    Assembles calls (.branch label) (.branch offset)
  | branchIf {label : LabelKey} {offset : Nat} (placed : PlacedAt calls label offset) :
    Assembles calls (.branchIf label) (.branchIf offset)
  | leave {label : LabelKey} {offset : Nat} (placed : PlacedAt calls label offset) :
    Assembles calls (.leave label) (.leave offset)
  | switch {labels : List LabelKey} {offsets : List Nat}
      (placed : List.Forall₂ (PlacedAt calls) labels offsets) :
    Assembles calls (.switch labels) (.switch offsets)

/-- One more call is carried out last. -/
theorem ofCalls_concat (calls : List Call) (call : Call) :
    ofCalls (calls ++ [call]) = (ofCalls calls).perform call := by
  rw [ofCalls, List.foldl_append]
  rfl

/-- A layout is made of what the calls append. -/
theorem madeOf_ofCalls (calls : List Call) :
    (ofCalls calls).MadeOf (calls.filterMap Call.emission?) := by
  induction calls using List.reverseRecOn with
  | nil => exact madeOf_empty
  | append_singleton calls call ih =>
    rw [ofCalls_concat, List.filterMap_append]
    cases call with
    | emit instr => exact ih.emit instr
    | branch label => exact ih.emitLabeled (.branch label)
    | branchIf label => exact ih.emitLabeled (.branchIf label)
    | leave label => exact ih.emitLabeled (.leave label)
    | switch labels => exact ih.emitLabeled (.switch labels)
    | place label =>
      rw [show [Call.place label].filterMap Call.emission? = [] from rfl, List.append_nil]
      exact ih.place label

/-- A layout has an instruction for each call that emits. -/
theorem offset_ofCalls (calls : List Call) : (ofCalls calls).offset = calls.countP Call.emits := by
  rw [(madeOf_ofCalls calls).offset_eq, List.length_filterMap_eq_countP]
  refine List.countP_congr fun call _ ↦ ?_
  cases call <;> rfl

/-- A label that the last call places stands behind all instructions. -/
theorem placedAt_concat_place {calls : List Call} {label : LabelKey} {offset : Nat} :
    PlacedAt (calls ++ [.place label]) label offset ↔ offset = calls.countP Call.emits := by
  constructor
  · rintro ⟨before, after, split, last, rfl⟩
    rcases List.eq_nil_or_concat' after with rfl | ⟨after, call, rfl⟩
    · rw [(List.append_inj_left' split rfl)]
    · rw [← List.cons_append, ← List.append_assoc] at split
      cases List.append_inj_right' split rfl
      exact (last (by simp)).elim
  · rintro rfl
    exact ⟨calls, [], rfl, List.not_mem_nil, rfl⟩

/-- A call that does not place the label leaves it where it stands. -/
theorem placedAt_concat_of_ne {calls : List Call} {call : Call} {label : LabelKey} {offset : Nat}
    (other : call ≠ .place label) :
    PlacedAt (calls ++ [call]) label offset ↔ PlacedAt calls label offset := by
  constructor
  · rintro ⟨before, after, split, last, rfl⟩
    rcases List.eq_nil_or_concat' after with rfl | ⟨after, call', rfl⟩
    · cases List.append_inj_right' split rfl
      exact (other rfl).elim
    · rw [← List.cons_append, ← List.append_assoc] at split
      obtain rfl := List.append_inj_left' split rfl
      exact ⟨before, after, rfl, fun mem ↦ last (List.mem_append_left _ mem), rfl⟩
  · rintro ⟨before, after, rfl, last, rfl⟩
    refine ⟨before, after ++ [call], by simp, ?_, rfl⟩
    rw [List.mem_append, List.mem_singleton]
    exact not_or.mpr ⟨last, other.symm⟩

/-- The calls determine where a label stands. -/
theorem placement?_ofCalls {calls : List Call} {label : LabelKey} {offset : Nat} :
    (ofCalls calls).placement? label = some offset ↔ PlacedAt calls label offset := by
  induction calls using List.reverseRecOn with
  | nil =>
    constructor
    · nofun
    · rintro ⟨before, after, split, -⟩
      simp at split
  | append_singleton calls call ih =>
    rw [ofCalls_concat]
    by_cases placed : call = .place label
    · subst placed
      rw [placedAt_concat_place, perform, placement?_place, if_pos rfl, offset_ofCalls,
        Option.some_inj, eq_comm]
    · rw [placedAt_concat_of_ne placed, ← ih]
      cases call with
      | place other =>
        have different : label ≠ other := fun same ↦ placed (by rw [same])
        rw [perform, placement?_place, if_neg different]
      | _ => rfl

/-- A label stands somewhere if a call places it. -/
theorem exists_placedAt_iff {calls : List Call} {label : LabelKey} :
    (∃ offset, PlacedAt calls label offset) ↔ .place label ∈ calls := by
  constructor
  · rintro ⟨offset, before, after, rfl, -⟩
    exact List.mem_append_right _ List.mem_cons_self
  · intro mem
    induction calls using List.reverseRecOn with
    | nil => cases mem
    | append_singleton calls call ih =>
      by_cases placed : call = .place label
      · rw [placed]
        exact ⟨_, placedAt_concat_place.mpr rfl⟩
      · rw [List.mem_append, List.mem_singleton] at mem
        obtain ⟨offset, stands⟩ := ih (mem.resolve_right (placed ∘ Eq.symm))
        exact ⟨offset, (placedAt_concat_of_ne placed).mpr stands⟩

/-- A label is located where it stands. -/
theorem locate_ofCalls {calls : List Call} {label : LabelKey} {offset : Nat} :
    (ofCalls calls).locate label = .ok offset ↔ PlacedAt calls label offset := by
  rw [← placement?_ofCalls, locate]
  cases (ofCalls calls).placement? label <;> simp

/-- A label that no call places is reported. -/
theorem locate_ofCalls_eq_error {calls : List Call} {label : LabelKey} {error : Error} :
    (ofCalls calls).locate label = .error error ↔
      .place label ∉ calls ∧ error = unplaced label := by
  rw [← exists_placedAt_iff]
  simp only [← placement?_ofCalls]
  rw [locate]
  cases (ofCalls calls).placement? label <;> simp [eq_comm]

/-- The labels that the calls name are those of what they append. -/
theorem flatMap_labels (calls : List Call) :
    (calls.filterMap Call.emission?).flatMap Emission.labels = calls.flatMap Call.labels := by
  induction calls with
  | nil => rfl
  | cons call rest ih =>
    rw [List.flatMap_cons, ← ih]
    cases call <;> rfl

/-- A label is named by what the calls append if a call names it. -/
theorem exists_labels_iff {calls : List Call} {label : LabelKey} :
    (∃ emission ∈ calls.filterMap Call.emission?, label ∈ emission.labels) ↔
      ∃ call ∈ calls, label ∈ call.labels := by
  rw [← List.mem_flatMap, flatMap_labels, List.mem_flatMap]

/-- Resolving what a call appends gives the instruction that the call stands for. -/
theorem resolve_eq_ok_iff {calls : List Call} {call : Call} {emission : Emission}
    (appends : call.emission? = some emission) {instr : Instruction Nat} :
    emission.resolve (ofCalls calls) = .ok instr ↔ Assembles calls call instr := by
  cases call with
  | place label => cases appends
  | emit other =>
    cases appends
    rw [Emission.resolve, Except.ok.injEq]
    exact ⟨fun same ↦ same ▸ .emit, fun assembles ↦ by cases assembles; rfl⟩
  | branch label | branchIf label | leave label =>
    cases appends
    simp only [Emission.resolve, Instruction.mapTargetsM, Outcome.bind_eq_ok, Outcome.pure_eq_ok,
      locate_ofCalls]
    constructor
    · rintro ⟨offset, placed, rfl⟩
      constructor
      exact placed
    · intro assembles
      cases assembles
      next placed => exact ⟨_, placed, rfl⟩
  | switch labels =>
    cases appends
    simp only [Emission.resolve, Instruction.mapTargetsM, Outcome.bind_eq_ok, Outcome.pure_eq_ok,
      Outcome.mapM_eq_ok, locate_ofCalls]
    constructor
    · rintro ⟨offsets, placed, rfl⟩
      exact .switch placed
    · intro assembles
      cases assembles
      next placed => exact ⟨_, placed, rfl⟩

/-- A linked stream holds the instruction of each call that emits, in order. -/
theorem link_ofCalls {calls : List Call} {stream : List (Instruction Nat)} :
    (ofCalls calls).link = .ok stream ↔
      List.Forall₂ (Assembles calls) (calls.filter Call.emits) stream := by
  rw [(madeOf_ofCalls calls).link_eq, Outcome.mapM_eq_ok]
  -- The calls that are gone through are part of those that place the labels.
  suffices ∀ part : List Call,
      List.Forall₂ (fun emission instr ↦ Emission.resolve (ofCalls calls) emission = .ok instr)
        (part.filterMap Call.emission?) stream ↔
          List.Forall₂ (Assembles calls) (part.filter Call.emits) stream from this calls
  intro part
  induction part generalizing stream with
  | nil => exact List.forall₂_nil_left_iff.trans List.forall₂_nil_left_iff.symm
  | cons call rest ih =>
    cases appends : call.emission? with
    | none =>
      have silent : call.emits = false := by
        cases call <;> first | rfl | cases appends
      rw [List.filterMap_cons_none appends, List.filter_cons_of_neg (by simp [silent]), ih]
    | some emission =>
      have emits : call.emits = true := by
        cases call <;> first | rfl | cases appends
      rw [List.filterMap_cons_some appends, List.filter_cons_of_pos emits,
        List.forall₂_cons_left_iff, List.forall₂_cons_left_iff]
      simp only [resolve_eq_ok_iff appends, ih]

/-- A layout is linked if every label that a call names is placed by a call. -/
theorem exists_link_ofCalls {calls : List Call} :
    (∃ stream, (ofCalls calls).link = .ok stream) ↔
      ∀ call ∈ calls, ∀ label ∈ call.labels, .place label ∈ calls := by
  rw [(madeOf_ofCalls calls).exists_link_iff, flatMap_labels, Outcome.exists_mapM_eq_ok]
  simp only [locate_ofCalls, exists_placedAt_iff, List.mem_flatMap]
  grind

/-- Linking reports the first label that a call names and none places. -/
theorem link_ofCalls_eq_error {calls : List Call} {error : Error} :
    (ofCalls calls).link = .error error ↔
      ∃ before label after, calls.flatMap Call.labels = before ++ label :: after ∧
        (∀ other ∈ before, .place other ∈ calls) ∧ .place label ∉ calls ∧
          error = unplaced label := by
  rw [(madeOf_ofCalls calls).link_eq_error_iff, flatMap_labels, Outcome.mapM_eq_error]
  simp only [locate_ofCalls, exists_placedAt_iff, locate_ofCalls_eq_error]

/-- Placing a label is refused, with the place it had and the place it has now, if a call placed
it before. -/
theorem place_ofCalls {calls : List Call} {label : LabelKey} {error : Error} :
    ((ofCalls calls).place label).1 = .error error ↔ ∃ first, PlacedAt calls label first ∧
      error = .malformed (.labelPlacedTwice label first (calls.countP Call.emits)) := by
  simp only [← placement?_ofCalls]
  rw [place, ← offset_ofCalls]
  cases (ofCalls calls).placement? label <;> simp [eq_comm]

/-- A user label and any other label have errors of their own. -/
theorem eq_unplaced_iff {label : LabelKey} {error : Error} :
    error = unplaced label ↔ (∃ name, label = .user name ∧ error = .unresolvedLabel name) ∨
      (∀ name, label ≠ .user name) ∧ error = .malformed (.labelNeverPlaced label) := by
  cases label <;> simp [unplaced]

/-- Labels are mentioned if a call names them. -/
theorem mentions_ofCalls {calls : List Call} {label : LabelKey} :
    (ofCalls calls).mentions label = true ↔ ∃ call ∈ calls, label ∈ call.labels := by
  rw [(madeOf_ofCalls calls).mentions_iff, exists_labels_iff]

/-- Offsets are targeted if a call names a label that stands there. -/
theorem targets_ofCalls {calls : List Call} {offset : Nat} :
    (ofCalls calls).targets offset = true ↔
      ∃ call ∈ calls, ∃ label ∈ call.labels, PlacedAt calls label offset := by
  rw [(madeOf_ofCalls calls).targets_iff]
  simp only [placement?_ofCalls]
  constructor
  · rintro ⟨emission, mem, label, named, placed⟩
    obtain ⟨call, mem, named⟩ := exists_labels_iff.mp ⟨emission, mem, named⟩
    exact ⟨call, mem, label, named, placed⟩
  · rintro ⟨call, mem, label, named, placed⟩
    obtain ⟨emission, mem, named⟩ := exists_labels_iff.mpr ⟨call, mem, named⟩
    exact ⟨emission, mem, label, named, placed⟩

/-- After any sequence of calls, placing a label is refused exactly if a call placed it before.
The layout is linked exactly if every label that is named is placed, into the instruction of each
call with its labels replaced by their last places, and else reports the first label in the order
of the slots that is not placed; a fixup always finds its slot. The labels that are mentioned and
the offsets that are targeted are those of the slots of all calls. -/
theorem ofCalls_assembles (calls : List Call) :
    (∀ label, ((ofCalls calls).place label).1 = .ok () ↔ .place label ∉ calls) ∧
      (∀ label error, ((ofCalls calls).place label).1 = .error error ↔
        ∃ first, PlacedAt calls label first ∧
          error = .malformed (.labelPlacedTwice label first (calls.countP Call.emits))) ∧
      ((∃ stream, (ofCalls calls).link = .ok stream) ↔
        ∀ call ∈ calls, ∀ label ∈ call.labels, .place label ∈ calls) ∧
      (∀ stream, (ofCalls calls).link = .ok stream ↔
        List.Forall₂ (Assembles calls) (calls.filter Call.emits) stream) ∧
      (∀ error, (ofCalls calls).link = .error error ↔
        ∃ before label after, calls.flatMap Call.labels = before ++ label :: after ∧
          (∀ other ∈ before, .place other ∈ calls) ∧ .place label ∉ calls ∧
            ((∃ name, label = .user name ∧ error = .unresolvedLabel name) ∨
              (∀ name, label ≠ .user name) ∧ error = .malformed (.labelNeverPlaced label))) ∧
      (∀ place slot, (ofCalls calls).link ≠ .error (.malformed (.noTargetSlot place slot))) ∧
      (∀ label, (ofCalls calls).mentions label = true ↔ ∃ call ∈ calls, label ∈ call.labels) ∧
      ∀ offset, (ofCalls calls).targets offset = true ↔
        ∃ call ∈ calls, ∃ label ∈ call.labels, PlacedAt calls label offset := by
  refine ⟨fun label ↦ ?_, fun label error ↦ place_ofCalls, exists_link_ofCalls,
    fun stream ↦ link_ofCalls, fun error ↦ ?_, fun place slot failed ↦ ?_,
    fun label ↦ mentions_ofCalls, fun offset ↦ targets_ofCalls⟩
  · rw [← exists_placedAt_iff]
    simp only [← placement?_ofCalls]
    rw [place]
    cases (ofCalls calls).placement? label <;> simp
  · simp only [link_ofCalls_eq_error, eq_unplaced_iff]
  · obtain ⟨_, label, _, -, -, -, same⟩ := link_ofCalls_eq_error.mp failed
    cases label <;> cases same

/-- A label that is placed twice, and named twice by a switch between its places. -/
example : (ofCalls [.place (.user ⟨0⟩), .switch [.user ⟨0⟩, .methodExit, .user ⟨0⟩],
    .place (.user ⟨0⟩), .emit .ret, .place .methodExit]).link = .ok [.switch [1, 2, 1], .ret] := rfl

end Layout
end ProtectedRegions
