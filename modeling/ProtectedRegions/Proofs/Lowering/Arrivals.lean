import ProtectedRegions.Proofs.Lowering.Bounds

/-!
# Where labels stand

Each label of a method stands at the node that control arrives at when it is branched to, and
the guards around it are those of the statement that it belongs to.
-/

namespace ProtectedRegions

/-- The node at which a label of a statement stands. -/
def LabelKey.nodeOf (stmt : StmtId) : LabelKey → FlowNode
  | .user _ => .entry stmt
  | .head loop => .entry loop
  | .caseOf part | .elseOf part => .entry part
  | .endOf owner => .ending owner
  | .methodExit => .exit stmt

namespace Flow

variable {flow : Flow} {config : Config}

theorem placedItems_template (config : Config) (scopes : List StmtId) (stmt : StmtId)
    (shape : Statement) (offset : Nat) :
    (flow.template config scopes stmt shape).placedItems offset =
      (flow.shapeCode config (flow.emit config) scopes stmt shape).placedItems offset :=
  flow.template_elim config scopes stmt shape (motive := fun code ↦ code.placedItems offset = _)
    rfl fun _ ↦ rfl

theorem size_template (config : Config) (scopes : List StmtId) (stmt : StmtId)
    (shape : Statement) : (flow.template config scopes stmt shape).size =
      (flow.shapeCode config (flow.emit config) scopes stmt shape).size :=
  flow.template_elim config scopes stmt shape (motive := fun code ↦ code.size = _)
    (Nat.zero_add _) fun _ ↦ Nat.zero_add _

/-- The start of a statement stands where the statement does. -/
theorem entry_mem_emit (config : Config) (tree : flow.body.IsTree) {stmt : StmtId}
    (has : flow.body.has stmt = true) (scopes : List StmtId) (offset : Nat) :
    (.node (.entry stmt), offset) ∈ (flow.emit config stmt scopes).placedItems offset := by
  obtain ⟨shape, found⟩ := Body.has_iff_get?.mp has
  rw [emit_eq config tree found]
  exact List.mem_cons_self

/-- The labels of code stand at their nodes among the given items. -/
private def Hits (stmt : StmtId) (items : List (Item × Nat)) (code : Code) (place : Place) : Prop :=
  ∀ label at', (.mark label, at') ∈ code.own place →
    (.node (label.nodeOf stmt), at'.offset) ∈ items

section Shapes

variable {stmt : StmtId} {items : List (Item × Nat)} {place : Place}

private theorem Hits.append {first second : Code} (hits : Hits stmt items first place)
    (hits' : Hits stmt items second (place.after first)) :
    Hits stmt items (first ++ second) place :=
  fun label at' mem ↦ (List.mem_append.mp mem).elim (hits label at') (hits' label at')

private theorem Hits.mark {label : LabelKey}
    (stands : (.node (label.nodeOf stmt), place.offset) ∈ items) :
    Hits stmt items (.mark label) place := by
  intro label' at' mem
  cases List.mem_singleton.mp mem
  exact stands

private theorem Hits.of_ownMarks {code : Code} (none : code.ownMarks = []) :
    Hits stmt items code place := by
  intro label at' mem
  have mem := Code.mem_ownMarks.mpr ⟨at', mem⟩
  rw [none] at mem
  cases mem

private theorem Hits.onlyIf_instr (condition : Bool) (source : StmtId)
    (operation : Instruction LabelKey) :
    Hits stmt items (.onlyIf condition (.instr source operation)) place :=
  .of_ownMarks (by cases condition <;> rfl)

private theorem Hits.emit (tree : flow.body.IsTree) {child : StmtId}
    (has : flow.body.has child = true) (scopes : List StmtId) :
    Hits stmt items (flow.emit config child scopes) place := by
  intro label at' mem
  rw [own_emit config tree has] at mem
  cases mem

/-- A label behind all code of its statement stands at the end of the statement. -/
private theorem Hits.last {code : Code}
    (hits : Hits stmt ((Code.statement stmt (code ++ .mark (.endOf stmt))).placedItems place.offset)
      code place) :
    Hits stmt ((Code.statement stmt (code ++ .mark (.endOf stmt))).placedItems place.offset)
      (code ++ .mark (.endOf stmt)) place :=
  hits.append (.mark (List.mem_cons_of_mem _ (List.mem_append_right _ (List.mem_singleton_self _))))

variable (tree : flow.body.IsTree) {scopes : List StmtId}

include tree

private theorem hits_conditionalCode {thenBranch : StmtId} {elseBranch : Option StmtId}
    (has : ∀ child ∈ thenBranch :: elseBranch.toList, flow.body.has child = true) :
    Hits stmt ((Code.statement stmt (flow.conditionalCode (flow.emit config · scopes) stmt
      thenBranch elseBranch)).placedItems place.offset)
      (flow.conditionalCode (flow.emit config · scopes) stmt thenBranch elseBranch) place := by
  have first := has thenBranch List.mem_cons_self
  cases elseBranch with
  | none => exact .last (.append (.of_ownMarks rfl) (.emit tree first scopes))
  | some elseBranch =>
    have second := has elseBranch (List.mem_cons_of_mem _ (List.mem_singleton_self _))
    refine .last (.append (.append (.append (.append (.of_ownMarks rfl) (.emit tree first scopes))
      (.onlyIf_instr _ _ _)) (.mark ?_)) (.emit tree second scopes))
    apply List.mem_cons_of_mem
    apply List.mem_append_left
    apply List.mem_append_left
    apply List.mem_append_right
    exact entry_mem_emit config tree second scopes _

private theorem hits_loopCode {condition : Condition} {body : StmtId}
    (has : flow.body.has body = true) :
    Hits stmt ((Code.statement stmt (flow.loopCode (flow.emit config · scopes) stmt condition
      body)).placedItems place.offset)
      (flow.loopCode (flow.emit config · scopes) stmt condition body) place :=
  .last (.append (.append (.append (.mark List.mem_cons_self) (.onlyIf_instr _ _ _))
    (.emit tree has scopes)) (.onlyIf_instr _ _ _))

/-- The labels in front of the sections of a switch stand where the sections start. -/
private theorem hits_sections {sections : List StmtId}
    (has : ∀ part ∈ sections, flow.body.has part = true)
    (within : ∀ entry ∈ (Code.concat (sections.map fun part ↦
      Code.mark (.caseOf part) ++ flow.emit config part scopes ++ Code.onlyIf (flow.runsOn part)
        (.instr stmt (.branch (.endOf stmt))))).placedItems place.offset, entry ∈ items) :
    Hits stmt items (Code.concat (sections.map fun part ↦
      Code.mark (.caseOf part) ++ flow.emit config part scopes ++ Code.onlyIf (flow.runsOn part)
        (.instr stmt (.branch (.endOf stmt))))) place := by
  induction sections generalizing place with
  | nil => exact .of_ownMarks rfl
  | cons part rest ih =>
    have head := has part List.mem_cons_self
    refine .append (.append (.append (.mark (within _ ?_)) (.emit tree head scopes))
      (.onlyIf_instr _ _ _)) (ih (fun other mem ↦ has other (List.mem_cons_of_mem _ mem))
        fun entry mem ↦ within entry (List.mem_append_right _ mem))
    apply List.mem_append_left
    apply List.mem_append_left
    exact entry_mem_emit config tree head scopes _

private theorem hits_switchCode {sections : List StmtId} {default : Option Nat}
    (has : ∀ part ∈ sections, flow.body.has part = true) :
    Hits stmt ((Code.statement stmt (flow.switchCode (flow.emit config · scopes) stmt sections
      default)).placedItems place.offset)
      (flow.switchCode (flow.emit config · scopes) stmt sections default) place := by
  refine .last (.append (.of_ownMarks rfl) (hits_sections tree has fun entry mem ↦ ?_))
  apply List.mem_cons_of_mem
  apply List.mem_append_left
  apply List.mem_append_left
  apply List.mem_append_right
  exact mem

end Shapes

/-- The labels of a template stand at their nodes. -/
theorem stands_own_template (config : Config) (tree : flow.body.IsTree) {stmt : StmtId}
    {shape : Statement} (found : flow.body.get? stmt = some shape) (scopes : List StmtId)
    {place at' : Place} {label : LabelKey}
    (mem : (.mark label, at') ∈ (flow.template config scopes stmt shape).own place) :
    (.node (label.nodeOf stmt), at'.offset) ∈
      (flow.emit config stmt scopes).placedItems place.offset := by
  have has {child : StmtId} (mem : child ∈ shape.children) : flow.body.has child = true :=
    tree.has_child (Body.mem_children_of_get? found mem)
  have listed := ownMarks_shapeCode config tree found scopes
  rw [own_template] at mem
  rw [emit_eq config tree found, Code.placedItems, placedItems_template, size_template]
  change _ ∈ (Code.statement stmt (flow.shapeCode config (flow.emit config) scopes stmt
    shape)).placedItems place.offset
  refine (?_ : Hits stmt _ _ place) label at' mem
  -- All labels of the code but the last are its own too.
  have before {code : Code} (split : flow.shapeCode config (flow.emit config) scopes stmt shape =
      code ++ .mark (.endOf stmt)) (labels : shape.labels stmt = [.endOf stmt]) :
      code.ownMarks = [] := by
    rw [split, Code.ownMarks_append, labels] at listed
    exact List.append_cancel_right listed
  cases shape with
  | conditional condition thenBranch elseBranch => exact hits_conditionalCode tree fun child ↦ has
  | tryBlock parts => exact .last (.of_ownMarks (before rfl rfl))
  | synthetic kind body => exact .last (.of_ownMarks (before rfl rfl))
  | labeled name body =>
    exact .append (.mark List.mem_cons_self) (.emit tree (has List.mem_cons_self) scopes)
  | loop condition body => exact hits_loopCode tree (has List.mem_cons_self)
  | switch sections default => exact hits_switchCode tree fun part ↦ has
  | block | expression | jump | throwException | rethrow | lambda => exact .of_ownMarks listed

/-- The place of the code of a method inside the region of the method. -/
def methodPlace (flow : Flow) (config : Config) (root : StmtId) : Place :=
  (⟨0, 0, []⟩ : Place).within (flow.methodHead root) (flow.methodCode config root)

variable {root : StmtId}

/-- What stands in the code of a method without its epilogue stands in all of it. -/
theorem tokens_methodCode {start : Place} {entry : Token × Place}
    (mem : entry ∈ (flow.emit config root []).tokens start) :
    entry ∈ (flow.methodCode config root).tokens start :=
  List.mem_append_left _ mem

namespace Accepted

variable (accepted : flow.Accepted) (member : root ∈ flow.body.methods)

include accepted member

/-- A label has the offset of its token. -/
theorem offsetOf_eq {start : Place} (first : start.offset = 0) {label : LabelKey} {at' : Place}
    (mem : (.mark label, at') ∈ (flow.methodCode config root).tokens start) :
    (flow.methodCode config root).offsetOf label = at'.offset :=
  Code.offsetOf_eq (nodup_marks_methodCode config accepted.wellFormed member) first mem

/-- A label of a statement stands at its node, behind the guards of the statement. -/
theorem stands_label {start : Place} (first : start.offset = 0) {stmt : StmtId}
    {scopes : List StmtId} {place : Place} {shape : Statement}
    (laid : flow.Laid config root start stmt scopes place)
    (found : flow.body.get? stmt = some shape) {label : LabelKey}
    (mem : label ∈ shape.labels stmt) :
    ∃ at', (.mark label, at') ∈ (flow.methodCode config root).tokens start ∧
      at'.offset = (flow.methodCode config root).offsetOf label ∧ at'.guards = place.guards ∧
      flow.Stands config root (.node (label.nodeOf stmt)) at'.offset := by
  have tree := accepted.wellFormed.toIsTree
  obtain ⟨at', own, token, around⟩ := laid.mark_mem tree found mem
  have token := tokens_methodCode token
  refine ⟨at', token, (accepted.offsetOf_eq member first token).symm, around, ?_⟩
  exact laid.stands tree first (stands_own_template config tree found scopes own)

/-- The label of a jump inside the method stands where the jump arrives. -/
theorem stands_arrival {start : Place} (first : start.offset = 0) {stmt : StmtId}
    {target : JumpTarget} (resolved : flow.target? stmt = some target)
    (stays : target.isReturn = false) {scopes : List StmtId} {place : Place}
    (laid : flow.Laid config root start target.scope scopes place) :
    ∃ at', (.mark target.labelKey, at') ∈ (flow.methodCode config root).tokens start ∧
      at'.offset = (flow.methodCode config root).offsetOf target.labelKey ∧
      at'.guards = place.guards ∧ flow.Stands config root (.node target.arrival) at'.offset := by
  obtain ⟨-, -, shape, found, named⟩ := accepted.labelKey_mem resolved stays
  have arrives : target.labelKey.nodeOf target.scope = target.arrival := by
    cases target <;> rfl
  rw [← arrives]
  exact accepted.stands_label member first laid found named

end Accepted
end Flow
end ProtectedRegions
