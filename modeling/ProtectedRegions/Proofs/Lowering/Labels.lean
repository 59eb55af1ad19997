import ProtectedRegions.Proofs.Lowering.Laid

/-!
# Labels and instructions of templates

A template places the labels of its statement outside all regions of the statement. Its
instructions name these labels, or, for a jump, the label of the target. Every instruction but a
leave stands outside the regions of the statement too, if it names a label at all.
-/

namespace ProtectedRegions

/-- The labels that the template of a statement places. -/
def Statement.labels (stmt : StmtId) : Statement → List LabelKey
  | .conditional _ _ none | .tryBlock _ | .synthetic .. => [.endOf stmt]
  | .conditional _ _ (some elseBranch) => [.elseOf elseBranch, .endOf stmt]
  | .labeled label _ => [.user label]
  | .loop .. => [.head stmt, .endOf stmt]
  | .switch sections _ => sections.map .caseOf ++ [.endOf stmt]
  | _ => []

/-- The labels of a template are those of the outline of its shape. -/
theorem Statement.labels_eq (stmt : StmtId) (shape : Statement) :
    shape.labels stmt = (shape.outline stmt).filterMap Sum.getLeft? := by
  have statements (children : List StmtId) :
      (children.map Sum.inr).filterMap (Sum.getLeft? (α := LabelKey)) = [] :=
    List.filterMap_eq_nil_iff.mpr fun _ mem ↦ by
      obtain ⟨_, -, rfl⟩ := List.mem_map.mp mem
      rfl
  cases shape with
  | block children => exact (statements children).symm
  | conditional condition thenBranch elseBranch => cases elseBranch <;> rfl
  | tryBlock parts => rw [outline, List.filterMap_append, statements]; rfl
  | switch sections default =>
    rw [outline, List.filterMap_append, List.filterMap_flatMap, labels, List.map_eq_flatMap]
    rfl
  | _ => rfl

/-- Whether an instruction is a leave. -/
def Instruction.isLeave {τ : Type} : Instruction τ → Bool
  | .leave _ => true
  | _ => false

namespace Code

/-- The labels that belong to no statement inside the code. -/
def ownMarks : Code → List LabelKey
  | nothing | note _ | instr .. | statement .. => []
  | mark label => [label]
  | append first second => first.ownMarks ++ second.ownMarks
  | region _ inner => inner.ownMarks
  | handled _ inner handler => inner.ownMarks ++ handler.ownMarks

theorem ownMarks_append (first second : Code) :
    (first ++ second).ownMarks = first.ownMarks ++ second.ownMarks := rfl

/-- The labels of code are its own and those of the statements directly inside. -/
theorem marks_perm (code : Code) (place : Place) :
    code.marks.Perm (code.ownMarks ++ (code.nested place).flatMap (·.inner.marks)) := by
  have both {first second : Code} {place place' : Place}
      (ihFirst : first.marks.Perm
        (first.ownMarks ++ (first.nested place).flatMap (·.inner.marks)))
      (ihSecond : second.marks.Perm
        (second.ownMarks ++ (second.nested place').flatMap (·.inner.marks))) :
      (first.marks ++ second.marks).Perm (first.ownMarks ++ second.ownMarks ++
        (first.nested place ++ second.nested place').flatMap (·.inner.marks)) := by
    rw [List.perm_iff_count] at ihFirst ihSecond ⊢
    intro label
    have := ihFirst label
    have := ihSecond label
    simp only [List.count_append, List.flatMap_append] at *
    omega
  induction code generalizing place with
  | nothing | note | instr | mark => exact List.Perm.refl _
  | append first second ihFirst ihSecond => exact both (ihFirst _) (ihSecond _)
  | statement stmt inner ih => simp [marks, ownMarks, nested]
  | region head inner ih => exact ih _
  | handled head inner handler ihInner ihHandler => exact both (ihInner _) (ihHandler _)

/-- An own label is placed by an own token. -/
theorem mem_ownMarks {code : Code} {label : LabelKey} {place : Place} :
    label ∈ code.ownMarks ↔ ∃ at', (.mark label, at') ∈ code.own place := by
  induction code generalizing place with
  | nothing | note | instr | statement => simp [ownMarks, own]
  | mark other => simp [ownMarks, own]
  | append first second ihFirst ihSecond =>
    simp only [ownMarks, own, List.mem_append, exists_or, @ihFirst place,
      @ihSecond (place.after first)]
  | region head inner ih =>
    simp [ownMarks, own, @ih (place.within head inner)]
  | handled head inner handler ihInner ihHandler =>
    simp [ownMarks, own, exists_or, @ihInner (place.inBody head inner handler),
      @ihHandler (place.inHandler head inner handler)]

/-- The labels of an outline. -/
theorem ownMarks_eq (code : Code) : code.ownMarks = code.outline.filterMap Sum.getLeft? := by
  induction code <;> simp_all [ownMarks, outline]

/-- Events are no tokens. -/
theorem own_notes (events : List Event) (place : Place) : (notes events).own place = [] := by
  unfold notes
  induction events generalizing place with
  | nil => rfl
  | cons event rest ih => rw [List.map_cons, concat_cons, own, ih]; rfl

end Code

namespace Flow

variable {flow : Flow} {config : Config}

theorem own_template (scopes : List StmtId) (stmt : StmtId) (shape : Statement) (place : Place) :
    (flow.template config scopes stmt shape).own place =
      (flow.shapeCode config (flow.emit config) scopes stmt shape).own place :=
  flow.template_elim config scopes stmt shape (motive := fun code ↦ code.own place = _) rfl
    fun _ ↦ rfl

/-- The code of a statement has no tokens of its own outside of the bracket. -/
theorem own_emit (config : Config) (tree : flow.body.IsTree) {stmt : StmtId}
    (has : flow.body.has stmt = true) (scopes : List StmtId) (place : Place) :
    (flow.emit config stmt scopes).own place = [] := by
  obtain ⟨inner, code⟩ := exists_emit config tree has scopes
  rw [code]
  rfl

/-- A template places the labels of its statement. -/
theorem ownMarks_template (config : Config) (tree : flow.body.IsTree) {stmt : StmtId}
    {shape : Statement} (found : flow.body.get? stmt = some shape) (scopes : List StmtId) :
    (flow.template config scopes stmt shape).ownMarks = shape.labels stmt := by
  rw [Code.ownMarks_eq, outline_template config tree found, shape.labels_eq]

theorem ownMarks_shapeCode (config : Config) (tree : flow.body.IsTree) {stmt : StmtId}
    {shape : Statement} (found : flow.body.get? stmt = some shape) (scopes : List StmtId) :
    (flow.shapeCode config (flow.emit config) scopes stmt shape).ownMarks = shape.labels stmt := by
  rw [Code.ownMarks_eq, outline_shapeCode config tree found, shape.labels_eq]

/-- The region of the `finally` of a statement. -/
inductive OwnFinally (flow : Flow) (config : Config) (scopes : List StmtId) (stmt : StmtId)
    (place : Place) : Statement → Region → Prop
  | clause {parts : TryStatement} {body : StmtId}
      (handler : parts.handler = some ⟨.finallyBlock, body⟩) :
      OwnFinally flow config scopes stmt place (.tryBlock parts)
        (place.handled ⟨.finallyBlock, .user, stmt, none,
            flow.exits (.ofParts parts.protectedParts stmt stmt)⟩
          (flow.groupCode (flow.emit config) scopes stmt parts)
          (flow.handlerCode (flow.emit config) scopes stmt body))
  | cleanup {kind : SyntheticKind} {body : StmtId}
      (guarded : (flow.decideCleanup config kind stmt body).isProtected = true) :
      OwnFinally flow config scopes stmt place (.synthetic kind body)
        (place.handled ⟨.finallyBlock, .synthetic kind, stmt, none,
            flow.exits (.ofScope body stmt)⟩
          (.region ⟨.tryBlock, .synthetic kind, body, none, flow.exits (.ofScope body stmt)⟩
            (flow.protectedCode (flow.emit config) scopes stmt body))
          (.instr stmt (.cleanup stmt kind) ++ .instr stmt .endFinally))

/-- The instruction that a jump with the given target becomes. -/
inductive JumpsBy (flow : Flow) (scopes : List StmtId) : JumpTarget → Instruction LabelKey → Prop
  | ret {root : StmtId} (outermost : scopes = []) : JumpsBy flow scopes (.returnFrom root) .ret
  | leaveMethod {root : StmtId} (within : scopes ≠ []) :
    JumpsBy flow scopes (.returnFrom root) (.leave .methodExit)
  | branch {target : JumpTarget} (stays : target.isReturn = false)
      (holds : ∀ scope ∈ scopes, flow.contains scope target.scope = true) :
      JumpsBy flow scopes target (.branch target.labelKey)
  | leave {target : JumpTarget} (stays : target.isReturn = false)
      (left : ∃ scope ∈ scopes, flow.contains scope target.scope = false) :
      JumpsBy flow scopes target (.leave target.labelKey)

/-- The statement itself if it guards its parts with a `finally` region. -/
def guardedBy (flow : Flow) (config : Config) (stmt : StmtId) : Statement → List StmtId
  | .tryBlock parts => if parts.finallyBody?.isSome then [stmt] else []
  | .synthetic kind body =>
    if (flow.decideCleanup config kind stmt body).isProtected then [stmt] else []
  | _ => []

/-- The guards around one place are around another one, and those between the two are what the
owners protect. -/
def Behind (owners : List StmtId) (outer inner : Place) : Prop :=
  ∃ between, inner.guards = between ++ outer.guards ∧
    between.filterMap Guard.owner? = owners

/-- A region without a handler protects nothing for an owner. -/
theorem Behind.within {owners : List StmtId} {outer inner : Place}
    (behind : Behind owners outer inner) (head : RegionHead) (code : Code) :
    Behind owners outer (inner.within head code) := by
  obtain ⟨between, same, owned⟩ := behind
  have free : (inner.guard head code).owner? = none := if_neg fun form ↦ nomatch form.1
  exact ⟨inner.guard head code :: between, congrArg _ same, by
    rw [List.filterMap_cons_none free, owned]⟩

/-- Code that stands before has no guards around what follows. -/
theorem Behind.after {owners : List StmtId} {outer inner : Place}
    (behind : Behind owners outer inner) (code : Code) : Behind owners outer (inner.after code) :=
  behind

/-- The instruction of a template: a jump, or an instruction that names only labels of the
template. Other than a leave it stands outside all regions of the template if it names any. -/
inductive OwnInstr (flow : Flow) (config : Config) (scopes : List StmtId) (stmt : StmtId)
    (place : Place) : Statement → Instruction LabelKey → Place → Prop
  | plain {shape : Statement} {operation : Instruction LabelKey} {at' : Place}
      (targets : operation.targets = []) (form : shape.isJump = false) :
      OwnInstr flow config scopes stmt place shape operation at'
  | branch {shape : Statement} {operation : Instruction LabelKey} {at' : Place}
      (targets : ∀ label ∈ operation.targets, label ∈ shape.labels stmt)
      (form : shape.isJump = false) (stays : operation.isLeave = false)
      (around : at'.guards = place.guards) :
      OwnInstr flow config scopes stmt place shape operation at'
  | leave {shape : Statement} {at' : Place} (target : .endOf stmt ∈ shape.labels stmt)
      (form : shape.isJump = false)
      (behind : Behind (flow.guardedBy config stmt shape) place at') :
      OwnInstr flow config scopes stmt place shape (.leave (.endOf stmt)) at'
  | jump {form : Jump} {operation : Instruction LabelKey} {at' : Place} {target : JumpTarget}
      (resolved : flow.target? stmt = some target) (by' : flow.JumpsBy scopes target operation)
      (around : at'.guards = place.guards) (offset : at'.offset = place.offset) :
      OwnInstr flow config scopes stmt place (.jump form) operation at'

/-- What the tokens of a template are. -/
def OwnToken (flow : Flow) (config : Config) (scopes : List StmtId) (stmt : StmtId)
    (place : Place) (shape : Statement) : Token × Place → Prop
  | (.node _, _) => False
  | (.mark label, at') => label ∈ shape.labels stmt ∧ at'.guards = place.guards
  | (.instr source operation, at') =>
    source = stmt ∧ flow.OwnInstr config scopes stmt place shape operation at'
  | (.opens region, _) => region.kind ≠ .method ∧ (region.kind = .finallyBlock →
    flow.OwnFinally config scopes stmt place shape region)

/-- The code of a jump. -/
theorem jumpCode_eq (stmt : StmtId) (scopes : List StmtId) :
    (flow.target? stmt = none ∧ flow.jumpCode stmt scopes = .nothing) ∨
      ∃ target operation, flow.target? stmt = some target ∧
        flow.JumpsBy scopes target operation ∧ flow.jumpCode stmt scopes = .instr stmt operation := by
  unfold jumpCode
  cases resolved : flow.target? stmt with
  | none => exact .inl ⟨rfl, rfl⟩
  | some target =>
    refine .inr ?_
    cases target with
    | returnFrom root =>
      cases scopes with
      | nil => exact ⟨_, _, rfl, .ret rfl, rfl⟩
      | cons scope scopes => exact ⟨_, _, rfl, .leaveMethod (List.cons_ne_nil _ _), rfl⟩
    | _ =>
      simp only
      split
      · next holds =>
        exact ⟨_, _, rfl, .branch rfl (List.all_eq_true.mp holds), rfl⟩
      · next leaves =>
        refine ⟨_, _, rfl, .leave rfl ?_, rfl⟩
        simpa using leaves

/-- The tokens of code inside a template are what the shape says. -/
private def Fits (flow : Flow) (config : Config) (scopes : List StmtId) (stmt : StmtId)
    (place : Place) (shape : Statement) (code : Code) (inside : Place) : Prop :=
  ∀ entry ∈ code.own inside, flow.OwnToken config scopes stmt place shape entry

section Shapes

variable {stmt : StmtId} {shape : Statement} {scopes : List StmtId} {place inside : Place}

private theorem Fits.append {first second : Code}
    (left : flow.Fits config scopes stmt place shape first inside)
    (right : flow.Fits config scopes stmt place shape second (inside.after first)) :
    flow.Fits config scopes stmt place shape (first ++ second) inside :=
  List.forall_mem_append.mpr ⟨left, right⟩

private theorem Fits.concat {parts : List Code} {guards : List Guard}
    (each : ∀ code ∈ parts, ∀ inside : Place, inside.guards = guards →
      flow.Fits config scopes stmt place shape code inside)
    (around : inside.guards = guards) :
    flow.Fits config scopes stmt place shape (Code.concat parts) inside := by
  induction parts generalizing inside with
  | nil => exact List.forall_mem_nil _
  | cons first rest ih =>
    exact (each first List.mem_cons_self inside around).append
      (ih (fun code mem ↦ each code (List.mem_cons_of_mem _ mem)) around)

private theorem Fits.instr {operation : Instruction LabelKey}
    (fits : flow.OwnInstr config scopes stmt place shape operation inside) :
    flow.Fits config scopes stmt place shape (.instr stmt operation) inside :=
  List.forall_mem_singleton.mpr ⟨rfl, fits⟩

private theorem Fits.onlyIf {condition : Bool} {code : Code}
    (fits : flow.Fits config scopes stmt place shape code inside) :
    flow.Fits config scopes stmt place shape (.onlyIf condition code) inside := by
  cases condition with
  | false => exact List.forall_mem_nil _
  | true => exact fits

private theorem Fits.mark {label : LabelKey} (mem : label ∈ shape.labels stmt)
    (around : inside.guards = place.guards) :
    flow.Fits config scopes stmt place shape (.mark label) inside :=
  List.forall_mem_singleton.mpr ⟨mem, around⟩

private theorem Fits.notes (events : List Event) :
    flow.Fits config scopes stmt place shape (.notes events) inside := by
  rw [Fits, Code.own_notes]
  exact List.forall_mem_nil _

private theorem Fits.region {head : RegionHead} {code : Code}
    (plain : head.kind ≠ .method ∧ head.kind ≠ .finallyBlock)
    (within : flow.Fits config scopes stmt place shape code (inside.within head code)) :
    flow.Fits config scopes stmt place shape (.region head code) inside :=
  List.forall_mem_cons.mpr ⟨⟨plain.1, fun h ↦ absurd h plain.2⟩, within⟩

private theorem Fits.handled {head : RegionHead} {code handler : Code} (plain : head.kind ≠ .method)
    (own : head.kind = .finallyBlock →
      flow.OwnFinally config scopes stmt place shape (inside.handled head code handler))
    (inBody : flow.Fits config scopes stmt place shape code (inside.inBody head code handler))
    (inHandler : flow.Fits config scopes stmt place shape handler
      (inside.inHandler head code handler)) :
    flow.Fits config scopes stmt place shape (.handled head code handler) inside :=
  List.forall_mem_cons.mpr ⟨⟨plain, own⟩, List.forall_mem_append.mpr ⟨inBody, inHandler⟩⟩

variable (tree : flow.body.IsTree)

/-- The children of the statement have their tokens for themselves. -/
private theorem Fits.emit (tree : flow.body.IsTree) {child : StmtId}
    (has : flow.body.has child = true) (scopes' : List StmtId) :
    flow.Fits config scopes stmt place shape (flow.emit config child scopes') inside := by
  rw [Fits, own_emit config tree has]
  exact List.forall_mem_nil _

/-- A branch to a label of the statement from outside of its regions. -/
private theorem Fits.branch {operation : Instruction LabelKey}
    (targets : ∀ label ∈ operation.targets, label ∈ shape.labels stmt)
    (form : shape.isJump = false) (stays : operation.isLeave = false)
    (around : inside.guards = place.guards) :
    flow.Fits config scopes stmt place shape (.instr stmt operation) inside :=
  .instr (.branch targets form stays around)

include tree

private theorem fits_conditionalCode {condition : Condition} {thenBranch : StmtId}
    {elseBranch : Option StmtId}
    (has : ∀ child ∈ (Statement.conditional condition thenBranch elseBranch).children,
      flow.body.has child = true) (around : inside.guards = place.guards) :
    flow.Fits config scopes stmt place (.conditional condition thenBranch elseBranch)
      (flow.conditionalCode (flow.emit config · scopes) stmt thenBranch elseBranch) inside := by
  have first := has thenBranch List.mem_cons_self
  cases elseBranch with
  | none =>
    have ends : .endOf stmt ∈ (Statement.conditional condition thenBranch none).labels stmt :=
      List.mem_cons_self
    exact .append (.append (.branch (List.forall_mem_singleton.mpr ends) rfl rfl around)
      (.emit tree first scopes)) (.mark ends around)
  | some elseBranch =>
    have second := has elseBranch (List.mem_cons_of_mem _ (List.mem_singleton_self _))
    have other : .elseOf elseBranch ∈
        (Statement.conditional condition thenBranch (some elseBranch)).labels stmt :=
      List.mem_cons_self
    have ends : .endOf stmt ∈
        (Statement.conditional condition thenBranch (some elseBranch)).labels stmt :=
      List.mem_cons_of_mem _ List.mem_cons_self
    refine .append (.append (.append (.append (.append ?_ (.emit tree first scopes)) (.onlyIf ?_))
      (.mark other around)) (.emit tree second scopes)) (.mark ends around)
    · exact .branch (List.forall_mem_singleton.mpr other) rfl rfl around
    · exact .branch (List.forall_mem_singleton.mpr ends) rfl rfl around

private theorem fits_loopCode {condition : Condition} {body : StmtId}
    (has : flow.body.has body = true) (around : inside.guards = place.guards) :
    flow.Fits config scopes stmt place (.loop condition body)
      (flow.loopCode (flow.emit config · scopes) stmt condition body) inside := by
  have head : .head stmt ∈ (Statement.loop condition body).labels stmt := List.mem_cons_self
  have ends : .endOf stmt ∈ (Statement.loop condition body).labels stmt :=
    List.mem_cons_of_mem _ List.mem_cons_self
  refine .append (.append (.append (.append (.mark head around) (.onlyIf ?_))
    (.emit tree has scopes)) (.onlyIf ?_)) (.mark ends around)
  · exact .branch (List.forall_mem_singleton.mpr ends) rfl rfl around
  · exact .branch (List.forall_mem_singleton.mpr head) rfl rfl around

private theorem fits_switchCode {sections : List StmtId} {default : Option Nat}
    (has : ∀ part ∈ sections, flow.body.has part = true) (around : inside.guards = place.guards) :
    flow.Fits config scopes stmt place (.switch sections default)
      (flow.switchCode (flow.emit config · scopes) stmt sections default) inside := by
  have ends : .endOf stmt ∈ (Statement.switch sections default).labels stmt :=
    List.mem_append_right _ (List.mem_singleton_self _)
  have listed {part : StmtId} (mem : part ∈ sections) :
      .caseOf part ∈ (Statement.switch sections default).labels stmt :=
    List.mem_append_left _ (List.mem_map_of_mem mem)
  have table : ∀ label ∈ sections.map LabelKey.caseOf,
      label ∈ (Statement.switch sections default).labels stmt := fun label mem ↦
    List.mem_append_left _ mem
  have otherwise : ((default.bind (sections[·]?)).map LabelKey.caseOf).getD (.endOf stmt) ∈
      (Statement.switch sections default).labels stmt := by
    cases chosen : default.bind (sections[·]?) with
    | none => exact ends
    | some part =>
      obtain ⟨index, -, chosen⟩ := Option.bind_eq_some_iff.mp chosen
      exact listed (List.mem_of_getElem? chosen)
  refine .append (.append (.append (.branch table rfl rfl around)
    (.branch (List.forall_mem_singleton.mpr otherwise) rfl rfl around))
    (.concat (fun code member inside around ↦ ?_) around)) (.mark ends around)
  obtain ⟨part, mem, rfl⟩ := List.mem_map.mp member
  exact .append (.append (.mark (listed mem) around) (.emit tree (has part mem) scopes))
    (.onlyIf (.branch (List.forall_mem_singleton.mpr ends) rfl rfl around))

private theorem fits_protectedCode {part : StmtId} (has : flow.body.has part = true)
    (form : shape.isJump = false) (ends : .endOf stmt ∈ shape.labels stmt)
    (behind : Behind (flow.guardedBy config stmt shape) place inside) :
    flow.Fits config scopes stmt place shape
      (flow.protectedCode (flow.emit config) scopes stmt part) inside :=
  .append (.emit tree has _) (.onlyIf (.instr (.leave ends form behind)))

private theorem fits_groupCode {parts : TryStatement}
    (has : ∀ part ∈ parts.protectedParts, flow.body.has part = true)
    (behind : Behind (flow.guardedBy config stmt (.tryBlock parts)) place inside) :
    flow.Fits config scopes stmt place (.tryBlock parts)
      (flow.groupCode (flow.emit config) scopes stmt parts) inside := by
  have ends : .endOf stmt ∈ (Statement.tryBlock parts).labels stmt := List.mem_cons_self
  have tryBody {inside : Place}
      (behind : Behind (flow.guardedBy config stmt (.tryBlock parts)) place inside) :
      flow.Fits config scopes stmt place (.tryBlock parts)
        (flow.tryBodyCode (flow.emit config) scopes stmt parts.body) inside :=
    .append (.region (by simp) (fits_protectedCode tree (has _ List.mem_cons_self) rfl ends
      (behind.within _ _))) (.notes _)
  have clauseCode {clause : CatchClause} (mem : clause ∈ parts.catches) (index : Nat)
      {inside : Place}
      (behind : Behind (flow.guardedBy config stmt (.tryBlock parts)) place inside) :
      flow.Fits config scopes stmt place (.tryBlock parts)
        (flow.catchCode (flow.emit config) scopes stmt index clause) inside := by
    have body := has clause.body (List.mem_cons_of_mem _ (List.mem_map_of_mem mem))
    exact ((Fits.onlyIf (.region (by simp) (.append (.instr (.plain rfl rfl))
      (.instr (.plain rfl rfl))))).append (.region (by simp) (fits_protectedCode tree body rfl ends
        ((behind.after _).within _ _)))).append (.notes _)
  unfold groupCode
  split
  · exact tryBody behind
  · refine .append (.region (by simp) (.append (tryBody (behind.within _ _))
      (.concat (fun code member inside around ↦ ?_) rfl))) (.notes _)
    obtain ⟨entry, mem, rfl⟩ := List.mem_map.mp member
    refine clauseCode (List.fst_mem_of_mem_zipIdx mem) entry.2 ?_
    rw [Behind, around]
    exact behind.within _ _

private theorem fits_tryCode {parts : TryStatement}
    (has : ∀ part ∈ (Statement.tryBlock parts).children, flow.body.has part = true) :
    flow.Fits config scopes stmt place (.tryBlock parts)
      (flow.tryCode (flow.emit config) scopes stmt parts) place := by
  have ends : .endOf stmt ∈ (Statement.tryBlock parts).labels stmt := List.mem_cons_self
  have group {inside : Place} :=
    @fits_groupCode flow config stmt scopes place inside tree parts fun part mem ↦
      has part (List.mem_append_left _ mem)
  rw [tryCode]
  cases handler : parts.handler with
  | none =>
    refine .append (group ⟨[], rfl, ?_⟩) (.mark ends rfl)
    rw [guardedBy, TryStatement.finallyBody?, handler]
    rfl
  | some clause =>
    have has := has clause.body (by simp [Statement.children, handler])
    refine .append (.append (.handled ?_ (fun kind ↦ ?_) (group ⟨[_], rfl, ?_⟩)
      (.append (.emit tree has _) (.onlyIf (.instr (.plain rfl rfl))))) (.notes _)) (.mark ends rfl)
    · cases clause.kind <;> simp [HandlerKind.regionKind]
    · obtain ⟨_ | _, body⟩ := clause
      · exact .clause handler
      · cases kind
    · rw [guardedBy, TryStatement.finallyBody?, handler]
      obtain ⟨_ | _, body⟩ := clause <;> rfl

private theorem fits_syntheticCode {kind : SyntheticKind} {body : StmtId}
    (has : flow.body.has body = true) :
    flow.Fits config scopes stmt place (.synthetic kind body)
      (flow.syntheticCode config (flow.emit config) scopes stmt kind body) place := by
  have ends : .endOf stmt ∈ (Statement.synthetic kind body).labels stmt := List.mem_cons_self
  refine .append ?_ (.mark ends rfl)
  split
  · next guarded =>
    have owned : flow.guardedBy config stmt (.synthetic kind body) = [stmt] := if_pos guarded
    refine .handled (by simp) (fun _ ↦ .cleanup guarded) (.region (by simp) (fits_protectedCode tree
      has rfl ends (.within ⟨[_], rfl, ?_⟩ _ _))) (.append (.instr (.plain rfl rfl))
        (.instr (.plain rfl rfl)))
    rw [owned]
    rfl
  · exact .append (.emit tree has scopes) (.onlyIf (.instr (.plain rfl rfl)))

end Shapes

/-- The tokens of a template are what its shape says. -/
theorem forall_own_template (config : Config) (tree : flow.body.IsTree) {stmt : StmtId}
    {shape : Statement} (found : flow.body.get? stmt = some shape) (scopes : List StmtId)
    (place : Place) :
    ∀ entry ∈ (flow.template config scopes stmt shape).own place,
      flow.OwnToken config scopes stmt place shape entry := by
  have has (child : StmtId) (mem : child ∈ shape.children) : flow.body.has child = true :=
    tree.has_child (Body.mem_children_of_get? found mem)
  rw [own_template]
  change flow.Fits config scopes stmt place shape _ place
  cases shape with
  | block children =>
    refine .concat (fun code listed inside around ↦ ?_) rfl
    obtain ⟨child, mem, rfl⟩ := List.mem_map.mp listed
    exact .emit tree (has child mem) scopes
  | conditional condition thenBranch elseBranch => exact fits_conditionalCode tree has rfl
  | tryBlock parts => exact fits_tryCode tree has
  | labeled label body =>
    exact .append (.mark List.mem_cons_self rfl) (.emit tree (has body List.mem_cons_self) scopes)
  | jump form =>
    rw [shapeCode]
    rcases flow.jumpCode_eq stmt scopes with ⟨-, code⟩ | ⟨target, operation, resolved, by', code⟩
    · rw [code]
      exact List.forall_mem_nil _
    · rw [code]
      exact .instr (.jump resolved by' rfl rfl)
  | loop condition body => exact fits_loopCode tree (has body List.mem_cons_self) rfl
  | switch sections default => exact fits_switchCode tree has rfl
  | synthetic kind body => exact fits_syntheticCode tree (has body List.mem_cons_self)
  | expression | throwException | rethrow | lambda => exact .instr (.plain rfl rfl)

end Flow
end ProtectedRegions
