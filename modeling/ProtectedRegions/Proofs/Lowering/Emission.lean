import ProtectedRegions.Lowering.Emission
import ProtectedRegions.Proofs.Body.Lineage
import ProtectedRegions.Proofs.Code.Cover
import ProtectedRegions.Proofs.Region.Blocks

/-!
# The code of statements

Emission unfolds once at every statement of a tree: its code is a bracket around a template that
depends on its shape, with the code of the children in it. A child lies in the scopes of its
parent, or, where its role gives it a region, in one scope more and behind guards of its own.
-/

namespace ProtectedRegions

namespace Code

/-- The statements directly inside code. -/
def heads : Code → List StmtId
  | nothing | note _ | instr .. | mark _ => []
  | append first second => first.heads ++ second.heads
  | statement stmt _ => [stmt]
  | region _ inner => inner.heads
  | handled _ inner handler => inner.heads ++ handler.heads

theorem nested_append (first second : Code) (place : Place) :
    (first ++ second).nested place = first.nested place ++ second.nested (place.after first) := rfl

/-- The statements directly inside code, with or without their places. -/
theorem map_stmt_nested (code : Code) (place : Place) :
    (code.nested place).map (·.stmt) = code.heads := by
  induction code generalizing place <;> simp_all [nested, heads]

/-- Code in sequence, unfolded once. -/
theorem concat_cons (first : Code) (rest : List Code) :
    concat (first :: rest) = append first (concat rest) := rfl

theorem concat_nil : concat [] = nothing := rfl

/-- The labels and the statements directly inside code, in order. -/
def outline : Code → List (LabelKey ⊕ StmtId)
  | nothing | note _ | instr .. => []
  | mark label => [.inl label]
  | append first second => first.outline ++ second.outline
  | statement stmt _ => [.inr stmt]
  | region _ inner => inner.outline
  | handled _ inner handler => inner.outline ++ handler.outline

/-- The statements of an outline. -/
theorem heads_eq (code : Code) : code.heads = code.outline.filterMap Sum.getRight? := by
  induction code <;> simp_all [heads, outline]

theorem outline_append (first second : Code) :
    (first ++ second).outline = first.outline ++ second.outline := rfl

theorem outline_concat (parts : List Code) : (concat parts).outline = parts.flatMap outline := by
  induction parts with
  | nil => rfl
  | cons first rest ih => rw [concat_cons, outline, ih, List.flatMap_cons]

theorem outline_notes (events : List Event) : (notes events).outline = [] := by
  rw [notes, outline_concat, List.flatMap_map]
  exact List.flatMap_eq_nil_iff.mpr fun _ _ ↦ rfl

theorem outline_onlyIf_instr (condition : Bool) (source : StmtId)
    (operation : Instruction LabelKey) :
    (onlyIf condition (instr source operation)).outline = [] := by
  cases condition <;> rfl

/-- Events hold no statements. -/
theorem nested_notes (events : List Event) (place : Place) : (notes events).nested place = [] := by
  unfold notes
  induction events generalizing place with
  | nil => rfl
  | cons event rest ih => rw [List.map_cons, concat_cons, nested, ih]; rfl

/-- What holds of the statements inside each of several parts holds of those inside all of them
in sequence. -/
theorem forall_nested_concat {parts : List Code} {motive : CodePart → Prop}
    {guards : List Guard}
    (each : ∀ code ∈ parts, ∀ place : Place, place.guards = guards →
      ∀ part ∈ code.nested place, motive part)
    {place : Place} (around : place.guards = guards) :
    ∀ part ∈ (concat parts).nested place, motive part := by
  induction parts generalizing place with
  | nil => intro part mem; cases mem
  | cons first rest ih =>
    intro part mem
    rw [concat_cons, nested, List.mem_append] at mem
    rcases mem with mem | mem
    · exact each first List.mem_cons_self place around part mem
    · have behind : (place.after first).guards = guards := around
      exact ih (fun code listed ↦ each code (List.mem_cons_of_mem _ listed)) behind part mem

/-- Code that is not there takes no space. -/
theorem onlyIf_false (code : Code) : onlyIf false code = nothing := rfl

theorem onlyIf_true (code : Code) : onlyIf true code = code := rfl

/-- Code under a condition holds its statements only under it. -/
theorem nested_onlyIf_instr (condition : Bool) (source : StmtId)
    (operation : Instruction LabelKey) (place : Place) :
    (onlyIf condition (instr source operation)).nested place = [] := by
  cases condition <;> rfl

end Code

/-- The children of a shape whose code is part of its own: all but the body of a lambda. -/
def Statement.laidOut : Statement → List StmtId
  | .lambda _ => []
  | shape => shape.children

/-- The labels and the children of a shape in the order of its code. -/
def Statement.outline (stmt : StmtId) : Statement → List (LabelKey ⊕ StmtId)
  | .block children => children.map .inr
  | .conditional _ thenBranch none => [.inr thenBranch, .inl (.endOf stmt)]
  | .conditional _ thenBranch (some elseBranch) =>
    [.inr thenBranch, .inl (.elseOf elseBranch), .inr elseBranch, .inl (.endOf stmt)]
  | .tryBlock parts => (Statement.tryBlock parts).children.map .inr ++ [.inl (.endOf stmt)]
  | .labeled label body => [.inl (.user label), .inr body]
  | .loop _ body => [.inl (.head stmt), .inr body, .inl (.endOf stmt)]
  | .switch sections _ =>
    sections.flatMap (fun part ↦ [.inl (.caseOf part), .inr part]) ++ [.inl (.endOf stmt)]
  | .synthetic _ body => [.inr body, .inl (.endOf stmt)]
  | .expression _ | .jump _ | .throwException | .rethrow | .lambda _ => []

/-- The statements of its outline are all that is laid out of a shape. -/
theorem Statement.laidOut_eq (stmt : StmtId) (shape : Statement) :
    shape.laidOut = (shape.outline stmt).filterMap Sum.getRight? := by
  have statements (children : List StmtId) :
      (children.map Sum.inr).filterMap (Sum.getRight? (α := LabelKey)) = children := by
    rw [List.filterMap_map]
    exact List.filterMap_some
  cases shape with
  | block children => exact (statements children).symm
  | conditional condition thenBranch elseBranch => cases elseBranch <;> rfl
  | tryBlock parts => rw [outline, List.filterMap_append, statements]; exact (List.append_nil _).symm
  | switch sections default =>
    rw [outline, List.filterMap_append, List.filterMap_flatMap]
    exact (List.append_nil _).symm.trans (congrArg (· ++ []) (List.flatMap_singleton' _).symm)
  | _ => rfl

/-- What is laid out of a shape is a child. -/
theorem Statement.mem_children_of_laidOut {shape : Statement} {child : StmtId}
    (mem : child ∈ shape.laidOut) : child ∈ shape.children := by
  cases shape with
  | lambda => cases mem
  | _ => exact mem

/-- No child of a statement is laid out twice. -/
theorem Body.IsTree.nodup_laidOut {body : Body} (tree : body.IsTree) {stmt : StmtId}
    {shape : Statement} (found : body.get? stmt = some shape) : shape.laidOut.Nodup := by
  have children := tree.nodup_children stmt
  rw [Body.children_of_get? found] at children
  cases shape with
  | lambda => exact List.nodup_nil
  | _ => exact children

namespace Flow

variable {flow : Flow} {config : Config}

/-- The catch clauses of a `try` depend only on the code of their bodies. -/
private theorem catches_congr {emit emit' : Emitter} {scopes : List StmtId} {stmt : StmtId}
    {clauses : List CatchClause} (same : ∀ clause ∈ clauses, emit clause.body = emit' clause.body) :
    (clauses.zipIdx.map fun (clause, place) ↦ flow.catchCode emit scopes stmt place clause) =
      clauses.zipIdx.map fun (clause, place) ↦ flow.catchCode emit' scopes stmt place clause := by
  refine List.map_congr_left fun entry mem ↦ ?_
  simp only [catchCode, protectedCode, same _ (List.fst_mem_of_mem_zipIdx mem)]

/-- The group of a `try` depends only on the code of its protected parts. -/
private theorem groupCode_congr {emit emit' : Emitter} {scopes : List StmtId} {stmt : StmtId}
    {parts : TryStatement} (same : ∀ {part}, part ∈ parts.protectedParts → emit part = emit' part) :
    flow.groupCode emit scopes stmt parts = flow.groupCode emit' scopes stmt parts := by
  have body := same List.mem_cons_self
  have catches := @catches_congr flow emit emit' scopes stmt parts.catches fun clause mem ↦
    same (List.mem_cons_of_mem _ (List.mem_map_of_mem mem))
  simp only [groupCode, tryBodyCode, protectedCode, body, catches]

/-- The template of a statement depends only on the code of its children. -/
theorem shapeCode_congr {emit emit' : Emitter} {scopes : List StmtId} {stmt : StmtId}
    {shape : Statement} (same : ∀ child ∈ shape.children, emit child = emit' child) :
    flow.shapeCode config emit scopes stmt shape =
      flow.shapeCode config emit' scopes stmt shape := by
  cases shape with
  | block children =>
    rw [shapeCode, shapeCode, List.map_congr_left fun child mem ↦ by rw [same child mem]]
  | conditional condition thenBranch elseBranch =>
    cases elseBranch with
    | none =>
      simp only [shapeCode, conditionalCode, same thenBranch List.mem_cons_self]
    | some elseBranch =>
      simp only [shapeCode, conditionalCode, same thenBranch List.mem_cons_self,
        same elseBranch (List.mem_cons_of_mem _ (List.mem_singleton_self _))]
  | tryBlock parts =>
    have part {inner : StmtId} (mem : inner ∈ parts.protectedParts) : emit inner = emit' inner :=
      same inner (List.mem_append_left _ mem)
    simp only [shapeCode, tryCode, groupCode_congr part]
    cases handler : parts.handler with
    | none => rfl
    | some clause =>
      have listed : clause.body ∈ (Statement.tryBlock parts).children := by
        simp [Statement.children, handler]
      simp only [handlerCode, same _ listed]
  | labeled label body => simp only [shapeCode, same body List.mem_cons_self]
  | loop condition body => simp only [shapeCode, loopCode, same body List.mem_cons_self]
  | switch sections default =>
    have parts : (sections.map fun part ↦ Code.mark (.caseOf part) ++ emit part scopes ++
        Code.onlyIf (flow.runsOn part) (.instr stmt (.branch (.endOf stmt)))) =
          sections.map fun part ↦ Code.mark (.caseOf part) ++ emit' part scopes ++
            Code.onlyIf (flow.runsOn part) (.instr stmt (.branch (.endOf stmt))) :=
      List.map_congr_left fun part mem ↦ by rw [same part mem]
    simp only [shapeCode, switchCode, parts]
  | synthetic kind body =>
    simp only [shapeCode, syntheticCode, protectedCode, same body List.mem_cons_self]
  | expression | jump | throwException | rethrow | lambda => rfl

/-- The code inside the bracket of a statement. -/
def template (flow : Flow) (config : Config) (scopes : List StmtId) (stmt : StmtId)
    (shape : Statement) : Code :=
  flow.deadNote stmt shape ++ flow.shapeCode config (flow.emit config) scopes stmt shape

/-- The code of a statement is the bracket around its template. -/
theorem emit_eq (config : Config) (tree : flow.body.IsTree) {stmt : StmtId} {shape : Statement}
    (found : flow.body.get? stmt = some shape) (scopes : List StmtId) :
    flow.emit config stmt scopes = .statement stmt (flow.template config scopes stmt shape) := by
  have has := Body.has_iff_get?.mpr ⟨shape, found⟩
  rw [emit, tree.recurse_eq (fun stmt below below' same ↦ ?_) has]
  · simp only [found]
    rfl
  · funext scopes
    cases found : flow.body.get? stmt with
    | none => rfl
    | some shape =>
      simp only
      rw [shapeCode_congr fun child mem ↦ same child (Body.mem_children_of_get? found mem)]

/-- A template is the code of the shape, with at most an event before it. -/
theorem template_elim (flow : Flow) (config : Config) (scopes : List StmtId) (stmt : StmtId)
    (shape : Statement) {motive : Code → Prop}
    (nothing : motive (.nothing ++ flow.shapeCode config (flow.emit config) scopes stmt shape))
    (note : ∀ event,
      motive (.note event ++ flow.shapeCode config (flow.emit config) scopes stmt shape)) :
    motive (flow.template config scopes stmt shape) := by
  rw [template, deadNote]
  cases !flow.isReachable stmt && (flow.body.parent? stmt).any flow.isReachable with
  | false => exact nothing
  | true => exact note _

theorem nested_template (scopes : List StmtId) (stmt : StmtId) (shape : Statement)
    (place : Place) : (flow.template config scopes stmt shape).nested place =
      (flow.shapeCode config (flow.emit config) scopes stmt shape).nested place :=
  flow.template_elim config scopes stmt shape (motive := fun code ↦ code.nested place = _) rfl
    fun _ ↦ rfl

/-- The code of a statement is a bracket, whatever scopes it lies in. -/
theorem exists_emit (config : Config) (tree : flow.body.IsTree) {stmt : StmtId}
    (has : flow.body.has stmt = true) (scopes : List StmtId) :
    ∃ inner, flow.emit config stmt scopes = .statement stmt inner := by
  obtain ⟨shape, found⟩ := Body.has_iff_get?.mp has
  exact ⟨_, emit_eq config tree found scopes⟩

section Outline

variable (config : Config) (tree : flow.body.IsTree) {stmt : StmtId} {scopes : List StmtId}

include tree

theorem outline_emit {child : StmtId} (has : flow.body.has child = true) (scopes : List StmtId) :
    (flow.emit config child scopes).outline = [.inr child] := by
  obtain ⟨inner, code⟩ := exists_emit config tree has scopes
  rw [code]
  rfl

private theorem outline_protectedCode {part : StmtId} (has : flow.body.has part = true) :
    (flow.protectedCode (flow.emit config) scopes stmt part).outline = [.inr part] := by
  rw [protectedCode, Code.outline_append, outline_emit config tree has, Code.outline_onlyIf_instr,
    List.append_nil]

private theorem outline_tryBodyCode {body : StmtId} (has : flow.body.has body = true) :
    (flow.tryBodyCode (flow.emit config) scopes stmt body).outline = [.inr body] := by
  rw [tryBodyCode, Code.outline_append, Code.outline_notes, Code.outline,
    outline_protectedCode config tree has]
  rfl

private theorem outline_catchCode {clause : CatchClause} (has : flow.body.has clause.body = true)
    (place : Nat) :
    (flow.catchCode (flow.emit config) scopes stmt place clause).outline = [.inr clause.body] := by
  rw [catchCode, Code.outline_append, Code.outline_append, Code.outline_notes, Code.outline,
    outline_protectedCode config tree has]
  cases clause.isFiltered <;> rfl

private theorem outline_groupCode {parts : TryStatement}
    (has : ∀ part ∈ parts.protectedParts, flow.body.has part = true) :
    (flow.groupCode (flow.emit config) scopes stmt parts).outline =
      parts.protectedParts.map .inr := by
  have body := @outline_tryBodyCode flow config tree stmt scopes _ (has _ List.mem_cons_self)
  unfold groupCode
  split
  · next empty =>
    rw [body, TryStatement.protectedParts, List.isEmpty_iff.mp empty]
    rfl
  · have catches : parts.catches.zipIdx.flatMap (fun entry ↦
        (flow.catchCode (flow.emit config) scopes stmt entry.2 entry.1).outline) =
          (parts.catches.map (·.body)).map Sum.inr := calc
      _ = parts.catches.zipIdx.flatMap (fun entry ↦ [Sum.inr entry.1.body]) :=
        List.flatMap_congr fun entry mem ↦ outline_catchCode config tree
          (has _ (List.mem_cons_of_mem _ (List.mem_map_of_mem (List.fst_mem_of_mem_zipIdx mem)))) _
      _ = (parts.catches.zipIdx.map Prod.fst).map (Sum.inr ·.body) := by
        rw [List.map_map, List.map_eq_flatMap]
        rfl
      _ = _ := by rw [List.zipIdx_map_fst, List.map_map]; rfl
    rw [Code.outline_append, Code.outline_notes, Code.outline, Code.outline_append, body,
      Code.outline_concat, List.flatMap_map, catches, List.append_nil]
    rfl

private theorem outline_tryCode {parts : TryStatement}
    (has : ∀ part ∈ (Statement.tryBlock parts).children, flow.body.has part = true) :
    (flow.tryCode (flow.emit config) scopes stmt parts).outline =
      (Statement.tryBlock parts).outline stmt := by
  have group := @outline_groupCode flow config tree stmt scopes parts fun part mem ↦
    has part (List.mem_append_left _ mem)
  rw [tryCode, Code.outline_append, Statement.outline, Statement.children, List.map_append]
  cases handler : parts.handler with
  | none =>
    simp only [group, Option.map_none, Option.toList_none, List.map_nil, List.append_nil]
    rfl
  | some clause =>
    have has := has clause.body (by simp [Statement.children, handler])
    simp only [Code.outline_append, Code.outline, group, handlerCode, outline_emit config tree has,
      Code.outline_onlyIf_instr, Code.outline_notes, List.append_nil]
    rfl

/-- The code of a statement holds its labels and children in the order of the shape. -/
theorem outline_shapeCode {shape : Statement} (found : flow.body.get? stmt = some shape)
    (scopes : List StmtId) :
    (flow.shapeCode config (flow.emit config) scopes stmt shape).outline = shape.outline stmt := by
  have has {child : StmtId} (mem : child ∈ shape.children) : flow.body.has child = true :=
    tree.has_child (Body.mem_children_of_get? found mem)
  have single {child : StmtId} (mem : child ∈ shape.children) (scopes : List StmtId) :=
    outline_emit config tree (has mem) scopes
  cases shape with
  | block children =>
    rw [shapeCode, Code.outline_concat, List.flatMap_map, Statement.outline, List.map_eq_flatMap]
    exact List.flatMap_congr fun child mem ↦ single mem scopes
  | conditional condition thenBranch elseBranch =>
    cases elseBranch with
    | none =>
      simp only [shapeCode, conditionalCode, Code.outline_append, Code.outline,
        single List.mem_cons_self]
      rfl
    | some elseBranch =>
      simp only [shapeCode, conditionalCode, Code.outline_append, Code.outline,
        single List.mem_cons_self, single (List.mem_cons_of_mem _ (List.mem_singleton_self _)),
        Code.outline_onlyIf_instr]
      rfl
  | tryBlock parts => exact outline_tryCode config tree fun part mem ↦ has mem
  | labeled label body =>
    simp only [shapeCode, Code.outline_append, Code.outline, single List.mem_cons_self]
    rfl
  | loop condition body =>
    simp only [shapeCode, loopCode, Code.outline_append, Code.outline, single List.mem_cons_self,
      Code.outline_onlyIf_instr]
    rfl
  | switch sections default =>
    have parts : sections.flatMap (fun part ↦
        [Sum.inl (LabelKey.caseOf part)] ++ (flow.emit config part scopes).outline) =
          sections.flatMap fun part ↦ [.inl (.caseOf part), .inr part] :=
      List.flatMap_congr fun part mem ↦ by rw [single mem]; rfl
    simp only [shapeCode, switchCode, Code.outline_append, Code.outline, Code.outline_concat,
      List.flatMap_map, Code.outline_onlyIf_instr, List.append_nil, List.nil_append, parts]
    rfl
  | synthetic kind body =>
    rw [shapeCode, syntheticCode, Code.outline_append]
    split
    · simp only [Code.outline_append, Code.outline, protectedCode, single List.mem_cons_self,
        Code.outline_onlyIf_instr]
      rfl
    · simp only [Code.outline_append, single List.mem_cons_self, Code.outline_onlyIf_instr]
      rfl
  | jump form =>
    simp only [shapeCode, jumpCode]
    repeat' split
    all_goals rfl
  | expression | throwException | rethrow | lambda => rfl

theorem outline_template {shape : Statement} (found : flow.body.get? stmt = some shape)
    (scopes : List StmtId) :
    (flow.template config scopes stmt shape).outline = shape.outline stmt := by
  rw [← outline_shapeCode config tree found scopes]
  exact flow.template_elim config scopes stmt shape (motive := fun code ↦ code.outline = _) rfl
    fun _ ↦ rfl

/-- The statements directly inside the template of a statement are its children. -/
theorem heads_template {shape : Statement} (found : flow.body.get? stmt = some shape)
    (scopes : List StmtId) :
    (flow.template config scopes stmt shape).heads = shape.laidOut := by
  rw [Code.heads_eq, outline_template config tree found, shape.laidOut_eq stmt]

end Outline

/-- Whether the code of a statement has a region of its own on account of its role. -/
def isBracketed (flow : Flow) (config : Config) (stmt : StmtId) : Bool :=
  match flow.body.role? stmt, flow.body.parent? stmt with
  | some (.syntheticBody kind), some owner =>
    (flow.decideCleanup config kind owner stmt).isProtected
  | some role, _ => role.isProtected
  | none, _ => false

/-- The statement whose `finally` region protects the code of one of its parts. -/
def guardian? (flow : Flow) (config : Config) (part : StmtId) : Option StmtId :=
  match flow.body.role? part, flow.body.parent? part with
  | some (.syntheticBody kind), some owner =>
    if (flow.decideCleanup config kind owner part).isProtected then some owner else none
  | _, some owner => if (flow.body.finallyOf? part).isSome then some owner else none
  | _, none => none

end Flow

/-- The statement of the `finally` region whose body the guard is. -/
def Guard.owner? (guard : Guard) : Option StmtId :=
  if guard.part = .body ∧ guard.region.kind = .finallyBlock then some guard.region.stmt else none

/-- Whether the guard spans the code of a protected part or of a handler. -/
def Flow.Holds (flow : Flow) (guard : Guard) (part : StmtId) : Prop :=
  match guard.part with
  | .whole => guard.region.stmt = part ∧
    (guard.region.kind = .tryBlock ∨ guard.region.kind = .catchBlock)
  | .body => False
  | .handler => guard.region.kind.hasHandler = true ∧
    flow.body.IsHandlerOf part guard.region.stmt

/-- How a statement lies in the template of its parent. Without a region of its own it lies in
the same scopes and behind the same guards. With one, the innermost guard ends right behind it, or
behind its exit instruction. -/
structure Flow.Nests (flow : Flow) (config : Config) (scopes : List StmtId) (place : Place)
    (part : CodePart) (scopes' : List StmtId) : Prop where
  code : flow.emit config part.stmt scopes' = .statement part.stmt part.inner
  free : flow.isBracketed config part.stmt = false →
    scopes' = scopes ∧ part.place.guards = place.guards ∧
      flow.guardian? config part.stmt = none
  bracketed : flow.isBracketed config part.stmt = true →
    scopes' = part.stmt :: scopes ∧ ∃ guard outer,
      part.place.guards = guard :: outer ++ place.guards ∧
        (guard :: outer).filterMap Guard.owner? = (flow.guardian? config part.stmt).toList ∧
        guard.span.start = part.place.offset ∧
        guard.span.stop = part.place.offset + part.inner.size + (flow.runsOn part.stmt).toNat ∧
        flow.Holds guard part.stmt

namespace Flow

variable {flow : Flow} {config : Config}

/-- A child without a role lies in the same scopes as its parent. -/
theorem Nests.of_no_role {scopes : List StmtId} {place : Place} {part : CodePart}
    (role : flow.body.role? part.stmt = none)
    (code : flow.emit config part.stmt scopes = .statement part.stmt part.inner)
    (around : part.place.guards = place.guards) : flow.Nests config scopes place part scopes := by
  have free : flow.isBracketed config part.stmt = false := by
    rw [isBracketed, role]
  have unguarded : flow.guardian? config part.stmt = none := by
    rw [guardian?, Body.finallyOf?, role]
    cases flow.body.parent? part.stmt <;> rfl
  refine ⟨code, fun _ ↦ ⟨rfl, around, unguarded⟩, fun h ↦ ?_⟩
  rw [free] at h
  cases h

/-- The code of a scope with its exit instruction holds the one statement. -/
theorem nested_scope {scopes : List StmtId} {part : StmtId} {inner : Code}
    (code : flow.emit config part scopes = .statement part inner) (condition : Bool)
    (owner : StmtId) (operation : Instruction LabelKey) (place : Place) :
    (flow.emit config part scopes ++ Code.onlyIf condition (.instr owner operation)).nested place =
      [⟨part, inner, place⟩] := by
  rw [Code.nested_append, code, Code.nested_onlyIf_instr, List.append_nil]
  rfl

/-- The exit instruction of a scope takes one offset more. -/
theorem size_scope {scopes : List StmtId} {part : StmtId} {inner : Code}
    (code : flow.emit config part scopes = .statement part inner) (condition : Bool)
    (owner : StmtId) (operation : Instruction LabelKey) :
    (flow.emit config part scopes ++ Code.onlyIf condition (.instr owner operation)).size =
      inner.size + condition.toNat := by
  rw [code]
  cases condition <;> rfl

/-- How a protected part lies in the group of its `try`: behind guards of its own, none of which
belongs to a region with a handler. -/
private structure Grouped (flow : Flow) (config : Config) (scopes parts : List StmtId)
    (place : Place) (part : CodePart) : Prop where
  mem : part.stmt ∈ parts
  code : flow.emit config part.stmt (part.stmt :: scopes) = .statement part.stmt part.inner
  guards : ∃ guard outer, part.place.guards = guard :: outer ++ place.guards ∧
    (guard :: outer).filterMap Guard.owner? = [] ∧ guard.span.start = part.place.offset ∧
    guard.span.stop = part.place.offset + part.inner.size + (flow.runsOn part.stmt).toNat ∧
    flow.Holds guard part.stmt

private theorem Grouped.within {scopes parts : List StmtId} {place inside : Place}
    {part : CodePart} {guard : Guard} (h : Grouped flow config scopes parts inside part)
    (around : inside.guards = guard :: place.guards) (owner : guard.owner? = none) :
    Grouped flow config scopes parts place part := by
  obtain ⟨mem, code, first, outer, guards, owners, spans⟩ := h
  refine ⟨mem, code, first, outer ++ [guard], ?_, ?_, spans⟩
  · rw [guards, around]
    simp
  · rw [← List.cons_append, List.filterMap_append, owners, List.filterMap_cons, owner]
    rfl

private theorem nested_groupCode (config : Config) (tree : flow.body.IsTree) {stmt : StmtId}
    {parts : TryStatement}
    (found : flow.body.get? stmt = some (.tryBlock parts)) (scopes : List StmtId) (place : Place) :
    ∀ part ∈ (flow.groupCode (flow.emit config) scopes stmt parts).nested place,
      Grouped flow config scopes parts.protectedParts place part := by
  -- A part alone in a region, wherever the region starts.
  have alone {child : StmtId} (mem : child ∈ parts.protectedParts) (head : RegionHead)
      (own : head.stmt = child ∧ (head.kind = .tryBlock ∨ head.kind = .catchBlock))
      (place : Place) {part : CodePart} (listed : part ∈ (Code.region head
        (flow.protectedCode (flow.emit config) scopes stmt child)).nested place) :
      Grouped flow config scopes parts.protectedParts place part := by
    obtain ⟨shape, inner⟩ := Body.has_iff_get?.mp (tree.has_child
      (Body.mem_children_of_get? found (List.mem_append_left _ mem)))
    have code := emit_eq config tree inner (child :: scopes)
    rw [Code.nested, protectedCode, nested_scope code] at listed
    cases List.mem_singleton.mp listed
    refine ⟨mem, code, _, [], rfl, rfl, rfl, ?_, own⟩
    rw [Nat.add_assoc, ← size_scope code]
    rfl
  intro part mem
  unfold groupCode at mem
  split at mem
  · rw [tryBodyCode, Code.nested_append, Code.nested_notes, List.append_nil] at mem
    exact alone List.mem_cons_self _ ⟨rfl, .inl rfl⟩ place mem
  · rw [Code.nested_append, Code.nested_notes, List.append_nil, Code.nested, Code.nested_append,
      List.mem_append] at mem
    rcases mem with mem | mem
    · rw [tryBodyCode, Code.nested_append, Code.nested_notes, List.append_nil] at mem
      exact (alone List.mem_cons_self _ ⟨rfl, .inl rfl⟩ _ mem).within rfl rfl
    · refine Code.forall_nested_concat
        (motive := Grouped flow config scopes parts.protectedParts place)
        (fun code listed inside around ↦ ?_) rfl part mem
      obtain ⟨⟨clause, index⟩, entry, rfl⟩ := List.mem_map.mp listed
      intro part mem
      change part ∈ (flow.catchCode (flow.emit config) scopes stmt index clause).nested inside
        at mem
      have filter : (Code.onlyIf clause.isFiltered
          (.region ⟨.filterBlock, .user, clause.body,
            some ⟨index, clause.exceptionType, clause.binder, clause.isFiltered⟩, []⟩
            (.instr stmt (.filter stmt index) ++ .instr stmt .endFilter))).nested inside = [] := by
        cases clause.isFiltered <;> rfl
      rw [catchCode, Code.nested_append, Code.nested_append, Code.nested_notes, List.append_nil,
        filter, List.nil_append] at mem
      have member : clause.body ∈ parts.protectedParts := List.mem_cons_of_mem _
        (List.mem_map_of_mem (List.fst_mem_of_mem_zipIdx entry))
      exact (alone member _ ⟨rfl, .inr rfl⟩ _ mem).within around rfl

/-- A protected part of a `try` has a region of its own, and the `try` guards it if it has a
`finally`. -/
theorem bracketed_protectedPart (config : Config) (tree : flow.body.IsTree) {stmt part : StmtId}
    {parts : TryStatement} (found : flow.body.get? stmt = some (.tryBlock parts))
    (mem : part ∈ parts.protectedParts) : flow.isBracketed config part = true ∧
      flow.guardian? config part = if parts.finallyBody?.isSome then some stmt else none := by
  have parent := tree.parent?_eq_some.mpr
    (Body.mem_children_of_get? found (List.mem_append_left _ mem))
  obtain ⟨role, finallyOf⟩ := tree.role?_protectedPart found mem
  rw [isBracketed, guardian?, finallyOf, parent]
  rcases role with role | ⟨place, role⟩
  · rw [role]
    exact ⟨rfl, rfl⟩
  · rw [role]
    exact ⟨rfl, rfl⟩

/-- The handler body of a `try` has a region of its own, and nothing of the `try` guards it. -/
theorem bracketed_handlerBody (config : Config) (tree : flow.body.IsTree) {stmt : StmtId}
    {parts : TryStatement}
    {clause : HandlerClause} (found : flow.body.get? stmt = some (.tryBlock parts))
    (handler : parts.handler = some clause) : flow.isBracketed config clause.body = true ∧
      flow.guardian? config clause.body = none := by
  have role := tree.role?_handlerBody found handler
  rw [isBracketed, guardian?, Body.finallyOf?, role]
  cases flow.body.parent? clause.body <;> exact ⟨rfl, rfl⟩

section Shapes

variable (tree : flow.body.IsTree) {stmt : StmtId} {scopes : List StmtId} {place inside : Place}
  {part : CodePart}

include tree

/-- A child without a role lies in the same scopes as its parent. -/
private theorem nests_plain {shape : Statement} (found : flow.body.get? stmt = some shape)
    {child : StmtId} (mem : child ∈ shape.children) (role : shape.childRole? child = none)
    (listed : part ∈ (flow.emit config child scopes).nested inside)
    (around : inside.guards = place.guards) :
    ∃ scopes', flow.Nests config scopes place part scopes' := by
  obtain ⟨inner, code⟩ := exists_emit config tree
    (tree.has_child (Body.mem_children_of_get? found mem)) scopes
  rw [code] at listed
  cases List.mem_singleton.mp listed
  exact ⟨scopes, .of_no_role ((tree.role?_child mem found).trans role) code around⟩

/-- A protected part lies in the group of its `try`, with whatever is around the group. -/
private theorem nests_groupCode {parts : TryStatement}
    (found : flow.body.get? stmt = some (.tryBlock parts)) (outer : List Guard)
    (mem : part ∈ (flow.groupCode (flow.emit config) scopes stmt parts).nested inside)
    (around : inside.guards = outer ++ place.guards)
    (owner : outer.filterMap Guard.owner? =
      (if parts.finallyBody?.isSome then some stmt else none).toList) :
    ∃ scopes', flow.Nests config scopes place part scopes' := by
  obtain ⟨listed, code, guard, extra, guards, owners, spans⟩ :=
    nested_groupCode config tree found scopes inside part mem
  obtain ⟨bracketed, guardian⟩ := bracketed_protectedPart config tree found listed
  refine ⟨_, code, fun h ↦ ?_, fun _ ↦ ⟨rfl, guard, extra ++ outer, ?_, ?_, spans⟩⟩
  · rw [bracketed] at h
    cases h
  · rw [guards, around, List.cons_append, List.cons_append, List.append_assoc]
  · rw [← List.cons_append, List.filterMap_append, owners, owner, guardian]
    rfl

/-- The handler body of a `try` lies in the handler of the region. -/
private theorem nests_handlerCode {parts : TryStatement} {clause : HandlerClause}
    (found : flow.body.get? stmt = some (.tryBlock parts)) (handler : parts.handler = some clause)
    (head : RegionHead) (kind : head.kind = clause.kind.regionKind) (own : head.stmt = stmt)
    (inner : Code)
    (mem : part ∈ (flow.handlerCode (flow.emit config) scopes stmt clause.body).nested
      (place.inHandler head inner (flow.handlerCode (flow.emit config) scopes stmt clause.body))) :
    ∃ scopes', flow.Nests config scopes place part scopes' := by
  have child : clause.body ∈ flow.body.children stmt :=
    Body.mem_children_of_get? found (by simp [Statement.children, handler])
  obtain ⟨inner', code⟩ := exists_emit config tree (tree.has_child child) (clause.body :: scopes)
  obtain ⟨bracketed, guardian⟩ := bracketed_handlerBody config tree found handler
  rw [handlerCode, nested_scope code] at mem
  cases List.mem_singleton.mp mem
  refine ⟨_, code, fun h ↦ ?_, fun _ ↦ ⟨rfl, _, [], rfl, ?_, rfl, ?_, ?_⟩⟩
  · rw [bracketed] at h
    cases h
  · rw [guardian]
    rfl
  · rw [Nat.add_assoc, ← size_scope code]
    rfl
  · refine ⟨?_, (tree.parent?_eq_some.mpr child).trans (congrArg some own.symm), ?_⟩
    · change head.kind.hasHandler = true
      rw [kind]
      cases clause.kind <;> rfl
    · rw [Body.handlerKind?_eq_some.mpr (tree.role?_handlerBody found handler)]
      rfl

private theorem nests_tryCode {parts : TryStatement}
    (found : flow.body.get? stmt = some (.tryBlock parts))
    (mem : part ∈ (flow.tryCode (flow.emit config) scopes stmt parts).nested place) :
    ∃ scopes', flow.Nests config scopes place part scopes' := by
  rw [tryCode, Code.nested_append, List.mem_append] at mem
  obtain mem := mem.resolve_right List.not_mem_nil
  cases handler : parts.handler with
  | none =>
    rw [handler] at mem
    refine nests_groupCode tree found [] mem rfl ?_
    rw [TryStatement.finallyBody?, handler]
    rfl
  | some clause =>
    simp only [handler, Code.nested_append, Code.nested_notes, List.append_nil, Code.nested,
      List.mem_append] at mem
    rcases mem with mem | mem
    · refine nests_groupCode tree found [_] mem rfl ?_
      rw [TryStatement.finallyBody?, handler]
      cases kind : clause.kind <;>
        simp [Guard.owner?, Place.bodyGuard, Place.handled, HandlerKind.regionKind, kind]
    · exact nests_handlerCode tree found handler _ rfl rfl _ mem

private theorem nests_syntheticCode {kind : SyntheticKind} {body : StmtId}
    (found : flow.body.get? stmt = some (.synthetic kind body))
    (mem : part ∈ (flow.syntheticCode config (flow.emit config) scopes stmt kind body).nested
      place) :
    ∃ scopes', flow.Nests config scopes place part scopes' := by
  have child := Body.mem_children_of_get? found (List.mem_singleton_self body)
  have role := tree.role?_syntheticBody found
  have parent := tree.parent?_eq_some.mpr child
  have bracketed : flow.isBracketed config body =
      (flow.decideCleanup config kind stmt body).isProtected := by
    rw [isBracketed, role, parent]
  have guardian : flow.guardian? config body =
      if (flow.decideCleanup config kind stmt body).isProtected then some stmt else none := by
    rw [guardian?, role, parent]
  rw [syntheticCode, Code.nested_append] at mem
  split at mem
  · next isProtected =>
    obtain ⟨inner, code⟩ := exists_emit config tree (tree.has_child child) (body :: scopes)
    simp only [Code.nested, Code.nested_append, protectedCode, nested_scope code,
      List.append_nil] at mem
    cases List.mem_singleton.mp mem
    refine ⟨body :: scopes, code, fun h ↦ ?_, fun _ ↦ ⟨rfl, _, [_], rfl, ?_, rfl, ?_, rfl, .inl rfl⟩⟩
    · rw [bracketed, isProtected] at h
      cases h
    · rw [guardian, isProtected]
      rfl
    · rw [Nat.add_assoc, ← size_scope code]
      rfl
  · next elided =>
    simp only [Code.nested, Code.nested_append, Code.nested_onlyIf_instr, List.append_nil] at mem
    obtain ⟨inner, code⟩ := exists_emit config tree (tree.has_child child) scopes
    rw [code] at mem
    cases List.mem_singleton.mp mem
    refine ⟨scopes, code, fun _ ↦ ⟨rfl, rfl, ?_⟩, fun h ↦ ?_⟩
    · rw [guardian, if_neg elided]
    · exact absurd (bracketed ▸ h) elided

/-- The parts of a template lie in it as their roles say. -/
theorem nests_template {shape : Statement} (found : flow.body.get? stmt = some shape)
    (scopes : List StmtId) (place : Place) :
    ∀ part ∈ (flow.template config scopes stmt shape).nested place,
      ∃ scopes', flow.Nests config scopes place part scopes' := by
  intro part mem
  rw [nested_template] at mem
  cases shape with
  | block children =>
    refine Code.forall_nested_concat (motive := fun part ↦ ∃ scopes',
      flow.Nests config scopes place part scopes') (fun code listed inside around ↦ ?_)
      rfl part mem
    obtain ⟨child, mem, rfl⟩ := List.mem_map.mp listed
    exact fun part inner ↦ nests_plain tree found mem rfl inner around
  | conditional condition thenBranch elseBranch =>
    have first : thenBranch ∈ (Statement.conditional condition thenBranch elseBranch).children :=
      List.mem_cons_self
    cases elseBranch with
    | none =>
      simp only [shapeCode, conditionalCode, Code.nested_append, Code.nested, List.nil_append,
        List.append_nil] at mem
      exact nests_plain tree found first rfl mem rfl
    | some elseBranch =>
      have second : elseBranch ∈
          (Statement.conditional condition thenBranch (some elseBranch)).children :=
        List.mem_cons_of_mem _ (List.mem_singleton_self _)
      simp only [shapeCode, conditionalCode, Code.nested_append, Code.nested, List.nil_append,
        List.append_nil, Code.nested_onlyIf_instr, List.mem_append] at mem
      exact mem.elim (nests_plain tree found first rfl · rfl)
        (nests_plain tree found second rfl · rfl)
  | tryBlock parts => exact nests_tryCode tree found mem
  | labeled label body => exact nests_plain tree found List.mem_cons_self rfl mem rfl
  | loop condition body =>
    simp only [shapeCode, loopCode, Code.nested_append, Code.nested, List.nil_append,
      List.append_nil, Code.nested_onlyIf_instr] at mem
    exact nests_plain tree found List.mem_cons_self rfl mem rfl
  | switch sections default =>
    simp only [shapeCode, switchCode, Code.nested_append, Code.nested, List.nil_append,
      List.append_nil] at mem
    refine Code.forall_nested_concat (motive := fun part ↦ ∃ scopes',
      flow.Nests config scopes place part scopes') (fun code listed inside around ↦ ?_)
      (by rfl) part mem
    obtain ⟨child, member, rfl⟩ := List.mem_map.mp listed
    intro part mem
    simp only [Code.nested_append, Code.nested, List.nil_append, Code.nested_onlyIf_instr,
      List.append_nil] at mem
    exact nests_plain tree found member rfl mem around
  | synthetic kind body => exact nests_syntheticCode tree found mem
  | jump form =>
    simp only [shapeCode, jumpCode] at mem
    repeat' split at mem
    all_goals cases mem
  | expression | throwException | rethrow | lambda => cases mem

end Shapes

end Flow
end ProtectedRegions
