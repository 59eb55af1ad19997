import ProtectedRegions.Proofs.Lowering.Built

/-!
# What code shows

A selection of instructions that leaves out all transfers of control sees a method as a recursion
over the tree of its statements. Branches, leaves and the ends of handlers come and go with what
is reachable; the other instructions do not, apart from the cleanups.
-/

namespace ProtectedRegions

namespace Code

variable {α : Type} {shows : Instruction LabelKey → Option α}

/-- What a selection shows of code, in the order of the instructions. -/
def shown (shows : Instruction LabelKey → Option α) (code : Code) : List α :=
  code.instrs.filterMap fun (_, operation) ↦ shows operation

@[simp]
theorem shown_append {first second : Code} :
    (first ++ second).shown shows = first.shown shows ++ second.shown shows :=
  List.filterMap_append

@[simp]
theorem shown_mark {label : LabelKey} : (mark label).shown shows = [] := rfl

@[simp]
theorem shown_note {event : Event} : (note event).shown shows = [] := rfl

@[simp]
theorem shown_instr {source : StmtId} {operation : Instruction LabelKey} :
    (instr source operation).shown shows = (shows operation).toList := by
  cases found : shows operation <;> simp [shown, instrs, found]

@[simp]
theorem shown_region {head : RegionHead} {inner : Code} :
    (region head inner).shown shows = inner.shown shows := rfl

@[simp]
theorem shown_handled {head : RegionHead} {inner handler : Code} :
    (handled head inner handler).shown shows = inner.shown shows ++ handler.shown shows :=
  List.filterMap_append

@[simp]
theorem shown_onlyIf {condition : Bool} {code : Code} :
    (onlyIf condition code).shown shows = if condition then code.shown shows else [] := by
  cases condition <;> rfl

@[simp]
theorem shown_concat {parts : List Code} :
    (concat parts).shown shows = parts.flatMap (·.shown shows) := by
  induction parts with
  | nil => rfl
  | cons first rest ih =>
    rw [List.flatMap_cons, ← ih]
    exact shown_append

@[simp]
theorem shown_notes {events : List Event} : (notes events).shown shows = [] := by
  simp [notes, List.flatMap_map]

/-- Selected instructions stand among the tokens. -/
theorem filterMap_shown (code : Code) (place : Place) :
    (code.tokens place).filterMap (fun entry ↦
      (Token.placed? entry).bind fun placed ↦ shows placed.1.2) = code.shown shows := by
  rw [← List.filterMap_filterMap, filterMap_placed?, shown]
  conv_rhs => rw [← List.zipIdx_map_fst place.offset code.instrs, List.filterMap_map]
  rfl

end Code

namespace Flow

variable {α : Type} {flow : Flow} {config : Config}

/-- The selection leaves out the instructions that only pass control on. -/
structure HidesTransfers (shows : Instruction LabelKey → Option α) : Prop where
  branch (target : LabelKey) : shows (.branch target) = none
  branchIf (target : LabelKey) : shows (.branchIf target) = none
  switch (targets : List LabelKey) : shows (.switch targets) = none
  leave (target : LabelKey) : shows (.leave target) = none
  ret : shows .ret = none
  endFilter : shows .endFilter = none
  endFinally : shows .endFinally = none

section Shapes

variable (flow) (config) (shows : Instruction LabelKey → Option α) (below : StmtId → List α)

/-- What is shown of a statement of the given shape, from what is shown of its children. -/
def shownShape (stmt : StmtId) : Statement → List α
  | .expression _ => (shows (.code stmt)).toList
  | .throwException => (shows .throwException).toList
  | .rethrow => (shows .rethrow).toList
  | .lambda _ => (shows (.closure stmt)).toList
  | .tryBlock parts =>
    below parts.body ++
      parts.catches.zipIdx.flatMap (fun (clause, place) ↦
        (if clause.isFiltered then (shows (.filter stmt place)).toList else []) ++
          below clause.body) ++
      parts.handler.toList.flatMap fun clause ↦ below clause.body
  | .synthetic kind body =>
    below body ++
      if (flow.decideCleanup config kind stmt body).isProtected || flow.runsOn body then
        (shows (.cleanup stmt kind)).toList
      else []
  | shape => shape.children.flatMap below

end Shapes

variable {shows : Instruction LabelKey → Option α} (hides : HidesTransfers shows)

include hides

/-- Nothing is shown of an epilogue. -/
theorem shown_epilogue (root : StmtId) (layout : Layout) :
    (flow.epilogue root layout).shown shows = [] := by
  obtain none | epilogue := flow.epilogue_cases root layout
  · rw [none]
    rfl
  · simp [epilogue, hides.ret]

private theorem shown_protectedCode {emit : Emitter} {scopes : List StmtId} {owner part : StmtId} :
    (flow.protectedCode emit scopes owner part).shown shows =
      (emit part (part :: scopes)).shown shows := by
  simp [protectedCode, hides.leave]

private theorem shown_catchCode {emit : Emitter} {scopes : List StmtId} {stmt : StmtId}
    {place : Nat} {clause : CatchClause} {list : List α}
    (inner : ∀ scopes, (emit clause.body scopes).shown shows = list) :
    (flow.catchCode emit scopes stmt place clause).shown shows =
      (if clause.isFiltered then (shows (.filter stmt place)).toList else []) ++ list := by
  simp [catchCode, shown_protectedCode hides, hides.endFilter, inner]

/-- What is shown of the group of a `try`, if the same is shown of its parts in all scopes. -/
private theorem shown_groupCode {emit : Emitter} {below : StmtId → List α} {scopes : List StmtId}
    {stmt : StmtId} {parts : TryStatement}
    (inner : ∀ part ∈ parts.protectedParts, ∀ scopes, (emit part scopes).shown shows = below part) :
    (flow.groupCode emit scopes stmt parts).shown shows =
      below parts.body ++ parts.catches.zipIdx.flatMap fun (clause, place) ↦
        (if clause.isFiltered then (shows (.filter stmt place)).toList else []) ++
          below clause.body := by
  have body := inner parts.body List.mem_cons_self
  have clauses : (parts.catches.zipIdx.flatMap fun (clause, place) ↦
      (flow.catchCode emit scopes stmt place clause).shown shows) =
      parts.catches.zipIdx.flatMap fun (clause, place) ↦
        (if clause.isFiltered then (shows (.filter stmt place)).toList else []) ++
          below clause.body := by
    apply List.flatMap_congr
    intro entry mem
    apply shown_catchCode hides
    apply inner
    exact List.mem_cons_of_mem _ (List.mem_map_of_mem (List.fst_mem_of_mem_zipIdx mem))
  by_cases none : parts.catches.isEmpty = true
  · simp [groupCode, tryBodyCode, List.isEmpty_iff.mp none, shown_protectedCode hides, body]
  · simp only [groupCode, tryBodyCode, none, Bool.false_eq_true, if_false, Code.shown_append,
      Code.shown_region, Code.shown_notes, Code.shown_concat, List.flatMap_map,
      shown_protectedCode hides, body, clauses, List.append_nil]

/-- What is shown of the code of a statement, if the same is shown of its children in all scopes. -/
theorem shown_shapeCode {emit : Emitter} {below : StmtId → List α} {scopes : List StmtId}
    {stmt : StmtId} {shape : Statement}
    (inner : ∀ child ∈ shape.children, ∀ scopes, (emit child scopes).shown shows = below child) :
    (flow.shapeCode config emit scopes stmt shape).shown shows =
      flow.shownShape config shows below stmt shape := by
  cases shape with
  | block children =>
    have children : (children.flatMap fun child ↦ (emit child scopes).shown shows) =
        children.flatMap below :=
      List.flatMap_congr fun child mem ↦ inner child mem scopes
    simp [shapeCode, shownShape, Statement.children, List.flatMap_map, children]
  | conditional condition thenBranch elseBranch =>
    have first := inner thenBranch List.mem_cons_self scopes
    cases elseBranch with
    | none =>
      simp [shapeCode, conditionalCode, shownShape, Statement.children, hides.branchIf, first]
    | some elseBranch =>
      have second := inner elseBranch (by simp [Statement.children]) scopes
      simp [shapeCode, conditionalCode, shownShape, Statement.children, hides.branchIf,
        hides.branch, first, second]
  | tryBlock parts =>
    have guarded : ∀ part ∈ parts.protectedParts, ∀ scopes,
        (emit part scopes).shown shows = below part :=
      fun part mem ↦ inner part (List.mem_append_left _ mem)
    cases found : parts.handler with
    | none => simp [shapeCode, tryCode, shownShape, found, shown_groupCode hides guarded]
    | some clause =>
      have handler := inner clause.body (by simp [Statement.children, found])
      simp [shapeCode, tryCode, handlerCode, shownShape, found, shown_groupCode hides guarded,
        hides.endFinally, handler]
  | labeled label body =>
    simp [shapeCode, shownShape, Statement.children, inner body List.mem_cons_self]
  | jump form =>
    obtain ⟨-, code⟩ | ⟨target, operation, -, by', code⟩ := flow.jumpCode_eq stmt scopes
    · rw [shapeCode, code]
      rfl
    · have hidden : shows operation = none := by
        cases by' with
        | ret => exact hides.ret
        | leaveMethod | leave => exact hides.leave _
        | branch => exact hides.branch _
      simp [shapeCode, code, shownShape, Statement.children, hidden]
  | loop condition body =>
    simp [shapeCode, loopCode, shownShape, Statement.children, hides.branchIf, hides.branch,
      inner body List.mem_cons_self]
  | switch sections default =>
    have sections : (sections.flatMap fun part ↦ (emit part scopes).shown shows) =
        sections.flatMap below :=
      List.flatMap_congr fun part mem ↦ inner part mem scopes
    simp [shapeCode, switchCode, shownShape, Statement.children, hides.switch, hides.branch,
      List.flatMap_map, sections]
  | synthetic kind body =>
    have part := inner body List.mem_cons_self
    by_cases guarded : (flow.decideCleanup config kind stmt body).isProtected = true
    · simp [shapeCode, syntheticCode, shownShape, guarded, shown_protectedCode hides,
        hides.endFinally, part]
    · simp [shapeCode, syntheticCode, shownShape, guarded, part]
  | expression | throwException | rethrow | lambda => simp [shapeCode, shownShape]

/-- What is shown of a statement does not depend on the scopes it is laid out in, and consists of
what is shown of its shape and of its children. -/
theorem shown_emit (config : Config) (tree : flow.body.IsTree) {stmt : StmtId} {shape : Statement}
    (found : flow.body.get? stmt = some shape) (scopes : List StmtId) :
    (flow.emit config stmt scopes).shown shows =
      flow.shownShape config shows (fun child ↦ (flow.emit config child []).shown shows) stmt
        shape := by
  have template {stmt : StmtId} {shape : Statement} (found : flow.body.get? stmt = some shape)
      (scopes : List StmtId) (inner : ∀ child ∈ shape.children, ∀ scopes,
        (flow.emit config child scopes).shown shows = (flow.emit config child []).shown shows) :
      (flow.emit config stmt scopes).shown shows =
        flow.shownShape config shows (fun child ↦ (flow.emit config child []).shown shows) stmt
          shape := by
    have code : (flow.template config scopes stmt shape).shown shows =
        flow.shownShape config shows (fun child ↦ (flow.emit config child []).shown shows) stmt
          shape := by
      simp [Flow.template, deadNote, shown_shapeCode hides inner]
    rw [emit_eq config tree found]
    exact code
  have free {stmt : StmtId} (has : flow.body.has stmt = true) : ∀ scopes,
      (flow.emit config stmt scopes).shown shows = (flow.emit config stmt []).shown shows := by
    apply tree.inductionUp (motive := fun stmt ↦ ∀ scopes,
      (flow.emit config stmt scopes).shown shows = (flow.emit config stmt []).shown shows) ?_ has
    intro stmt shape found ih scopes
    rw [template found scopes ih, template found [] ih]
  apply template found scopes
  intro child mem
  exact free (tree.has_child (Body.mem_children_of_get? found mem))

end Flow
end ProtectedRegions
