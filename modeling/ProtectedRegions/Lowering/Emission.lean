import ProtectedRegions.Code.Basic
import ProtectedRegions.Lowering.Cleanup

/-!
# Code of statements

Each statement becomes structured code, given the protected bodies and handlers it lies in.
A jump leaves if one of them does not hold its target, and branches otherwise. Dead code is
laid out like live code; what may follow it is assumed to follow it.
-/

namespace ProtectedRegions

/-- The label key that a jump names (`regions/builder:380–383`). -/
def JumpTarget.labelKey : JumpTarget → LabelKey
  | .atLabel label _ => .user label
  | .breakOf construct => .endOf construct
  | .continueOf loop => .head loop
  | .returnFrom _ => .methodExit

/-- The code of a statement inside the given scopes, innermost first. -/
abbrev Emitter := StmtId → List StmtId → Code

namespace Flow

/-- Whether code goes on behind a statement. Dead code is taken to fall through, so that a region
of dead code still ends in its exit instruction (`regions/builder:271–275`). -/
def runsOn (flow : Flow) (stmt : StmtId) : Bool :=
  flow.completes stmt || !flow.isReachable stmt

/-- A jump: a branch inside the scopes it lies in, a leave out of them. -/
def jumpCode (flow : Flow) (stmt : StmtId) (scopes : List StmtId) : Code :=
  match flow.target? stmt with
  | none => .nothing
  | some (.returnFrom _) =>
    if scopes.isEmpty then .instr stmt .ret else .instr stmt (.leave .methodExit)
  | some target =>
    if scopes.all (flow.contains · target.scope) then .instr stmt (.branch target.labelKey)
    else .instr stmt (.leave target.labelKey)

/-- A conditional: a branch around the arm whose condition fails. -/
def conditionalCode (flow : Flow) (emit : StmtId → Code) (stmt thenBranch : StmtId) :
    Option StmtId → Code
  | none =>
    .instr stmt (.branchIf (.endOf stmt)) ++ emit thenBranch ++ .mark (.endOf stmt)
  | some elseBranch =>
    .instr stmt (.branchIf (.elseOf elseBranch)) ++ emit thenBranch ++
      .onlyIf (flow.runsOn thenBranch) (.instr stmt (.branch (.endOf stmt))) ++
      .mark (.elseOf elseBranch) ++ emit elseBranch ++ .mark (.endOf stmt)

/-- A loop: the test at its head, and a branch back from the end of its body. -/
def loopCode (flow : Flow) (emit : StmtId → Code) (stmt : StmtId) (condition : Condition)
    (body : StmtId) : Code :=
  .mark (.head stmt) ++
    .onlyIf (condition != .always) (.instr stmt (.branchIf (.endOf stmt))) ++ emit body ++
    .onlyIf (flow.runsOn body) (.instr stmt (.branch (.head stmt))) ++ .mark (.endOf stmt)

/-- A switch: a jump table, a branch to the default section, and the sections. -/
def switchCode (flow : Flow) (emit : StmtId → Code) (stmt : StmtId) (sections : List StmtId)
    (default : Option Nat) : Code :=
  let otherwise := ((default.bind (sections[·]?)).map LabelKey.caseOf).getD (.endOf stmt)
  .instr stmt (.switch (sections.map LabelKey.caseOf)) ++ .instr stmt (.branch otherwise) ++
    .concat (sections.map fun part ↦
      .mark (.caseOf part) ++ emit part ++
        .onlyIf (flow.runsOn part) (.instr stmt (.branch (.endOf stmt)))) ++
    .mark (.endOf stmt)

/-- A protected body or catch handler: it leaves to the end of its owner. -/
def protectedCode (flow : Flow) (emit : Emitter) (scopes : List StmtId) (owner part : StmtId) :
    Code :=
  emit part (part :: scopes) ++ .onlyIf (flow.runsOn part) (.instr owner (.leave (.endOf owner)))

/-- The handler of a `finally` or `fault`. -/
def handlerCode (flow : Flow) (emit : Emitter) (scopes : List StmtId) (owner handler : StmtId) :
    Code :=
  emit handler (handler :: scopes) ++ .onlyIf (flow.runsOn handler) (.instr owner .endFinally)

/-- A catch clause: its filter, if it has one, and its handler. -/
def catchCode (flow : Flow) (emit : Emitter) (scopes : List StmtId) (stmt : StmtId)
    (place : Nat) (clause : CatchClause) : Code :=
  let info : CatchInfo := ⟨place, clause.exceptionType, clause.binder, clause.isFiltered⟩
  let query := (ExitQuery.ofScope clause.body stmt).owning clause.body
  .onlyIf clause.isFiltered
    (.region ⟨.filterBlock, .user, clause.body, some info, []⟩
      (.instr stmt (.filter stmt place) ++ .instr stmt .endFilter)) ++
  .region ⟨.catchBlock, .user, clause.body, some info, flow.exits query⟩
    (flow.protectedCode emit scopes stmt clause.body) ++
  .notes (flow.exitEvents query)

/-- The body of a `try` as a protected block. -/
def tryBodyCode (flow : Flow) (emit : Emitter) (scopes : List StmtId) (stmt body : StmtId) :
    Code :=
  let query := ExitQuery.ofScope body stmt
  .region ⟨.tryBlock, .user, body, none, flow.exits query⟩
    (flow.protectedCode emit scopes stmt body) ++
  .notes (flow.exitEvents query)

/-- The body and the catch clauses of a `try`, grouped if there are any clauses. -/
def groupCode (flow : Flow) (emit : Emitter) (scopes : List StmtId) (stmt : StmtId)
    (parts : TryStatement) : Code :=
  let query := ExitQuery.ofParts parts.protectedParts stmt stmt
  let body := flow.tryBodyCode emit scopes stmt parts.body
  if parts.catches.isEmpty then body
  else
    .region ⟨.tryBlock, .user, stmt, none, flow.exits query⟩
      (body ++ .concat (parts.catches.zipIdx.map fun (clause, place) ↦
        flow.catchCode emit scopes stmt place clause)) ++
    .notes (flow.exitEvents query)

/-- A `try`: its group inside the `finally` or `fault`, if there is one. -/
def tryCode (flow : Flow) (emit : Emitter) (scopes : List StmtId) (stmt : StmtId)
    (parts : TryStatement) : Code :=
  let query := ExitQuery.ofParts parts.protectedParts stmt stmt
  let group := flow.groupCode emit scopes stmt parts
  (match parts.handler with
    | none => group
    | some clause =>
      .handled ⟨clause.kind.regionKind, .user, stmt, none, flow.exits query⟩ group
        (flow.handlerCode emit scopes stmt clause.body) ++
      .notes (flow.exitEvents query)) ++
  .mark (.endOf stmt)

/-- A synthetic statement: the cleanup in a `finally`, or right behind the body. -/
def syntheticCode (flow : Flow) (config : Config) (emit : Emitter) (scopes : List StmtId)
    (stmt : StmtId) (kind : SyntheticKind) (body : StmtId) : Code :=
  let decision := flow.decideCleanup config kind stmt body
  (if decision.isProtected then
    .handled ⟨.finallyBlock, .synthetic kind, stmt, none, decision.exits⟩
      (.region ⟨.tryBlock, .synthetic kind, body, none, decision.exits⟩
        (flow.protectedCode emit scopes stmt body))
      (.instr stmt (.cleanup stmt kind) ++ .instr stmt .endFinally)
  else
    emit body scopes ++ .onlyIf (flow.runsOn body) (.instr stmt (.cleanup stmt kind))) ++
  .mark (.endOf stmt)

/-- The code of a statement of the given shape. -/
def shapeCode (flow : Flow) (config : Config) (emit : Emitter) (scopes : List StmtId)
    (stmt : StmtId) : Statement → Code
  | .block children => .concat (children.map (emit · scopes))
  | .expression _ => .instr stmt (.code stmt)
  | .conditional _ thenBranch elseBranch =>
    flow.conditionalCode (emit · scopes) stmt thenBranch elseBranch
  | .tryBlock parts => flow.tryCode emit scopes stmt parts
  | .labeled label body => .mark (.user label) ++ emit body scopes
  | .jump _ => flow.jumpCode stmt scopes
  | .throwException => .instr stmt .throwException
  | .rethrow => .instr stmt .rethrow
  | .loop condition body => flow.loopCode (emit · scopes) stmt condition body
  | .switch sections default => flow.switchCode (emit · scopes) stmt sections default
  | .synthetic kind body => flow.syntheticCode config emit scopes stmt kind body
  | .lambda _ => .instr stmt (.closure stmt)

/-- Reports a statement that cannot run although the one around it can. -/
def deadNote (flow : Flow) (stmt : StmtId) (shape : Statement) : Code :=
  .onlyIf (!flow.isReachable stmt && (flow.body.parent? stmt).any flow.isReachable)
    (.note (.unreachable shape.name stmt))

/-- The code of a statement inside the given scopes. -/
def emit (flow : Flow) (config : Config) : Emitter :=
  flow.body.recurse
    (fun stmt below scopes ↦
      match flow.body.get? stmt with
      | none => .nothing
      | some shape =>
        .statement stmt (flow.deadNote stmt shape ++ flow.shapeCode config below scopes stmt shape))
    (fun _ ↦ .nothing)

/-- The epilogue of a method. It is there if control can run to the end of the code, by
falling through or by a branch, or if a leave goes to the method exit. -/
def epilogue (flow : Flow) (root : StmtId) (layout : Layout) : Code :=
  .onlyIf (flow.runsOn root || layout.mentions .methodExit ||
      layout.targets layout.offset)
    (.mark .methodExit ++ .instr root .ret)

end Flow
end ProtectedRegions
