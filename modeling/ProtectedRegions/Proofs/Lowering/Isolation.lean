import ProtectedRegions.Proofs.Flow.Agreement
import ProtectedRegions.Proofs.Lowering.Built

/-!
# Isolation of methods

The tree of a method is made from the statements of the method alone. Two bodies that share a
method have the same tree for it, under every configuration, whatever the rest of them is: the
code around a lambda does not depend on what is inside of it, nor the code inside on what is
around.
-/

namespace ProtectedRegions

namespace Code

/-- Codes that are laid out alike: they may differ in what takes no space and has no label. -/
structure Alike (first second : Code) : Prop where
  size : first.size = second.size
  regionCount : first.regionCount = second.regionCount
  outermost (next : Nat) : first.outermost next = second.outermost next
  regions (offset next : Nat) (parent : Option RegionId) :
    first.regions offset next parent = second.regions offset next parent
  instrs : first.instrs = second.instrs
  placements (offset : Nat) : first.placements offset = second.placements offset

/-- The bracket of a statement and an event at its start change nothing. -/
theorem alike_statement (stmt : StmtId) (condition : Bool) (event : Event) (code : Code) :
    (statement stmt (.onlyIf condition (.note event) ++ code)).Alike code := by
  cases condition <;> constructor <;>
    simp [onlyIf, append_eq, size, regionCount, Code.outermost, Code.regions, Code.instrs,
      Code.placements]

variable {first second : Code} (alike : first.Alike second)

include alike

theorem Alike.symm : second.Alike first where
  size := alike.size.symm
  regionCount := alike.regionCount.symm
  outermost next := (alike.outermost next).symm
  regions offset next parent := (alike.regions offset next parent).symm
  instrs := alike.instrs.symm
  placements offset := (alike.placements offset).symm

theorem Alike.trans {third : Code} (alike' : second.Alike third) : first.Alike third where
  size := alike.size.trans alike'.size
  regionCount := alike.regionCount.trans alike'.regionCount
  outermost next := (alike.outermost next).trans (alike'.outermost next)
  regions offset next parent :=
    (alike.regions offset next parent).trans (alike'.regions offset next parent)
  instrs := alike.instrs.trans alike'.instrs
  placements offset := (alike.placements offset).trans (alike'.placements offset)

/-- Codes with the same code behind them are laid out alike if they are. -/
theorem Alike.append (later : Code) : (first ++ later).Alike (second ++ later) where
  size := by rw [append_eq, append_eq, Code.size, Code.size, alike.size]
  regionCount := by
    rw [append_eq, append_eq, Code.regionCount, Code.regionCount, alike.regionCount]
  outermost next := by
    rw [append_eq, append_eq, Code.outermost, Code.outermost, alike.outermost, alike.regionCount]
  regions offset next parent := by
    rw [append_eq, append_eq, Code.regions, Code.regions, alike.regions, alike.size,
      alike.regionCount]
  instrs := by rw [append_eq, append_eq, Code.instrs, Code.instrs, alike.instrs]
  placements offset := by
    rw [append_eq, append_eq, Code.placements, Code.placements, alike.placements, alike.size]

theorem Alike.layout : first.layout = second.layout := by
  rw [Code.layout, Code.layout, alike.instrs, alike.placements]

theorem Alike.linked : first.linked = second.linked := by
  have same : first.offsetOf = second.offsetOf := by
    funext label
    rw [offsetOf, offsetOf, alike.layout]
  rw [Code.linked, Code.linked, alike.instrs, same]

end Code

namespace Flow.Shared

variable {flow flow' : Flow} {root : StmtId} (shared : flow.Shared flow' root)

include shared

section Shapes

variable {stmt : StmtId} (runs : flow.body.RunsIn root stmt)

include runs

/-- The statements of the method from which code goes on are the same. -/
theorem runsOn_eq : flow'.runsOn stmt = flow.runsOn stmt := by
  rw [runsOn, runsOn, shared.completes_eq runs, shared.isReachable_eq runs]

/-- The exits of one scope of the method are the same. -/
theorem exits_ofScope {scope : StmtId} (runs' : flow.body.RunsIn root scope) :
    flow'.exits (.ofScope scope stmt) = flow.exits (.ofScope scope stmt) ∧
      flow'.exitEvents (.ofScope scope stmt) = flow.exitEvents (.ofScope scope stmt) :=
  shared.exits_eq (List.forall_mem_singleton.mpr runs') runs' runs

/-- The jumps of the method have the same code inside scopes of the method. -/
theorem jumpCode_eq {scopes : List StmtId}
    (within : ∀ scope ∈ scopes, flow.body.RunsIn root scope) :
    flow'.jumpCode stmt scopes = flow.jumpCode stmt scopes := by
  rw [jumpCode, jumpCode, shared.target?_eq runs]
  cases resolved : flow.target? stmt with
  | none => rfl
  | some target =>
    have runs' := shared.runsIn_of_target runs resolved
    have inside : scopes.all (flow'.contains · target.scope) =
        scopes.all (flow.contains · target.scope) := by
      rw [Bool.eq_iff_iff, List.all_eq_true, List.all_eq_true]
      exact forall₂_congr fun scope mem ↦ by rw [shared.contains_eq runs' (within scope mem)]
    cases target <;> simp only [inside]

/-- The cleanups of the method are decided alike. -/
theorem decideCleanup_eq {inner : StmtId} (runs' : flow.body.RunsIn root inner) (config : Config)
    (kind : SyntheticKind) :
    flow'.decideCleanup config kind stmt inner = flow.decideCleanup config kind stmt inner := by
  rw [decideCleanup, decideCleanup, (shared.exits_ofScope runs runs').1]

variable {emit emit' : Emitter} {parts : List StmtId} {scopes : List StmtId}
  (inside : ∀ part ∈ parts, flow.body.RunsIn root part)
  (same : ∀ part ∈ parts, ∀ scopes, (∀ scope ∈ scopes, flow.body.RunsIn root scope) →
    emit' part scopes = emit part scopes)
  (within : ∀ scope ∈ scopes, flow.body.RunsIn root scope)

include inside same within

omit runs in
private theorem protectedCode_eq {part : StmtId} (mem : part ∈ parts) :
    flow'.protectedCode emit' scopes stmt part = flow.protectedCode emit scopes stmt part := by
  rw [protectedCode, protectedCode, shared.runsOn_eq (inside part mem),
    same part mem _ (List.forall_mem_cons.mpr ⟨inside part mem, within⟩)]

omit runs in
private theorem handlerCode_eq {part : StmtId} (mem : part ∈ parts) :
    flow'.handlerCode emit' scopes stmt part = flow.handlerCode emit scopes stmt part := by
  rw [handlerCode, handlerCode, shared.runsOn_eq (inside part mem),
    same part mem _ (List.forall_mem_cons.mpr ⟨inside part mem, within⟩)]

private theorem catchCode_eq {clause : CatchClause} (mem : clause.body ∈ parts) (place : Nat) :
    flow'.catchCode emit' scopes stmt place clause =
      flow.catchCode emit scopes stmt place clause := by
  have runs' := inside clause.body mem
  obtain ⟨exits, events⟩ := @exits_eq _ _ _ shared
    ((ExitQuery.ofScope clause.body stmt).owning clause.body)
    (List.forall_mem_singleton.mpr runs') runs' runs
  rw [catchCode, catchCode, shared.protectedCode_eq inside same within mem, exits, events]

private theorem tryBodyCode_eq {part : StmtId} (mem : part ∈ parts) :
    flow'.tryBodyCode emit' scopes stmt part = flow.tryBodyCode emit scopes stmt part := by
  obtain ⟨exits, events⟩ := shared.exits_ofScope runs (inside part mem)
  rw [tryBodyCode, tryBodyCode, shared.protectedCode_eq inside same within mem, exits, events]

omit same within in
/-- A query over parts of a `try` has the same answer. -/
private theorem exits_ofParts {sources : List StmtId} (subset : sources ⊆ parts) :
    flow'.exits (.ofParts sources stmt stmt) = flow.exits (.ofParts sources stmt stmt) ∧
      flow'.exitEvents (.ofParts sources stmt stmt) =
        flow.exitEvents (.ofParts sources stmt stmt) :=
  shared.exits_eq (fun source mem ↦ inside source (subset mem)) runs runs

private theorem catchCodes_eq {clauses : List CatchClause}
    (mem : ∀ clause ∈ clauses, clause.body ∈ parts) :
    (clauses.zipIdx.map fun (clause, place) ↦
      flow'.catchCode emit' scopes stmt place clause) =
        clauses.zipIdx.map fun (clause, place) ↦
          flow.catchCode emit scopes stmt place clause :=
  List.map_congr_left fun _ listed ↦ shared.catchCode_eq runs inside same within
    (mem _ (List.fst_mem_of_mem_zipIdx listed)) _

private theorem groupCode_eq {statement : TryStatement}
    (subset : statement.protectedParts ⊆ parts) :
    flow'.groupCode emit' scopes stmt statement = flow.groupCode emit scopes stmt statement := by
  obtain ⟨exits, events⟩ := shared.exits_ofParts runs inside subset
  rw [groupCode, groupCode, exits, events,
    shared.tryBodyCode_eq runs inside same within (subset List.mem_cons_self),
    shared.catchCodes_eq runs inside same within fun clause mem ↦
      subset (List.mem_cons_of_mem _ (List.mem_map_of_mem mem))]

private theorem tryCode_eq {statement : TryStatement}
    (subset : (Statement.tryBlock statement).children ⊆ parts) :
    flow'.tryCode emit' scopes stmt statement = flow.tryCode emit scopes stmt statement := by
  have protectedParts : statement.protectedParts ⊆ parts :=
    fun part mem ↦ subset (List.mem_append_left _ mem)
  obtain ⟨exits, events⟩ := shared.exits_ofParts runs inside protectedParts
  rw [tryCode, tryCode, shared.groupCode_eq runs inside same within protectedParts, exits, events]
  cases handler : statement.handler with
  | none => rfl
  | some clause =>
    have mem : clause.body ∈ parts := subset (by simp [Statement.children, handler])
    simp only [shared.handlerCode_eq inside same within mem]

private theorem syntheticCode_eq {inner : StmtId} (mem : inner ∈ parts) (config : Config)
    (kind : SyntheticKind) : flow'.syntheticCode config emit' scopes stmt kind inner =
      flow.syntheticCode config emit scopes stmt kind inner := by
  rw [syntheticCode, syntheticCode, shared.decideCleanup_eq runs (inside inner mem),
    shared.protectedCode_eq inside same within mem, same inner mem scopes within,
    shared.runsOn_eq (inside inner mem)]

omit runs in
private theorem switchCode_eq (default : Option Nat) :
    flow'.switchCode (emit' · scopes) stmt parts default =
      flow.switchCode (emit · scopes) stmt parts default := by
  have sections : (parts.map fun part ↦ Code.mark (.caseOf part) ++ emit' part scopes ++
      Code.onlyIf (flow'.runsOn part) (.instr stmt (.branch (.endOf stmt)))) =
        parts.map fun part ↦ Code.mark (.caseOf part) ++ emit part scopes ++
          Code.onlyIf (flow.runsOn part) (.instr stmt (.branch (.endOf stmt))) :=
    List.map_congr_left fun part mem ↦ by
      rw [same part mem scopes within, shared.runsOn_eq (inside part mem)]
  rw [switchCode, switchCode, sections]

end Shapes

/-- A statement of the method has the same code around that of its children. -/
theorem shapeCode_eq {stmt : StmtId} (runs : flow.body.RunsIn root stmt) {shape : Statement}
    (found : flow.body.get? stmt = some shape) (config : Config) {emit emit' : Emitter}
    (same : shape.isLambda = false → ∀ part ∈ shape.children, ∀ scopes,
      (∀ scope ∈ scopes, flow.body.RunsIn root scope) → emit' part scopes = emit part scopes)
    {scopes : List StmtId} (within : ∀ scope ∈ scopes, flow.body.RunsIn root scope) :
    flow'.shapeCode config emit' scopes stmt shape =
      flow.shapeCode config emit scopes stmt shape := by
  cases plain : shape.isLambda with
  | true =>
    cases shape with
    | lambda => rfl
    | _ => cases plain
  | false =>
    have inside (part : StmtId) (mem : part ∈ shape.children) : flow.body.RunsIn root part :=
      shared.accepted.wellFormed.toIsTree.runsIn_child runs found plain mem
    have same := same plain
    cases shape with
    | block children =>
      exact congrArg Code.concat (List.map_congr_left fun part mem ↦ same part mem scopes within)
    | conditional condition thenBranch elseBranch =>
      have first : thenBranch ∈ thenBranch :: elseBranch.toList := List.mem_cons_self
      rw [shapeCode, shapeCode, conditionalCode.eq_def, conditionalCode.eq_def]
      cases elseBranch with
      | none => simp only [same thenBranch first scopes within]
      | some branch =>
        have second : branch ∈ thenBranch :: (some branch).toList :=
          List.mem_cons_of_mem _ (List.mem_singleton_self _)
        simp only [same thenBranch first scopes within, same branch second scopes within,
          shared.runsOn_eq (inside thenBranch first)]
    | tryBlock parts =>
      exact shared.tryCode_eq runs inside same within (List.Subset.refl _)
    | labeled label inner =>
      rw [shapeCode, shapeCode, same inner List.mem_cons_self scopes within]
    | loop condition inner =>
      rw [shapeCode, shapeCode, loopCode, loopCode, same inner List.mem_cons_self scopes within,
        shared.runsOn_eq (inside inner List.mem_cons_self)]
    | switch sections default => exact shared.switchCode_eq inside same within default
    | synthetic kind inner =>
      exact shared.syntheticCode_eq runs inside same within List.mem_cons_self config kind
    | jump form => exact shared.jumpCode_eq runs within
    | expression | throwException | rethrow => rfl
    | lambda => cases plain

/-- Whether a statement other than the root is reported as dead is the same. -/
theorem deadNote_eq {stmt : StmtId} (runs : flow.body.RunsIn root stmt) (inner : stmt ≠ root)
    (shape : Statement) : flow'.deadNote stmt shape = flow.deadNote stmt shape := by
  obtain ⟨parent, within⟩ := shared.bodies.parent?_eq runs inner
  rw [deadNote, deadNote, shared.isReachable_eq runs, parent]
  cases outer : flow.body.parent? stmt with
  | none => rfl
  | some parent =>
    rw [Option.any_some, Option.any_some, shared.isReachable_eq (within parent outer)]

/-- A part of a statement of the method that is no lambda is not the root of the method. -/
private theorem part_ne_root {stmt part : StmtId} {shape : Statement}
    (found : flow.body.get? stmt = some shape) (plain : shape.isLambda = false)
    (mem : part ∈ shape.children) : part ≠ root := by
  rintro rfl
  have lambda := shared.accepted.wellFormed.toIsTree.isLambda_of_root shared.member
    (Body.mem_children_of_get? found mem)
  rw [Body.isLambda, found, Option.any_some, plain] at lambda
  cases lambda

/-- A statement of the method other than its root has the same code inside the same scopes. -/
theorem emit_eq_of_ne (config : Config) {stmt : StmtId} (runs : flow.body.RunsIn root stmt)
    (inner : stmt ≠ root) : ∀ scopes : List StmtId,
      (∀ scope ∈ scopes, flow.body.RunsIn root scope) →
        flow'.emit config stmt scopes = flow.emit config stmt scopes := by
  have tree := shared.accepted.wellFormed.toIsTree
  have tree' := shared.accepted'.wellFormed.toIsTree
  refine tree.inductionUp (motive := fun stmt ↦ flow.body.RunsIn root stmt → stmt ≠ root →
    ∀ scopes, (∀ scope ∈ scopes, flow.body.RunsIn root scope) →
      flow'.emit config stmt scopes = flow.emit config stmt scopes)
    (fun stmt shape found ih runs inner scopes within ↦ ?_) runs.1 runs inner
  rw [emit_eq config tree found, emit_eq config tree' ((shared.bodies.get?_eq runs).trans found),
    template, template, shared.deadNote_eq runs inner,
    shared.shapeCode_eq runs found config (fun plain part mem ↦ ?_) within]
  exact ih part mem (tree.runsIn_child runs found plain mem) (shared.part_ne_root found plain mem)

/-- The code of the whole method is laid out alike: the flows may differ only in whether they
report its root as dead. -/
theorem alike_emit (config : Config) :
    (flow'.emit config root []).Alike (flow.emit config root []) := by
  have tree := shared.accepted.wellFormed.toIsTree
  have tree' := shared.accepted'.wellFormed.toIsTree
  have runs := tree.runsIn_root shared.member
  obtain ⟨shape, found⟩ := Body.has_iff_get?.mp runs.1
  have code : flow'.shapeCode config (flow'.emit config) [] root shape =
      flow.shapeCode config (flow.emit config) [] root shape :=
    shared.shapeCode_eq runs found config (fun plain part mem ↦ shared.emit_eq_of_ne config
      (tree.runsIn_child runs found plain mem) (shared.part_ne_root found plain mem))
      (List.forall_mem_nil _)
  rw [emit_eq config tree found, emit_eq config tree' ((shared.bodies.get?_eq runs).trans found),
    template, template, code]
  exact (Code.alike_statement _ _ _ _).trans (Code.alike_statement _ _ _ _).symm

/-- The method has the same tree in both flows. -/
theorem methodTree_eq (config : Config) :
    flow'.methodTree config root = flow.methodTree config root := by
  have runs := shared.accepted.wellFormed.toIsTree.runsIn_root shared.member
  have alike := shared.alike_emit config
  have epilogue : flow'.epilogue root (flow'.emit config root []).layout =
      flow.epilogue root (flow.emit config root []).layout := by
    rw [Flow.epilogue, Flow.epilogue, shared.runsOn_eq runs, alike.layout]
  have code : (flow'.methodCode config root).Alike (flow.methodCode config root) := by
    rw [methodCode, methodCode, epilogue]
    exact alike.append _
  have head : flow'.methodHead root = flow.methodHead root := by
    rw [methodHead, methodHead, (shared.exits_ofScope runs runs).1]
  rw [methodTree, methodTree, code.linked, head, Code.regions, Code.regions, code.size,
    code.outermost, code.regions]

end Flow.Shared

/-- Whether the same tree is built for the method at `root` in both bodies, and no other. -/
def Config.BuildsAlike (config : Config) (body body' : Body) (root : StmtId) : Prop :=
  ∃ tree, tree.method = root ∧ config.Builds body tree ∧ config.Builds body' tree ∧
    ∀ other, other.method = root → config.Builds body other ∨ config.Builds body' other →
      other = tree

/-- A method that two flows share has one tree for both bodies. -/
theorem Flow.Shared.buildsAlike {flow flow' : Flow} {root : StmtId}
    (shared : flow.Shared flow' root) {config : Config}
    (trees : ∀ tree, config.Builds flow.body tree ↔
      ∃ root ∈ flow.body.methods, tree = flow.methodTree config root)
    (trees' : ∀ tree, config.Builds flow'.body tree ↔
      ∃ root ∈ flow'.body.methods, tree = flow'.methodTree config root) :
    config.BuildsAlike flow.body flow'.body root := by
  refine ⟨flow.methodTree config root, rfl, (trees _).mpr ⟨root, shared.member, rfl⟩,
    (trees' _).mpr ⟨root, shared.member', (shared.methodTree_eq config).symm⟩, ?_⟩
  rintro other rfl (builds | builds)
  · obtain ⟨root, -, rfl⟩ := (trees _).mp builds
    rfl
  · obtain ⟨root, -, rfl⟩ := (trees' _).mp builds
    exact shared.methodTree_eq config

namespace Config

/-- Methods do not interfere. If two bodies of which trees are built have the same statements in a
method, then under every configuration the same tree is built for it, with the same instructions
and the same regions with their bounds and exits. So what is inside of a lambda does not change
the tree of any method outside of it. -/
theorem methods_isolated {draft draft' : Draft} {body body' : Body}
    (made : draft.toBody = .ok body) (made' : draft'.toBody = .ok body')
    {config₀ config₁ : Config} {tree₀ tree₁ : RegionTree} (builds : config₀.Builds body tree₀)
    (builds' : config₁.Builds body' tree₁) :
    (∀ root, root ∈ body.methods → root ∈ body'.methods → body.AgreeOn body' root →
      ∀ config : Config, config.BuildsAlike body body' root) ∧
    ∀ inner, inner ∈ body.lambdaBodies → inner ∈ body'.lambdaBodies →
      body.AgreeOutside body' inner →
        ∀ root ∈ body.methods, ¬ body.Inside inner root →
          ∀ config : Config, config.BuildsAlike body body' root := by
  obtain ⟨flow, analysed⟩ := builds.exists_flow
  obtain ⟨flow', analysed'⟩ := builds'.exists_flow
  obtain ⟨accepted, same, -⟩ := builds.exists_root made analysed
  obtain ⟨accepted', same', -⟩ := builds'.exists_root made' analysed'
  have check := ((builds_iff made analysed).mp builds).1
  have check' := ((builds_iff made' analysed').mp builds').1
  subst same same'
  have alike (root : StmtId) (member : root ∈ flow.body.methods)
      (member' : root ∈ flow'.body.methods) (agree : flow.body.AgreeOn flow'.body root)
      (config : Config) : config.BuildsAlike flow.body flow'.body root :=
    Flow.Shared.buildsAlike ⟨accepted, accepted', member, member', agree⟩
      (fun tree ↦ (builds_iff made analysed).trans (and_iff_right check))
      (fun tree ↦ (builds_iff made' analysed').trans (and_iff_right check'))
  refine ⟨alike, fun inner lambda lambda' agree root member out ↦ ?_⟩
  have tree := accepted.wellFormed.toIsTree
  have tree' := accepted'.wellFormed.toIsTree
  exact alike root member (agree.mem_methods tree tree' member out)
    (agree.agreeOn tree tree' (List.mem_cons_of_mem _ lambda) (List.mem_cons_of_mem _ lambda')
      member out)

end Config

/-- A `try` around two lambdas, with a statement in the first of them. -/
def Draft.capturing (inside : Statement) : Draft where
  statements := #[inside, .lambda ⟨0⟩, .expression [], .lambda ⟨2⟩, .block [⟨1⟩, ⟨3⟩],
    .expression [], .tryFinally ⟨4⟩ ⟨5⟩]
  labelCount := 0
  localCount := 0
  root := ⟨6⟩

/-- Whether the first lambda throws changes neither the second lambda nor the method of both. -/
theorem Config.methods_isolated_capturing :
    ∃ body body', (Draft.capturing (.expression [])).toBody = .ok body ∧
      (Draft.capturing .throwException).toBody = .ok body' ∧ ¬ body.AgreeOn body' ⟨0⟩ ∧
      (∀ config : Config, config.BuildsAlike body body' ⟨2⟩) ∧
      ∀ config : Config, config.BuildsAlike body body' ⟨6⟩ := by
  have captures : Config.default.tests (.capturing (.expression [])) (fun flow _ ↦
      Config.default.tests (.capturing .throwException) (fun flow' _ ↦ decide
        ((⟨2⟩ ∈ flow.body.methods ∧ ⟨2⟩ ∈ flow'.body.methods ∧
          flow.body.AgreeOn flow'.body ⟨2⟩ ∧ ¬ flow.body.AgreeOn flow'.body ⟨0⟩) ∧
        ⟨0⟩ ∈ flow.body.lambdaBodies ∧ ⟨0⟩ ∈ flow'.body.lambdaBodies ∧
          (∀ stmt ∈ flow.body.ids ++ flow'.body.ids,
            (flow.body.get? stmt).filter (fun _ ↦ decide (⟨0⟩ ∉ flow.body.lineage stmt)) =
              (flow'.body.get? stmt).filter (fun _ ↦ decide (⟨0⟩ ∉ flow'.body.lineage stmt))) ∧
          ⟨6⟩ ∈ flow.body.methods ∧ ⟨0⟩ ∉ flow.body.lineage ⟨6⟩))) = true := by
    decide +kernel
  obtain ⟨body, flow, first, made, analysed, built, holds⟩ := exists_built captures
  obtain ⟨body', flow', second, made', analysed', built', holds⟩ := exists_built holds
  obtain ⟨accepted, rfl, -⟩ := Builds.exists_root made analysed (.outer built)
  obtain ⟨accepted', rfl, -⟩ := Builds.exists_root made' analysed' (.outer built')
  obtain ⟨⟨member, member', agree, differ⟩, lambda, lambda', outside, outer, out⟩ :=
    of_decide_eq_true holds
  have tree := accepted.wellFormed.toIsTree
  have agreeOutside := (Body.agreeOutside_iff tree accepted'.wellFormed.toIsTree).mpr outside
  rw [tree.mem_lineage (tree.has_of_mem_methods outer)] at out
  obtain ⟨own, around⟩ := methods_isolated made made' (.outer built) (.outer built')
  exact ⟨flow.body, flow'.body, made, made', differ, own ⟨2⟩ member member' agree,
    around ⟨0⟩ lambda lambda' agreeOutside ⟨6⟩ outer out⟩

end ProtectedRegions
