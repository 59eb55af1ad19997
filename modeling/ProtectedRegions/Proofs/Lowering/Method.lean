import ProtectedRegions.Proofs.Flow.Routes
import ProtectedRegions.Proofs.Flow.Search
import ProtectedRegions.Proofs.Lowering.Construction
import ProtectedRegions.Proofs.Lowering.Emission

/-!
# Laying out statements

Each step of the pass over a method performs the structured code of its statement. Inside a `try`
the pass opens and closes its regions in a flat sequence; taken together from the innermost region
outward the sequence is nested as the code is.
-/

namespace ProtectedRegions
namespace Flow

variable {flow : Flow} {config : Config} {scopes : List StmtId} {stmt : StmtId}
  {layOut : StmtId → Construct Unit} {emit : Emitter}

/-- A jump with a target is laid out as its instruction. -/
theorem performs_jump {target : JumpTarget} (resolved : flow.target? stmt = some target) :
    Performs flow config scopes (flow.layOutJump stmt) (flow.jumpCode stmt scopes) := by
  have code : flow.jumpCode stmt scopes = .instr stmt (flow.jumpOperation scopes target) := by
    rw [jumpCode, resolved]
    cases target <;> (dsimp only [jumpOperation]; split <;> rfl)
  intro construction layout ready laid
  have steps : flow.layOutJump stmt construction =
      Construct.emit (flow.jumpOperation scopes target) construction := by
    rw [← ready.scopes_eq]
    show ((liftM (Logged.require _ (flow.target? stmt)) : Construct JumpTarget) >>= _)
      construction = _
    rw [resolved]
    rfl
  rw [code] at ready laid ⊢
  rw [steps]
  exact Performs.emit construction layout ready laid

/-- The region of the body of a `try`. -/
private def layOutTryBody (flow : Flow) (layOut : StmtId → Construct Unit) (stmt body : StmtId) :
    Construct Unit := do
  let id ← Construct.openRegion .tryBlock .user body
  flow.layOutProtected layOut stmt body
  let exits ← flow.analyze (.ofScope body stmt)
  Construct.closeRegion id exits

/-- The regions of the body and the catch clauses of a `try`, with that of their group around
them. -/
private def layOutGroup (flow : Flow) (layOut : StmtId → Construct Unit) (stmt : StmtId)
    (parts : TryStatement) : Construct Unit :=
  if parts.catches.isEmpty then flow.layOutTryBody layOut stmt parts.body
  else do
    let group ← Construct.openRegion .tryBlock .user stmt
    (do
      flow.layOutTryBody layOut stmt parts.body
      parts.catches.zipIdx.forM fun (clause, place) ↦ flow.layOutCatch layOut stmt clause place)
    let exits ← flow.analyze (.ofParts parts.protectedParts stmt stmt)
    Construct.closeRegion group exits

/-- What a `try` opens is closed in the reverse order. -/
private theorem layOutTry_eq (parts : TryStatement) : flow.layOutTry layOut stmt parts = (do
    (match parts.handler with
      | none => flow.layOutGroup layOut stmt parts
      | some clause => do
        let outer ← Construct.openRegion clause.kind.regionKind .user stmt
        flow.layOutGroup layOut stmt parts
        layOutHandler outer (Construct.inScope clause.body do
          layOut clause.body
          Construct.onlyIf (flow.runsOn clause.body) (Construct.emit .endFinally))
        let exits ← flow.analyze (.ofParts parts.protectedParts stmt stmt)
        Construct.closeRegion outer exits)
    Construct.define (.endOf stmt)) := by
  rw [layOutTry, layOutGroup]
  cases parts.handler <;> cases empty : parts.catches <;>
    simp [layOutTryBody]

/-! ### Statements with parts -/

section Parts

variable {parts : List StmtId}
  (performs : ∀ part ∈ parts, ∀ scopes,
    Performs flow config scopes (layOut part) (emit part scopes))

include performs

theorem performs_conditional {thenBranch : StmtId} {elseBranch : Option StmtId}
    (mem : thenBranch ∈ parts) (mem' : ∀ part ∈ elseBranch, part ∈ parts) :
    Performs flow config scopes (flow.layOutConditional layOut stmt thenBranch elseBranch)
      (flow.conditionalCode (emit · scopes) stmt thenBranch elseBranch) := by
  have first := performs thenBranch mem scopes
  cases elseBranch with
  | none => exact .assoc <| .append .emit <| .append first .define
  | some elseBranch =>
    have second := performs elseBranch (mem' elseBranch rfl) scopes
    have steps : flow.layOutConditional layOut stmt thenBranch (some elseBranch) = (do
        Construct.emit (.branchIf (.elseOf elseBranch))
        layOut thenBranch
        Construct.onlyIf (flow.runsOn thenBranch) (Construct.emit (.branch (.endOf stmt)))
        Construct.define (.elseOf elseBranch)
        layOut elseBranch
        Construct.define (.endOf stmt)) := by
      simp [layOutConditional]
    rw [steps]
    exact .assoc <| .assoc <| .assoc <| .assoc <| .append .emit <| .append first <|
      .append (.onlyIf .emit) <| .append .define <| .append second .define

theorem performs_loop {condition : Condition} {body : StmtId} (mem : body ∈ parts) :
    Performs flow config scopes (flow.layOutLoop layOut stmt condition body)
      (flow.loopCode (emit · scopes) stmt condition body) :=
  .assoc <| .assoc <| .assoc <| .append .define <| .append (.onlyIf .emit) <|
    .append (performs body mem scopes) <| .append (.onlyIf .emit) .define

theorem performs_switch {sections : List StmtId} {default : Option Nat}
    (mem : ∀ part ∈ sections, part ∈ parts) :
    Performs flow config scopes (flow.layOutSwitch layOut stmt sections default)
      (flow.switchCode (emit · scopes) stmt sections default) := by
  refine .assoc <| .assoc <| .append .emit <| .append .emit <| .append (.forM ?_) .define
  intro part listed
  have inner := performs part (mem part listed) scopes
  exact .assoc <| .append .define <| .append inner (.onlyIf .emit)

theorem performs_protected {part : StmtId} (mem : part ∈ parts) :
    Performs flow config scopes (flow.layOutProtected layOut stmt part)
      (flow.protectedCode emit scopes stmt part) :=
  .inScope <| .append (performs part mem (part :: scopes)) (.onlyIf .emit)

variable (tree : flow.body.IsTree) (has : flow.body.has stmt = true)
  (children : ∀ part ∈ parts, flow.body.has part = true)

include tree has children

theorem performs_catch {clause : CatchClause} (mem : clause.body ∈ parts) (place : Nat) :
    Performs flow config scopes (flow.layOutCatch layOut stmt clause place)
      (flow.catchCode emit scopes stmt place clause) := by
  have named := ExitQuery.named_owning has (children _ mem)
  have steps : flow.layOutCatch layOut stmt clause place = (do
      Construct.onlyIf clause.isFiltered do
        let filter ← Construct.openRegion .filterBlock .user clause.body
        Construct.updateRegion filter fun region ↦
          { region with catchInfo := some ⟨place, clause.exceptionType, clause.binder,
            clause.isFiltered⟩ }
        (do
          Construct.emit (.filter stmt place)
          Construct.emit .endFilter)
        let exits ← pure []
        Construct.closeRegion filter exits
      (do
        let handler ← Construct.openRegion .catchBlock .user clause.body
        Construct.updateRegion handler fun region ↦
          { region with catchInfo := some ⟨place, clause.exceptionType, clause.binder,
            clause.isFiltered⟩ }
        flow.layOutProtected layOut stmt clause.body
        let exits ← flow.analyze ((ExitQuery.ofScope clause.body stmt).owning clause.body)
        Construct.closeRegion handler exits)) := by
    simp [layOutCatch]
  rw [steps]
  exact .assoc <| .append
    (.onlyIf <| .of_no_notes <| .clauseRegion (.append .emit .emit) fun _ ↦ rfl) <|
    .clauseRegion (performs_protected performs mem) (Performs.analyze_apply tree named)

theorem performs_tryBody {body : StmtId} (mem : body ∈ parts) :
    Performs flow config scopes (flow.layOutTryBody layOut stmt body)
      (flow.tryBodyCode emit scopes stmt body) :=
  .region (performs_protected performs mem)
    (Performs.analyze_apply tree (ExitQuery.named_ofScope has (children _ mem)))

theorem performs_group {statement : TryStatement}
    (mem : ∀ part ∈ statement.protectedParts, part ∈ parts) :
    Performs flow config scopes (flow.layOutGroup layOut stmt statement)
      (flow.groupCode emit scopes stmt statement) := by
  have body : Performs flow config scopes (flow.layOutTryBody layOut stmt statement.body)
      (flow.tryBodyCode emit scopes stmt statement.body) :=
    performs_tryBody performs tree has children (mem _ List.mem_cons_self)
  rw [layOutGroup, groupCode]
  split
  · exact body
  · refine .region (.append body (.forM fun entry listed ↦ ?_))
      (Performs.analyze_apply tree (ExitQuery.named_ofParts has fun part listed ↦
        children part (mem part listed)))
    have clause := List.mem_map_of_mem (f := (·.body)) (List.fst_mem_of_mem_zipIdx listed)
    exact performs_catch performs tree has children (mem _ (List.mem_cons_of_mem _ clause)) entry.2

theorem performs_try {statement : TryStatement}
    (mem : ∀ part ∈ statement.protectedParts, part ∈ parts)
    (mem' : ∀ clause ∈ statement.handler, clause.body ∈ parts) :
    Performs flow config scopes (flow.layOutTry layOut stmt statement)
      (flow.tryCode emit scopes stmt statement) := by
  have group : Performs flow config scopes (flow.layOutGroup layOut stmt statement)
      (flow.groupCode emit scopes stmt statement) :=
    performs_group performs tree has children mem
  have named := ExitQuery.named_ofParts has fun part listed ↦ children part (mem part listed)
  rw [layOutTry_eq, tryCode]
  refine .append ?_ .define
  cases handler : statement.handler with
  | none => exact group
  | some clause =>
    refine .handled group (.inScope ?_) (Performs.analyze_apply tree named)
    exact .append (performs _ (mem' clause handler) _) (.onlyIf .emit)

omit tree has children in
theorem performs_synthetic {kind : SyntheticKind} {body : StmtId}
    (found : flow.body.get? stmt = some (.synthetic kind body)) (mem : body ∈ parts) :
    Performs flow config scopes (flow.layOutSynthetic layOut stmt kind body)
      (.statement stmt (flow.syntheticCode config emit scopes stmt kind body)) := by
  refine .decided found ?_
  rw [syntheticCode]
  cases (flow.decideCleanup config kind stmt body).isProtected with
  | false =>
    exact .assoc <| .append (performs body mem scopes) <| .append (.onlyIf .emit) .define
  | true =>
    rw [if_pos rfl, if_pos rfl]
    have steps (exits : ExitSet) : (do
        let outer ← Construct.openRegion .finallyBlock (.synthetic kind) stmt
        let guarded ← Construct.openRegion .tryBlock (.synthetic kind) body
        flow.layOutProtected layOut stmt body
        Construct.closeRegion guarded exits
        layOutHandler outer do
          Construct.emit (.cleanup stmt kind)
          Construct.emit .endFinally
        Construct.closeRegion outer exits
        Construct.define (.endOf stmt)) = (do
        (do
          let outer ← Construct.openRegion .finallyBlock (.synthetic kind) stmt
          (do
            let guarded ← Construct.openRegion .tryBlock (.synthetic kind) body
            flow.layOutProtected layOut stmt body
            let exits ← pure exits
            Construct.closeRegion guarded exits)
          layOutHandler outer do
            Construct.emit (.cleanup stmt kind)
            Construct.emit .endFinally
          let exits ← pure exits
          Construct.closeRegion outer exits)
        Construct.define (.endOf stmt)) := by
      simp
    rw [steps]
    refine .append (.of_no_notes <| .handled (.of_no_notes <| .region ?_ fun _ ↦ rfl)
      (.append .emit .emit) fun _ ↦ rfl) .define
    exact performs_protected performs mem

end Parts

/-- A statement of a given shape performs its code, with the statement as a bracket around it. -/
theorem performs_shape {shape : Statement} (tree : flow.body.IsTree)
    (found : flow.body.get? stmt = some shape)
    (targets : ∀ form, shape = .jump form → ∃ target, flow.target? stmt = some target)
    (performs : ∀ part ∈ shape.children, ∀ scopes,
      Performs flow config scopes (layOut part) (emit part scopes)) :
    Performs flow config scopes (flow.layOutShape layOut stmt shape)
      (.statement stmt (flow.shapeCode config emit scopes stmt shape)) := by
  have has := Body.has_iff_get?.mpr ⟨shape, found⟩
  have children : ∀ part ∈ shape.children, flow.body.has part = true := fun part mem ↦
    tree.has_child (Body.mem_children_of_get? found mem)
  have plain (other : ∀ kind inner, shape ≠ .synthetic kind inner) :
      ∀ kind inner, flow.body.get? stmt ≠ some (.synthetic kind inner) := fun kind inner same ↦
    other kind inner (Option.some.inj (found.symm.trans same))
  cases shape with
  | synthetic kind body =>
    exact performs_synthetic performs found List.mem_cons_self
  | block parts =>
    exact .statement (plain (by simp)) (.forM fun part mem ↦ performs part mem scopes)
  | conditional condition thenBranch elseBranch =>
    refine .statement (plain (by simp)) (performs_conditional performs
      List.mem_cons_self fun part mem ↦ ?_)
    exact List.mem_cons_of_mem _ (Option.mem_toList.mpr mem)
  | tryBlock parts =>
    refine .statement (plain (by simp)) (performs_try performs tree has children
      (fun part mem ↦ List.mem_append_left _ mem) fun clause mem ↦ ?_)
    exact List.mem_append_right _ (Option.mem_toList.mpr (Option.mem_map_of_mem _ mem))
  | labeled label body =>
    exact .statement (plain (by simp)) (.append .define (performs body List.mem_cons_self scopes))
  | loop condition body =>
    exact .statement (plain (by simp)) (performs_loop performs
      List.mem_cons_self)
  | switch sections default =>
    exact .statement (plain (by simp)) (performs_switch performs
      fun part mem ↦ mem)
  | jump form =>
    obtain ⟨target, resolved⟩ := targets form rfl
    exact .statement (plain (by simp)) (performs_jump resolved)
  | expression | throwException | rethrow | lambda =>
    exact .statement (plain (by simp)) .emit

/-- What is done to each member of a list is all that is done to the list. -/
private theorem forM_congr {α : Type} {list : List α} {first second : α → Construct Unit}
    (same : ∀ x ∈ list, first x = second x) : list.forM first = list.forM second := by
  induction list with
  | nil => rfl
  | cons x rest ih =>
    obtain ⟨here, later⟩ := List.forall_mem_cons.mp same
    show (first x >>= fun _ ↦ rest.forM first) = second x >>= fun _ ↦ rest.forM second
    rw [here, ih later]

/-- How the group of a `try` is laid out depends only on how its protected parts are. -/
private theorem layOutGroup_congr {layOut' : StmtId → Construct Unit} {parts : TryStatement}
    (same : ∀ part ∈ parts.protectedParts, layOut part = layOut' part) :
    flow.layOutGroup layOut stmt parts = flow.layOutGroup layOut' stmt parts := by
  have clauses : (parts.catches.zipIdx.forM fun (clause, place) ↦
      flow.layOutCatch layOut stmt clause place) =
        parts.catches.zipIdx.forM fun (clause, place) ↦
          flow.layOutCatch layOut' stmt clause place := by
    refine forM_congr fun entry listed ↦ ?_
    have clause := List.mem_map_of_mem (f := (·.body)) (List.fst_mem_of_mem_zipIdx listed)
    simp only [layOutCatch, layOutProtected, same _ (List.mem_cons_of_mem _ clause)]
  simp only [layOutGroup, layOutTryBody, layOutProtected, same _ List.mem_cons_self, clauses]

/-- How a shape is laid out depends only on how its children are. -/
private theorem layOutShape_congr {layOut' : StmtId → Construct Unit} {shape : Statement}
    (same : ∀ child ∈ shape.children, layOut child = layOut' child) :
    flow.layOutShape layOut stmt shape = flow.layOutShape layOut' stmt shape := by
  cases shape with
  | block children => exact forM_congr same
  | conditional condition thenBranch elseBranch =>
    cases elseBranch with
    | none => simp only [layOutShape, layOutConditional, same thenBranch List.mem_cons_self]; rfl
    | some elseBranch =>
      have second := same elseBranch (List.mem_cons_of_mem _ (List.mem_singleton_self _))
      simp only [layOutShape, layOutConditional, same thenBranch List.mem_cons_self]
      simp [second]
  | tryBlock parts =>
    have group := @layOutGroup_congr flow stmt layOut layOut' parts fun part mem ↦
      same part (List.mem_append_left _ mem)
    simp only [layOutShape, layOutTry_eq, group]
    cases handler : parts.handler with
    | none => rfl
    | some clause =>
      have last := same clause.body (by simp [Statement.children, handler])
      simp only [last]
  | labeled label body => simp only [layOutShape, same body List.mem_cons_self]
  | loop condition body => simp only [layOutShape, layOutLoop, same body List.mem_cons_self]
  | switch sections default =>
    simp only [layOutShape, layOutSwitch]
    rw [forM_congr fun part mem ↦ by rw [same part mem]]
  | synthetic kind body =>
    simp only [layOutShape, layOutSynthetic, layOutProtected, same body List.mem_cons_self]
  | expression | jump | throwException | rethrow | lambda => rfl

/-- A statement is laid out as its shape, and is reported before that if it is dead. -/
theorem layOut_eq (tree : flow.body.IsTree) {shape : Statement}
    (found : flow.body.get? stmt = some shape) : flow.layOut stmt = (do
      Construct.onlyIf (!flow.isReachable stmt && (flow.body.parent? stmt).any flow.isReachable)
        (Logged.report (.unreachable shape.name stmt))
      flow.layOutShape flow.layOut stmt shape) := by
  rw [layOut, tree.recurse_eq (fun stmt below below' same ↦ ?_) (Body.has_iff_get?.mpr ⟨_, found⟩)]
  · rw [found]
  · cases found : flow.body.get? stmt with
    | none => rfl
    | some shape =>
      dsimp only
      rw [layOutShape_congr fun child mem ↦ same child (Body.mem_children_of_get? found mem)]

/-- Laying out a statement of an accepted body performs the structured code of the statement. -/
theorem Accepted.performs_layOut (accepted : flow.Accepted) (config : Config)
    (has : flow.body.has stmt = true) (scopes : List StmtId) :
    Performs flow config scopes (flow.layOut stmt) (flow.emit config stmt scopes) := by
  have tree := accepted.wellFormed.toIsTree
  revert scopes
  refine tree.inductionUp (motive := fun stmt ↦ ∀ scopes,
    Performs flow config scopes (flow.layOut stmt) (flow.emit config stmt scopes))
    (fun stmt shape found ih scopes ↦ ?_) has
  have targets : ∀ form, shape = .jump form → ∃ target, flow.target? stmt = some target := by
    rintro form rfl
    obtain ⟨route, routed⟩ := accepted.exists_routed found
    exact ⟨_, accepted.target?_eq_some.mpr ⟨form, route, found, routed, rfl⟩⟩
  rw [layOut_eq tree found, emit_eq config tree found, template, deadNote]
  refine .into_statement ?_ (.append (.onlyIf .report) (performs_shape tree found targets ih))
  cases !flow.isReachable stmt && (flow.body.parent? stmt).any flow.isReachable <;> rfl

end Flow
end ProtectedRegions
