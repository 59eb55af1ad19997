import ProtectedRegions.Proofs.Lowering.Built
import ProtectedRegions.Proofs.Lowering.Pieces

/-!
# Last instructions

What a statement that cannot complete ends with: control does not run on behind its last
instruction, unless that instruction is dead. The same holds of every block and of the method,
since an exit instruction is left out only behind such a statement.
-/

namespace ProtectedRegions

namespace Code

/-- The last instruction, with the statement it is made for. -/
def last? (code : Code) : Option (StmtId × Instruction LabelKey) := code.instrs.getLast?

theorem last?_append (first second : Code) :
    (first ++ second).last? = second.last?.or first.last? :=
  List.getLast?_append

/-- Code without instructions has no last one. -/
theorem last?_eq_none_iff {code : Code} : code.last? = none ↔ code.size = 0 := by
  rw [last?, List.getLast?_eq_none_iff, ← length_instrs, List.length_eq_zero_iff]

end Code

namespace Flow

variable {flow : Flow} {config : Config} {root : StmtId}

/-- Control does not run on behind the last instruction of the code, or the instruction is dead. -/
def Stops (flow : Flow) (code : Code) : Prop :=
  ∀ source operation, code.last? = some (source, operation) →
    operation.isTerminator = true ∨ ¬ flow.Live (.entry source)

namespace Stops

/-- Code in sequence stops as its last part does that is not empty. -/
theorem append {first second : Code} (behind : flow.Stops second)
    (before : second.size = 0 → flow.Stops first) : flow.Stops (first ++ second) := by
  intro source operation last
  rw [Code.last?_append] at last
  cases empty : second.last? with
  | none =>
    apply before (Code.last?_eq_none_iff.mp empty)
    rwa [empty, Option.none_or] at last
  | some entry =>
    apply behind
    rwa [empty, Option.some_or, ← empty] at last

/-- Code without instructions stops. -/
theorem of_size {code : Code} (empty : code.size = 0) : flow.Stops code := by
  intro source operation last
  rw [Code.last?_eq_none_iff.mpr empty] at last
  cases last

/-- What takes no space behind code does not matter. -/
theorem append_of_size {first second : Code} (stops : flow.Stops first)
    (empty : second.size = 0) : flow.Stops (first ++ second) :=
  (of_size empty).append fun _ ↦ stops

/-- What stands before code that is not empty does not matter. -/
theorem append_of_pos {first second : Code} (stops : flow.Stops second)
    (filled : 0 < second.size) : flow.Stops (first ++ second) := by
  apply stops.append
  intro empty
  omega

theorem instr {source : StmtId} {operation : Instruction LabelKey}
    (stops : operation.isTerminator = true ∨ ¬ flow.Live (.entry source)) :
    flow.Stops (.instr source operation) := by
  intro source' operation' last
  cases last
  exact stops

/-- An exit instruction stops; without it the code before has to. -/
theorem exit {code : Code} {condition : Bool} {source : StmtId}
    {operation : Instruction LabelKey} (terminates : operation.isTerminator = true)
    (stops : condition = false → flow.Stops code) :
    flow.Stops (code ++ .onlyIf condition (.instr source operation)) := by
  cases condition with
  | false => exact (stops rfl).append_of_size rfl
  | true => exact (Stops.instr (.inl terminates)).append_of_pos Nat.one_pos

end Stops

/-- Code that is not empty and stops. -/
structure Closes (flow : Flow) (code : Code) : Prop where
  filled : 0 < code.size
  stops : flow.Stops code

namespace Closes

/-- What stands before does not matter. -/
theorem behind {second : Code} (closes : flow.Closes second) (first : Code) :
    flow.Closes (first ++ second) :=
  ⟨Nat.add_pos_right _ closes.filled, closes.stops.append_of_pos closes.filled⟩

/-- What takes no space behind does not matter. -/
theorem before {first second : Code} (closes : flow.Closes first) (empty : second.size = 0) :
    flow.Closes (first ++ second) :=
  ⟨Nat.add_pos_left closes.filled _, closes.stops.append_of_size empty⟩

/-- How code in sequence is grouped does not matter. -/
theorem assoc {first second third : Code} (closes : flow.Closes (first ++ (second ++ third))) :
    flow.Closes (first ++ second ++ third) := by
  obtain ⟨filled, stops⟩ := closes
  constructor
  · rwa [Code.size_append, Code.size_append, Nat.add_assoc, ← Code.size_append second,
      ← Code.size_append]
  · intro source operation last
    apply stops
    rw [Code.last?_append, Code.last?_append] at last
    rwa [Code.last?_append, Code.last?_append, Option.or_assoc]

/-- A region closes as the code in it does. -/
theorem region {head : RegionHead} {inner : Code} (closes : flow.Closes inner) :
    flow.Closes (.region head inner) :=
  ⟨closes.filled, closes.stops⟩

/-- A region with a handler closes as the handler does. -/
theorem handled {head : RegionHead} {inner handler : Code} (closes : flow.Closes handler) :
    flow.Closes (.handled head inner handler) :=
  ⟨(closes.behind inner).filled, (closes.behind inner).stops⟩

/-- Codes in sequence close if each of them does. -/
theorem concat {parts : List Code} (some : parts ≠ []) (each : ∀ code ∈ parts, flow.Closes code) :
    flow.Closes (.concat parts) := by
  induction parts with
  | nil => exact (some rfl).elim
  | cons first rest ih =>
    rw [Code.concat_cons]
    cases rest with
    | nil => exact (each first List.mem_cons_self).before rfl
    | cons next rest =>
      exact (ih (List.cons_ne_nil _ _) fun code mem ↦
        each code (List.mem_cons_of_mem _ mem)).behind first

/-- Code that closes has a last instruction, wherever it starts. -/
theorem exists_last {code : Code} (closes : flow.Closes code) (place : Place) :
    ∃ source operation at', (.instr source operation, at') ∈ code.tokens place ∧
      at'.offset + 1 = place.offset + code.size ∧
      (operation.isTerminator = true ∨ ¬ flow.Live (.entry source)) := by
  obtain ⟨filled, stops⟩ := closes
  cases last : code.last? with
  | none =>
    have := Code.last?_eq_none_iff.mp last
    omega
  | some entry =>
    obtain ⟨source, operation⟩ := entry
    have found := last
    rw [Code.last?, List.getLast?_eq_getElem?, Code.length_instrs] at found
    obtain ⟨at', token, offset⟩ := Code.getElem?_instrs.mp found
    exact ⟨source, operation, at', token, by omega, stops source operation last⟩

end Closes

/-- A sequence through which control does not get stops. -/
private theorem stops_sequence {code : StmtId → Code} {children : List StmtId}
    {source target : FlowNode} (dead : ¬ flow.Live target)
    (steps : ∀ edge ∈ Statement.sequence source target children, flow.Live edge.source →
      flow.Live edge.target)
    (each : ∀ child ∈ children,
      (flow.Live (.entry child) → flow.Live (.ending child) ∨ 0 < (code child).size) ∧
        (¬ flow.Live (.ending child) → flow.Stops (code child))) :
    flow.Stops (.concat (children.map code)) := by
  induction children generalizing source with
  | nil => exact .of_size rfl
  | cons child rest ih =>
    have steps' := fun edge mem ↦ steps edge (List.mem_cons_of_mem _ mem)
    have each' := fun other mem ↦ each other (List.mem_cons_of_mem _ mem)
    rw [List.map_cons, Code.concat_cons]
    refine (ih steps' each').append fun empty ↦ (each child List.mem_cons_self).2 fun completes ↦ ?_
    -- Control would get through the rest, which is empty.
    rcases size_sequence completes steps' fun other mem ↦ (each' other mem).1 with through | filled
    · exact dead through
    · omega

namespace Accepted

variable (accepted : flow.Accepted)

include accepted

/-- A statement with an exit instruction stops if it does so where it cannot complete. -/
theorem stops_exit {part owner : StmtId} {operation : Instruction LabelKey} {code : Code}
    (has : flow.body.has part = true) (terminates : operation.isTerminator = true)
    (stops : ¬ flow.Live (.ending part) → flow.Stops code) :
    flow.Stops (code ++ .onlyIf (flow.runsOn part) (.instr owner operation)) := by
  apply Stops.exit terminates
  intro ends
  apply stops
  intro completes
  have runs := (accepted.runsOn_iff has).mpr fun _ ↦ completes
  rw [ends] at runs
  cases runs

/-- A protected part, or the handler of a `finally`, closes. -/
theorem closes_scope (config : Config) {part owner : StmtId} {operation : Instruction LabelKey}
    (has : flow.body.has part = true) (terminates : operation.isTerminator = true)
    (scopes : List StmtId)
    (stops : ¬ flow.Live (.ending part) → flow.Stops (flow.emit config part scopes)) :
    flow.Closes (flow.emit config part scopes ++
      .onlyIf (flow.runsOn part) (.instr owner operation)) :=
  ⟨accepted.size_exits config has scopes operation, accepted.stops_exit has terminates stops⟩

/-- The protected parts of a `try` close together. -/
theorem closes_group (config : Config) {stmt : StmtId} {parts : TryStatement}
    (found : flow.body.get? stmt = some (.tryBlock parts)) (scopes : List StmtId)
    (stops : ∀ part ∈ parts.protectedParts, ∀ scopes, ¬ flow.Live (.ending part) →
      flow.Stops (flow.emit config part scopes)) :
    flow.Closes (flow.groupCode (flow.emit config) scopes stmt parts) := by
  have tree := accepted.wellFormed.toIsTree
  have part {part : StmtId} (mem : part ∈ parts.protectedParts) :
      flow.Closes (flow.protectedCode (flow.emit config) scopes stmt part) :=
    accepted.closes_scope config (tree.has_child (Body.mem_children_of_get? found
      (List.mem_append_left _ mem))) rfl _ (stops part mem _)
  rw [groupCode]
  split
  · exact (part List.mem_cons_self).region.before (Code.size_notes _)
  · next some =>
    refine ((Closes.concat (by simpa using some) ?_).behind _).region.before (Code.size_notes _)
    intro code listed
    obtain ⟨⟨clause, place⟩, mem, rfl⟩ := List.mem_map.mp listed
    have member : clause.body ∈ parts.protectedParts :=
      List.mem_cons_of_mem _ (List.mem_map_of_mem (List.fst_mem_of_mem_zipIdx mem))
    exact ((part member).region.behind _).before (Code.size_notes _)

/-- Control that enters a statement meets an instruction or gets through. -/
theorem completes_or_filled (config : Config) {stmt : StmtId} (has : flow.body.has stmt = true)
    (scopes : List StmtId) (live : flow.Live (.entry stmt)) :
    flow.Live (.ending stmt) ∨ 0 < (flow.emit config stmt scopes).size :=
  (accepted.runsOn_or_size config has scopes).imp_left fun runs ↦
    (accepted.runsOn_iff has).mp runs live

section Shapes

variable {stmt : StmtId} {scopes : List StmtId} (dead : ¬ flow.Live (.ending stmt))

include dead

private theorem stops_conditionalCode {condition : Condition} {thenBranch : StmtId}
    {elseBranch : Option StmtId}
    (found : flow.body.get? stmt = some (.conditional condition thenBranch elseBranch))
    (ih : ∀ child ∈ (Statement.conditional condition thenBranch elseBranch).children,
      ¬ flow.Live (.ending child) → flow.Stops (flow.emit config child scopes)) :
    flow.Stops (flow.conditionalCode (flow.emit config · scopes) stmt thenBranch elseBranch) := by
  have tree := accepted.wellFormed.toIsTree
  have has {child : StmtId}
      (mem : child ∈ (Statement.conditional condition thenBranch elseBranch).children) :
      flow.body.has child = true := tree.has_child (Body.mem_children_of_get? found mem)
  cases elseBranch with
  | none =>
    have through : (⟨.ending thenBranch, .ending stmt, .sequential⟩ : FlowEdge) ∈
        (Statement.conditional condition thenBranch none).edges stmt := by
      simp [Statement.edges]
    have completes (live : flow.Live (.ending thenBranch)) : flow.Live (.ending stmt) :=
      live.edge found through
    refine Stops.append_of_size (Stops.append
      (ih thenBranch List.mem_cons_self fun live ↦ dead (completes live))
      fun empty ↦ .instr (.inr fun live ↦ dead ?_)) rfl
    -- Nothing would stand behind the test, and control would get past it.
    by_cases always : condition = .always
    · have enters : (⟨.entry stmt, .entry thenBranch, .conditional⟩ : FlowEdge) ∈
          (Statement.conditional condition thenBranch none).edges stmt := by
        simp [Statement.edges, always]
      have start : flow.Live (.entry thenBranch) := live.edge found enters
      exact completes ((accepted.completes_or_filled config (has List.mem_cons_self) scopes
        start).resolve_right (by simp [empty]))
    · have skips : (⟨.entry stmt, .ending stmt, .conditional⟩ : FlowEdge) ∈
          (Statement.conditional condition thenBranch none).edges stmt := by
        simp [Statement.edges, always]
      exact live.edge found skips
  | some elseBranch =>
    have member : elseBranch ∈ (Statement.conditional condition thenBranch
        (some elseBranch)).children := by simp [Statement.children]
    have through : (⟨.ending elseBranch, .ending stmt, .sequential⟩ : FlowEdge) ∈
        (Statement.conditional condition thenBranch (some elseBranch)).edges stmt := by
      simp [Statement.edges]
    have otherwise : ¬ flow.Live (.ending elseBranch) :=
      fun live ↦ dead (live.edge found through)
    have first : flow.Closes (flow.emit config thenBranch scopes ++
        .onlyIf (flow.runsOn thenBranch) (.instr stmt (.branch (.endOf stmt)))) :=
      accepted.closes_scope config (has List.mem_cons_self) rfl scopes (ih _ List.mem_cons_self)
    refine Stops.append_of_size (Stops.append (ih elseBranch member otherwise)
      fun _ ↦ Stops.append_of_size ?_ rfl) rfl
    exact (first.behind (.instr stmt (.branchIf (.elseOf elseBranch)))).assoc.stops

private theorem stops_syntheticCode {kind : SyntheticKind} {body : StmtId}
    (found : flow.body.get? stmt = some (.synthetic kind body))
    (ih : ¬ flow.Live (.ending body) → flow.Stops (flow.emit config body scopes)) :
    flow.Stops (flow.syntheticCode config (flow.emit config) scopes stmt kind body) := by
  have has := accepted.wellFormed.toIsTree.has_child
    (Body.mem_children_of_get? found (List.mem_singleton_self body))
  refine Stops.append_of_size ?_ rfl
  split
  · have ends : flow.Closes (.instr stmt .endFinally) := ⟨Nat.one_pos, .instr (.inl rfl)⟩
    exact (Closes.handled (ends.behind _)).stops
  · have through (ends : flow.Live (.ending body)) : flow.Live (.ending stmt) :=
      ends.edge found (List.mem_cons_of_mem _ List.mem_cons_self)
    refine Stops.append ?_ fun _ ↦ ih fun ends ↦ dead (through ends)
    cases runs : flow.runsOn body with
    | false => exact .of_size rfl
    | true =>
      -- The cleanup behind the body is dead, or control would get past it.
      refine .instr (.inr fun live ↦ dead (through ?_))
      have start : flow.Live (.entry body) := live.edge found List.mem_cons_self
      exact (accepted.runsOn_iff has).mp runs start

end Shapes

/-- A statement that cannot complete stops. -/
theorem stops_emit (config : Config) {stmt : StmtId} (has : flow.body.has stmt = true)
    (scopes : List StmtId) (dead : ¬ flow.Live (.ending stmt)) :
    flow.Stops (flow.emit config stmt scopes) := by
  have tree := accepted.wellFormed.toIsTree
  revert scopes dead
  refine tree.inductionUp (motive := fun stmt ↦ ∀ scopes, ¬ flow.Live (.ending stmt) →
    flow.Stops (flow.emit config stmt scopes)) (fun stmt shape found ih scopes dead ↦ ?_) has
  have hasChild {child : StmtId} (mem : child ∈ shape.children) : flow.body.has child = true :=
    tree.has_child (Body.mem_children_of_get? found mem)
  have closes {child : StmtId} {operation : Instruction LabelKey} (mem : child ∈ shape.children)
      (scopes : List StmtId) (terminates : operation.isTerminator = true) :
      flow.Closes (flow.emit config child scopes ++
        .onlyIf (flow.runsOn child) (.instr stmt operation)) :=
    accepted.closes_scope config (hasChild mem) terminates scopes (ih child mem scopes)
  rw [emit_eq config tree found]
  suffices h : flow.Stops (flow.shapeCode config (flow.emit config) scopes stmt shape) from
    flow.template_elim config scopes stmt shape (motive := flow.Stops)
      (h.append fun _ ↦ .of_size rfl) fun _ ↦ h.append fun _ ↦ .of_size rfl
  cases shape with
  | block children =>
    exact stops_sequence dead (fun edge mem live ↦ live.edge found mem) fun child mem ↦
      ⟨accepted.completes_or_filled config (hasChild mem) scopes, ih child mem scopes⟩
  | labeled label body =>
    refine (ih body List.mem_cons_self scopes fun completes ↦ dead ?_).append fun _ ↦ .of_size rfl
    exact completes.edge found (List.mem_cons_of_mem _ List.mem_cons_self)
  | conditional condition thenBranch elseBranch =>
    exact accepted.stops_conditionalCode dead found fun child mem ↦ ih child mem scopes
  | loop condition body =>
    refine Stops.append_of_size ?_ rfl
    exact ((closes List.mem_cons_self scopes rfl).behind _).assoc.stops
  | switch sections default =>
    refine Stops.append_of_size ?_ rfl
    cases sections with
    | nil => exact (Stops.instr (.inl rfl)).append_of_pos Nat.one_pos |>.append_of_size rfl
    | cons first rest =>
      refine ((Closes.concat (by simp) fun code listed ↦ ?_).behind _).stops
      obtain ⟨section', mem, rfl⟩ := List.mem_map.mp listed
      exact ((closes mem scopes rfl).behind _).assoc
  | tryBlock parts =>
    refine Stops.append_of_size ?_ rfl
    cases handler : parts.handler with
    | none =>
      exact (accepted.closes_group config found scopes fun part mem ↦
        ih part (List.mem_append_left _ mem)).stops
    | some clause =>
      have member : clause.body ∈ (Statement.tryBlock parts).children := by
        simp [Statement.children, handler]
      exact (Closes.handled (closes member (clause.body :: scopes) rfl)).before
        (Code.size_notes _) |>.stops
  | synthetic kind body =>
    exact accepted.stops_syntheticCode dead found (ih body List.mem_cons_self scopes)
  | jump form =>
    rcases flow.jumpCode_eq stmt scopes with ⟨-, code⟩ | ⟨target, operation, -, by', code⟩
    · rw [shapeCode, code]
      exact .of_size rfl
    · rw [shapeCode, code]
      cases by' <;> exact .instr (.inl rfl)
  | expression => exact .instr (.inr fun live ↦ dead (live.edge found List.mem_cons_self))
  | lambda => exact .instr (.inr fun live ↦ dead (live.edge found List.mem_cons_self))
  | throwException | rethrow => exact .instr (.inl rfl)

/-- Each region of a statement closes, with its handler if it has one. -/
theorem closes_piece {scopes : List StmtId} {stmt : StmtId} {shape : Statement} {piece : Code}
    (found : flow.body.get? stmt = some shape) (listed : flow.Piece config scopes stmt shape piece) :
    flow.Closes piece := by
  have tree := accepted.wellFormed.toIsTree
  have stops {child : StmtId} (mem : child ∈ shape.children) (scopes : List StmtId)
      (dead : ¬ flow.Live (.ending child)) : flow.Stops (flow.emit config child scopes) :=
    accepted.stops_emit config (tree.has_child (Body.mem_children_of_get? found mem)) scopes dead
  have closes {child : StmtId} {operation : Instruction LabelKey} (mem : child ∈ shape.children)
      (scopes : List StmtId) (terminates : operation.isTerminator = true) :
      flow.Closes (flow.emit config child scopes ++
        .onlyIf (flow.runsOn child) (.instr stmt operation)) :=
    accepted.closes_scope config (tree.has_child (Body.mem_children_of_get? found mem))
      terminates scopes (stops mem scopes)
  cases listed with
  | part mem => exact (closes (List.mem_append_left _ mem) _ rfl).region
  | filter =>
    have ends : flow.Closes (.instr stmt .endFilter) := ⟨Nat.one_pos, .instr (.inl rfl)⟩
    exact (ends.behind _).region
  | @group parts head entry clauses own kind exits listed =>
    refine ((Closes.concat (by simp) fun code mem ↦ ?_).behind _).region
    rw [← listed] at mem
    obtain ⟨⟨clause, place⟩, within, rfl⟩ := List.mem_map.mp mem
    have member : clause.body ∈ parts.protectedParts :=
      List.mem_cons_of_mem _ (List.mem_map_of_mem (List.fst_mem_of_mem_zipIdx within))
    exact ((closes (List.mem_append_left _ member) _ rfl).region.behind _).before
      (Code.size_notes _)
  | @handler parts clause head handler =>
    have member : clause.body ∈ (Statement.tryBlock parts).children := by
      simp [Statement.children, handler]
    exact (closes member _ rfl).handled
  | cleanup =>
    have ends : flow.Closes (.instr stmt .endFinally) := ⟨Nat.one_pos, .instr (.inl rfl)⟩
    exact (ends.behind _).handled
  | guarded => exact (closes List.mem_cons_self _ rfl).region

variable (member : root ∈ flow.body.methods)

include member

/-- The code of a method closes. -/
theorem closes_methodCode (config : Config) : flow.Closes (flow.methodCode config root) := by
  have rooted := accepted.wellFormed.toIsTree.has_of_mem_methods member
  rcases flow.epilogue_cases root (flow.emit config root []).layout with none | some
  · -- Without an epilogue the method can start and not complete.
    have ends : flow.runsOn root = false := by
      cases runs : flow.runsOn root with
      | false => rfl
      | true =>
        rw [epilogue, runs] at none
        cases none
    have dead : ¬ flow.Live (.ending root) := by
      intro completes
      have runs := (accepted.runsOn_iff rooted).mpr fun _ ↦ completes
      rw [ends] at runs
      cases runs
    rw [methodCode, none]
    refine Closes.before ⟨?_, accepted.stops_emit config rooted [] dead⟩ rfl
    exact (accepted.runsOn_or_size config rooted []).resolve_left (by simp [ends])
  · rw [methodCode, some]
    have ends : flow.Closes (.instr root .ret) := ⟨Nat.one_pos, .instr (.inl rfl)⟩
    exact (ends.behind (.mark .methodExit)).behind _

/-- The last instruction of a block of a method. -/
theorem last_of_block {block : Block} (listed : block ∈ (flow.methodTree config root).blocks) :
    ∃ source operation at', (.instr source operation, at') ∈
        (flow.methodCode config root).tokens (flow.methodPlace config root) ∧
      at'.offset + 1 = block.span.stop ∧
      (operation.isTerminator = true ∨ ¬ flow.Live (.entry source)) := by
  obtain ⟨guard, guards, outer, rfl⟩ := (accepted.mem_blocks member).mp listed
  obtain ⟨at', opens⟩ := Code.opens_of_guard guards
  obtain ⟨stmt, scopes, place, shape, piece, -, found, own, top, subset⟩ :=
    accepted.exists_piece member opens
  obtain ⟨source, operation, last, token, offset, stops⟩ :=
    (accepted.closes_piece found own).exists_last at'
  refine ⟨source, operation, last, List.mem_append_left _ (subset token), ?_, stops⟩
  -- A region ends where the piece does, and so does its handler if it has one.
  have ends : guard.region.span.stop = at'.offset + piece.size ∧
      ∀ handler, guard.region.handler = some handler → handler.stop = at'.offset + piece.size := by
    generalize guard.region = region at top
    cases own <;> cases top <;> refine ⟨rfl, fun handler h ↦ ?_⟩ <;> cases h <;>
      exact Nat.add_assoc ..
  obtain ⟨-, spans⟩ := Code.region_of_guard (accepted.methodFormed config member).formed guards
  rw [offset]
  cases part : guard.part with
  | body => exact (outer part).elim
  | whole =>
    rw [part] at spans
    exact ends.1.symm.trans (congrArg Span.stop spans.2.2.symm)
  | handler =>
    rw [part] at spans
    exact (ends.2 _ spans.2).symm

end Accepted
end Flow

/-- The last instruction of a method and of each of its blocks is a terminator, unless it is an
instruction of a statement that cannot start. -/
theorem Config.blocks_stop {draft : Draft} {body : Body} (made : draft.toBody = .ok body)
    {flow : Flow} (analysed : Flow.ofBody body = .ok flow) {config : Config} {tree : RegionTree}
    (builds : config.Builds body tree) {stop : Nat}
    (ends : stop = tree.instructions.length ∨ ∃ block ∈ tree.blocks, block.span.stop = stop) :
    ∃ last instr, last + 1 = stop ∧ tree.instructions[last]? = some instr ∧
      (instr.isTerminator = true ∨ ∃ source operation,
        (flow.emit config tree.method []).instrs[last]? = some (source, operation) ∧
          flow.isReachable source = false) := by
  obtain ⟨accepted, rfl, root, member, rfl⟩ := builds.exists_root made analysed
  obtain ⟨source, operation, at', token, offset, stops⟩ : ∃ source operation at',
      (.instr source operation, at') ∈
        (flow.methodCode config root).tokens (flow.methodPlace config root) ∧
      at'.offset + 1 = stop ∧ (operation.isTerminator = true ∨ ¬ flow.Live (.entry source)) := by
    rcases ends with rfl | ⟨block, listed, rfl⟩
    · obtain ⟨source, operation, at', token, offset, stops⟩ :=
        (accepted.closes_methodCode member config).exists_last (flow.methodPlace config root)
      refine ⟨source, operation, at', token, offset.trans ?_, stops⟩
      rw [Flow.methodTree, Code.linked, List.length_map, Code.length_instrs]
      exact Nat.zero_add _
    · exact accepted.last_of_block member listed
  refine ⟨at'.offset, _, offset, Flow.getElem?_methodTree.mpr
    ⟨source, operation, at', token, rfl, rfl⟩, ?_⟩
  rw [Instruction.isTerminator_mapTargets]
  refine stops.imp_right fun dead ↦ ?_
  rcases List.mem_append.mp token with inner | epilogue
  · have has : flow.body.has source = true := by
      rcases accepted.origin_or_epilogue member token with ⟨_, _, shape, -, found, -⟩ | ⟨rfl, -⟩
      · exact Body.has_iff_get?.mpr ⟨shape, found⟩
      · exact accepted.wellFormed.toIsTree.has_of_mem_methods member
    refine ⟨source, operation, Code.getElem?_instrs.mpr
      ⟨at', inner, (Nat.zero_add _).symm⟩, ?_⟩
    rwa [← Bool.not_eq_true, accepted.isReachable_iff has]
  · -- The epilogue is made for the root, which can start.
    rcases Flow.mem_epilogue epilogue with same | same
    · cases same
    · cases same
      exact (dead (.entry member)).elim

/-- A `try` with a dead expression behind a `throw`. -/
def Draft.trailing : Draft where
  statements := #[.throwException, .expression [], .block [⟨0⟩, ⟨1⟩], .expression [],
    .tryFinally ⟨2⟩ ⟨3⟩]
  labelCount := 0
  localCount := 0
  root := ⟨4⟩

theorem Config.block_without_terminator :
    ∃ body flow tree, Draft.trailing.toBody = .ok body ∧ Flow.ofBody body = .ok flow ∧
      Config.default.build body = .ok tree ∧
      ∃ block ∈ tree.blocks, block.region.kind = .tryBlock ∧ block.span.stop = 2 ∧
        tree.instructions[1]? = some (.code ⟨1⟩) ∧
        (Instruction.code ⟨1⟩ : Instruction Nat).isTerminator = false := by
  have trails : Config.default.tests .trailing (fun _ tree ↦ decide
      (∃ block ∈ tree.blocks, block.region.kind = .tryBlock ∧ block.span.stop = 2 ∧
        tree.instructions[1]? = some (.code ⟨1⟩) ∧
        (Instruction.code ⟨1⟩ : Instruction Nat).isTerminator = false)) = true := by
    decide +kernel
  obtain ⟨body, flow, tree, made, analysed, built, holds⟩ := exists_built trails
  exact ⟨body, flow, tree, made, analysed, built, of_decide_eq_true holds⟩

theorem Config.blocks_stop_trailing :
    ∃ body flow tree, Draft.trailing.toBody = .ok body ∧ Flow.ofBody body = .ok flow ∧
      Config.default.build body = .ok tree ∧
      ∃ block ∈ tree.blocks, block.span.stop = 2 ∧ ∃ source operation,
        (flow.emit .default tree.method []).instrs[1]? = some (source, operation) ∧
          flow.isReachable source = false := by
  have trails : Config.default.tests .trailing (fun _ tree ↦ decide
      ((∃ block ∈ tree.blocks, block.span.stop = 2) ∧
        tree.instructions[1]? = some (.code ⟨1⟩))) = true := by
    decide +kernel
  obtain ⟨body, flow, tree, made, analysed, built, holds⟩ := exists_built trails
  obtain ⟨⟨block, listed, ends⟩, found⟩ := of_decide_eq_true holds
  obtain ⟨last, instr, same, found', stops⟩ :=
    blocks_stop made analysed (.outer built) (.inr ⟨block, listed, ends⟩)
  cases same
  rw [found] at found'
  cases found'
  exact ⟨body, flow, tree, made, analysed, built, block, listed, ends, stops.resolve_left nofun⟩

end ProtectedRegions
