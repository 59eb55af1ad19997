import ProtectedRegions.Proofs.Flow.Live
import ProtectedRegions.Proofs.Lowering.Assembly
import ProtectedRegions.Proofs.Region.Valid

/-!
# Emitted regions

What is emitted is well formed, so the tree of every method is valid. That no region is empty
rests on the flow: a statement that can start and cannot complete has at least one instruction,
and any other ends in an exit instruction where it is alone in a region.
-/

namespace ProtectedRegions

namespace Code

/-- Well-formed code whose outermost regions need no group around them. -/
structure Closed (code : Code) : Prop where
  formed : code.Formed
  free : ∀ top ∈ code.tops, top.kind.isFree = true

namespace Closed

theorem instr {source : StmtId} {operation : Instruction LabelKey} :
    (Code.instr source operation).Closed := ⟨trivial, List.forall_mem_nil _⟩

theorem mark {label : LabelKey} : (Code.mark label).Closed := ⟨trivial, List.forall_mem_nil _⟩

theorem onlyIf {condition : Bool} {code : Code} (closed : code.Closed) :
    (Code.onlyIf condition code).Closed := by
  cases condition with
  | false => exact ⟨trivial, List.forall_mem_nil _⟩
  | true => exact closed

theorem append {first second : Code} (closed : first.Closed) (closed' : second.Closed) :
    (first ++ second).Closed :=
  ⟨⟨closed.formed, closed'.formed⟩,
    fun top mem ↦ (List.mem_append.mp mem).elim (closed.free top) (closed'.free top)⟩

theorem concat {parts : List Code} (closed : ∀ part ∈ parts, part.Closed) :
    (Code.concat parts).Closed := by
  induction parts with
  | nil => exact ⟨trivial, List.forall_mem_nil _⟩
  | cons first rest ih =>
    exact (closed first List.mem_cons_self).append
      (ih fun part mem ↦ closed part (List.mem_cons_of_mem _ mem))

theorem notes {events : List Event} : (Code.notes events).Closed := by
  refine concat fun part mem ↦ ?_
  obtain ⟨event, -, rfl⟩ := List.mem_map.mp mem
  exact ⟨trivial, List.forall_mem_nil _⟩

/-- A region of closed code that is not empty. -/
theorem region {head : RegionHead} {inner : Code} (closed : inner.Closed)
    (nonempty : 0 < inner.size) (plain : head.kind.hasHandler = false)
    (notMethod : head.kind ≠ .method) : (Code.region head inner).Formed :=
  ⟨nonempty, closed.formed, plain, notMethod, .inl closed.free⟩

end Closed

theorem tops_append (first second : Code) : (first ++ second).tops = first.tops ++ second.tops :=
  rfl

/-- The outermost regions of code in sequence. -/
theorem tops_concat (parts : List Code) : (concat parts).tops = parts.flatMap tops := by
  induction parts with
  | nil => rfl
  | cons first rest ih => rw [concat_cons, tops, ih, List.flatMap_cons]

/-- Well-formed codes in sequence are well formed. -/
theorem formed_concat {parts : List Code} (formed : ∀ part ∈ parts, part.Formed) :
    (concat parts).Formed := by
  induction parts with
  | nil => trivial
  | cons first rest ih =>
    exact ⟨formed first List.mem_cons_self,
      ih fun part mem ↦ formed part (List.mem_cons_of_mem _ mem)⟩

/-- Events hold no regions. -/
theorem tops_notes (events : List Event) : (notes events).tops = [] := by
  rw [notes, tops_concat, List.flatMap_map]
  exact List.flatMap_eq_nil_iff.mpr fun _ _ ↦ rfl

/-- Bare codes in sequence are bare. -/
theorem isBare_concat {parts : List Code} (bare : ∀ part ∈ parts, part.isBare = true) :
    (concat parts).isBare = true := by
  induction parts with
  | nil => rfl
  | cons first rest ih =>
    rw [concat_cons, isBare, bare first List.mem_cons_self,
      ih fun part mem ↦ bare part (List.mem_cons_of_mem _ mem)]
    rfl

/-- Events are no instructions. -/
theorem isBare_notes (events : List Event) : (notes events).isBare = true := by
  refine isBare_concat fun part mem ↦ ?_
  obtain ⟨event, -, rfl⟩ := List.mem_map.mp mem
  rfl

/-- Events take no space. -/
theorem size_notes (events : List Event) : (notes events).size = 0 := by
  rw [notes]
  induction events with
  | nil => rfl
  | cons event rest ih => rw [List.map_cons, concat_cons, size, ih]; rfl

theorem size_append (first second : Code) : (first ++ second).size = first.size + second.size :=
  rfl

/-- Code that is one protected block, and what may follow it. -/
structure Boxed (code : Code) : Prop where
  closed : code.Closed
  nonempty : 0 < code.size
  bare : code.isBare = true
  single : ∃ top, code.tops = [top] ∧ top.kind = .tryBlock

/-- A protected block, with the events behind it. -/
theorem Boxed.of_formed {head : RegionHead} {inner : Code} (kind : head.kind = .tryBlock)
    (formed : (Code.region head inner).Formed) (events : List Event) :
    (Code.region head inner ++ .notes events).Boxed where
  closed := .append ⟨formed, List.forall_mem_singleton.mpr (kind ▸ rfl)⟩ .notes
  nonempty := Nat.add_pos_left formed.1 _
  bare := (Bool.true_and _).trans (isBare_notes _)
  single := ⟨head, congrArg ([head] ++ ·) (tops_notes _), kind⟩

/-- A protected block that holds another one and its catch clauses. -/
theorem Boxed.group {head : RegionHead} {body catches : Code} (boxed : body.Boxed)
    (kind : head.kind = .tryBlock) (formed : catches.Formed) (bare : catches.isBare = true)
    (clauses : Clauses catches.tops) (events : List Event) :
    (Code.region head (body ++ catches) ++ .notes events).Boxed := by
  have allBare : (body ++ catches).isBare = true :=
    Bool.and_eq_true_iff.mpr ⟨boxed.bare, bare⟩
  have group : Group (body ++ catches).tops := by
    obtain ⟨top, single, kind⟩ := boxed.single
    rw [tops_append, single]
    exact .mk (kind ▸ rfl) clauses
  have block : (Code.region head (body ++ catches)).Formed := by
    refine ⟨Nat.add_pos_left boxed.nonempty _, ⟨boxed.closed.formed, formed⟩, ?_, ?_,
      .inr ⟨kind, allBare, group⟩⟩
    · rw [kind]
      rfl
    · rw [kind]
      nofun
  exact .of_formed kind block events

end Code

namespace Flow

variable {flow : Flow}

/-- The tree of a method is read off its code. -/
theorem reads_methodTree {config : Config} {root : StmtId} :
    Code.Reads (flow.methodTree config root) (flow.methodHead root)
      (flow.methodCode config root) := by
  refine ⟨rfl, ?_⟩
  rw [methodTree, Code.linked, List.length_map, Code.length_instrs]

/-- Code that is empty only where an exit instruction follows takes space with it. -/
private theorem size_exit {code : Code} {condition : Bool} {source : StmtId}
    {operation : Instruction LabelKey} (filled : condition = true ∨ 0 < code.size) :
    0 < (code ++ Code.onlyIf condition (.instr source operation)).size := by
  rw [Code.size_append]
  rcases filled with runs | filled
  · rw [runs]
    exact Nat.succ_pos _
  · exact Nat.add_pos_left filled _

/-- Control that enters a sequence meets an instruction or gets through. -/
theorem size_sequence {code : StmtId → Code} {children : List StmtId}
    {source target : FlowNode} (live : flow.Live source)
    (steps : ∀ edge ∈ Statement.sequence source target children, flow.Live edge.source →
      flow.Live edge.target)
    (each : ∀ child ∈ children, flow.Live (.entry child) →
      flow.Live (.ending child) ∨ 0 < (code child).size) :
    flow.Live target ∨ 0 < (Code.concat (children.map code)).size := by
  induction children generalizing source with
  | nil => exact .inl (steps _ List.mem_cons_self live)
  | cons child rest ih =>
    have start := steps _ List.mem_cons_self live
    rw [List.map_cons, Code.concat_cons, Code.size]
    rcases each child List.mem_cons_self start with completes | filled
    · have steps' := fun edge mem ↦ steps edge (List.mem_cons_of_mem _ mem)
      have each' := fun other mem ↦ each other (List.mem_cons_of_mem _ mem)
      rcases ih completes steps' each' with through | filled
      · exact .inl through
      · exact .inr (Nat.add_pos_right _ filled)
    · exact .inr (Nat.add_pos_left filled _)

namespace Accepted

variable (accepted : flow.Accepted)

include accepted

/-- Whether code goes on behind a statement of the body. -/
theorem runsOn_iff {stmt : StmtId} (has : flow.body.has stmt = true) :
    flow.runsOn stmt = true ↔ (flow.Live (.entry stmt) → flow.Live (.ending stmt)) := by
  rw [runsOn, Bool.or_eq_true, Bool.not_eq_true', ← Bool.not_eq_true,
    accepted.completes_iff has, accepted.isReachable_iff has]
  constructor
  · rintro (completes | dead) live
    · exact completes
    · exact absurd live dead
  · intro runs
    by_cases live : flow.Live (.entry stmt)
    · exact .inl (runs live)
    · exact .inr live

/-- A statement with no instructions lets control through. -/
theorem runsOn_or_size (config : Config) {stmt : StmtId} (has : flow.body.has stmt = true)
    (scopes : List StmtId) :
    flow.runsOn stmt = true ∨ 0 < (flow.emit config stmt scopes).size := by
  have tree := accepted.wellFormed.toIsTree
  revert scopes
  refine tree.inductionUp (motive := fun stmt ↦ ∀ scopes,
    flow.runsOn stmt = true ∨ 0 < (flow.emit config stmt scopes).size)
    (fun stmt shape found ih scopes ↦ ?_) has
  have has := Body.has_iff_get?.mpr ⟨shape, found⟩
  have hasChild {child : StmtId} (mem : child ∈ shape.children) : flow.body.has child = true :=
    tree.has_child (Body.mem_children_of_get? found mem)
  have each {child : StmtId} (mem : child ∈ shape.children) (scopes : List StmtId)
      (live : flow.Live (.entry child)) :
      flow.Live (.ending child) ∨ 0 < (flow.emit config child scopes).size :=
    (ih child mem scopes).imp_left fun runs ↦ (accepted.runsOn_iff (hasChild mem)).mp runs live
  -- A child with an exit instruction behind it takes space, whatever it does.
  have exits {child owner : StmtId} {operation : Instruction LabelKey}
      (mem : child ∈ shape.children) (scopes : List StmtId) :
      0 < (flow.emit config child scopes ++
        Code.onlyIf (flow.runsOn child) (.instr owner operation)).size :=
    size_exit (ih child mem scopes)
  rw [emit_eq config tree found, accepted.runsOn_iff has, template, Code.size, Code.size_append]
  suffices h : flow.Live (.entry stmt) → flow.Live (.ending stmt) ∨
      0 < (flow.shapeCode config (flow.emit config) scopes stmt shape).size by
    by_cases live : flow.Live (.entry stmt)
    · exact (h live).imp (fun ends _ ↦ ends) fun filled ↦ Nat.add_pos_right _ filled
    · exact .inl fun live' ↦ absurd live' live
  intro live
  cases shape with
  | block children =>
    exact size_sequence live (fun edge mem live ↦ live.edge found mem)
      fun child mem live ↦ each mem scopes live
  | labeled label body =>
    have start : flow.Live (.entry body) := live.edge found List.mem_cons_self
    rcases each List.mem_cons_self scopes start with ends | filled
    · exact .inl (ends.edge found (List.mem_cons_of_mem _ List.mem_cons_self))
    · exact .inr (Nat.add_pos_right _ filled)
  | conditional condition thenBranch elseBranch =>
    refine .inr ?_
    cases elseBranch <;> simp only [shapeCode, conditionalCode, Code.size_append, Code.size] <;>
      omega
  | switch sections default =>
    refine .inr ?_
    simp only [shapeCode, switchCode, Code.size_append, Code.size]
    omega
  | loop condition body =>
    refine .inr ?_
    have := @exits body stmt (.branch (.head stmt)) List.mem_cons_self scopes
    simp only [shapeCode, loopCode, Code.size_append] at this ⊢
    omega
  | tryBlock parts =>
    refine .inr ?_
    have body := @exits parts.body stmt (.leave (.endOf stmt)) List.mem_cons_self
      (parts.body :: scopes)
    have group : 0 < (flow.groupCode (flow.emit config) scopes stmt parts).size := by
      simp only [groupCode, tryBodyCode, protectedCode, apply_ite Code.size, Code.size_append,
        Code.size] at body ⊢
      split <;> omega
    simp only [shapeCode, tryCode, Code.size_append]
    cases parts.handler with
    | none => exact Nat.add_pos_left group _
    | some clause =>
      simp only [Code.size_append, Code.size]
      omega
  | synthetic kind body =>
    refine .inr ?_
    have plain := @exits body stmt (.cleanup stmt kind) List.mem_cons_self scopes
    simp only [shapeCode, syntheticCode, apply_ite Code.size, Code.size_append, Code.size]
      at plain ⊢
    split <;> omega
  | jump form =>
    refine .inr ?_
    obtain ⟨route, routed⟩ := accepted.exists_routed found
    have resolved := accepted.target?_eq_some.mpr ⟨form, route, found, routed, rfl⟩
    rcases flow.jumpCode_eq stmt scopes with ⟨unresolved, -⟩ | ⟨target, operation, -, -, code⟩
    · rw [resolved] at unresolved
      cases unresolved
    · rw [shapeCode, code]
      exact Nat.one_pos
  | expression | throwException | rethrow | lambda => exact .inr Nat.one_pos

/-- The code of a statement with an exit instruction takes space. -/
theorem size_exits (config : Config) {part owner : StmtId} (has : flow.body.has part = true)
    (scopes : List StmtId) (operation : Instruction LabelKey) :
    0 < (flow.emit config part scopes ++
      Code.onlyIf (flow.runsOn part) (.instr owner operation)).size :=
    size_exit (accepted.runsOn_or_size config has scopes)

omit accepted in
private theorem clauses_catches {emit : Emitter} {scopes : List StmtId} {stmt : StmtId}
    (clauses : List (CatchClause × Nat)) :
    Clauses ((Code.concat (clauses.map fun (clause, place) ↦
      flow.catchCode emit scopes stmt place clause)).tops) := by
  induction clauses with
  | nil => exact .nil
  | cons entry rest ih =>
    obtain ⟨clause, place⟩ := entry
    rw [List.map_cons, Code.concat_cons, Code.tops]
    simp only [catchCode, Code.tops_append, Code.tops_notes, Code.tops, List.append_nil]
    cases filtered : clause.isFiltered with
    | false => exact .typed rfl rfl ih
    | true => exact .filtered rfl rfl ih

private theorem boxed_groupCode (config : Config) {stmt : StmtId} {parts : TryStatement}
    (found : flow.body.get? stmt = some (.tryBlock parts)) (scopes : List StmtId)
    (closed : ∀ part ∈ parts.protectedParts, ∀ scopes, (flow.emit config part scopes).Closed) :
    (flow.groupCode (flow.emit config) scopes stmt parts).Boxed := by
  have tree := accepted.wellFormed.toIsTree
  -- A part with its exit instruction in a region of its own.
  have alone {part : StmtId} (mem : part ∈ parts.protectedParts) (head : RegionHead)
      (plain : head.kind.hasHandler = false) (notMethod : head.kind ≠ .method) :
      (Code.region head (flow.protectedCode (flow.emit config) scopes stmt part)).Formed :=
    ((closed part mem _).append (.onlyIf .instr)).region
      (accepted.size_exits config (tree.has_child (Body.mem_children_of_get? found
        (List.mem_append_left _ mem))) _ _) plain notMethod
  have body := Code.Boxed.of_formed rfl
    (alone List.mem_cons_self
      ⟨.tryBlock, .user, parts.body, none, flow.exits (.ofScope parts.body stmt)⟩ rfl (by simp))
    (flow.exitEvents (.ofScope parts.body stmt))
  unfold groupCode
  split
  · exact body
  · have catches : ∀ code ∈ parts.catches.zipIdx.map (fun (clause, place) ↦
        flow.catchCode (flow.emit config) scopes stmt place clause),
        code.Formed ∧ code.isBare = true := by
      intro code listed
      obtain ⟨⟨clause, place⟩, mem, rfl⟩ := List.mem_map.mp listed
      have mem : clause.body ∈ parts.protectedParts :=
        List.mem_cons_of_mem _ (List.mem_map_of_mem (List.fst_mem_of_mem_zipIdx mem))
      simp only [catchCode]
      constructor
      · refine ⟨⟨?_, alone mem _ rfl (by simp)⟩, Code.Closed.notes.formed⟩
        cases clause.isFiltered with
        | false => trivial
        | true => exact (Code.Closed.instr.append .instr).region Nat.two_pos rfl (by simp)
      · refine Bool.and_eq_true_iff.mpr ⟨Bool.and_eq_true_iff.mpr ⟨?_, rfl⟩, Code.isBare_notes _⟩
        cases clause.isFiltered <;> rfl
    exact body.group rfl (Code.formed_concat fun code listed ↦ (catches code listed).1)
      (Code.isBare_concat fun code listed ↦ (catches code listed).2) (clauses_catches _) _

/-- The code of a statement is closed. -/
theorem closed_emit (config : Config) {stmt : StmtId} (has : flow.body.has stmt = true)
    (scopes : List StmtId) : (flow.emit config stmt scopes).Closed := by
  have tree := accepted.wellFormed.toIsTree
  revert scopes
  refine tree.inductionUp (motive := fun stmt ↦ ∀ scopes, (flow.emit config stmt scopes).Closed)
    (fun stmt shape found ih scopes ↦ ?_) has
  have nonempty {child : StmtId} (mem : child ∈ shape.children) (owner : StmtId)
      (scopes : List StmtId) (operation : Instruction LabelKey) :
      0 < (flow.emit config child scopes ++
        Code.onlyIf (flow.runsOn child) (.instr owner operation)).size :=
    accepted.size_exits config (tree.has_child (Body.mem_children_of_get? found mem)) scopes _
  have exits {child : StmtId} (mem : child ∈ shape.children) (owner : StmtId)
      (scopes : List StmtId) (operation : Instruction LabelKey) : (flow.emit config child scopes ++
        Code.onlyIf (flow.runsOn child) (.instr owner operation)).Closed :=
    (ih child mem scopes).append (Code.Closed.onlyIf .instr)
  rw [emit_eq config tree found]
  suffices h : (flow.shapeCode config (flow.emit config) scopes stmt shape).Closed by
    have dead : (flow.deadNote stmt shape).Closed :=
      Code.Closed.onlyIf ⟨trivial, List.forall_mem_nil _⟩
    have := dead.append h
    exact ⟨this.formed, this.free⟩
  cases shape with
  | block children =>
    rw [shapeCode]
    refine Code.Closed.concat fun part mem ↦ ?_
    obtain ⟨child, listed, rfl⟩ := List.mem_map.mp mem
    exact ih child listed scopes
  | conditional condition thenBranch elseBranch =>
    have first := ih thenBranch List.mem_cons_self scopes
    cases elseBranch with
    | none =>
      rw [shapeCode, conditionalCode]
      exact (Code.Closed.instr.append first).append .mark
    | some elseBranch =>
      rw [shapeCode, conditionalCode]
      have second := ih elseBranch (List.mem_cons_of_mem _ (List.mem_singleton_self _)) scopes
      exact ((((Code.Closed.instr.append first).append (.onlyIf .instr)).append .mark).append
        second).append .mark
  | tryBlock parts =>
    obtain ⟨closed, filled, bare, single⟩ := accepted.boxed_groupCode config found scopes
      fun part mem ↦ ih part (List.mem_append_left _ mem)
    rw [shapeCode, tryCode]
    refine Code.Closed.append ?_ .mark
    cases handler : parts.handler with
    | none => exact closed
    | some clause =>
      have mem : clause.body ∈ (Statement.tryBlock parts).children := by
        simp [Statement.children, handler]
      have last := exits mem stmt (clause.body :: scopes) .endFinally
      have filled' := nonempty mem stmt (clause.body :: scopes) .endFinally
      refine Code.Closed.append ⟨⟨closed.formed, last.formed, filled, filled', ?_, bare, single,
        last.free⟩, ?_⟩ .notes
      · cases clause.kind <;> rfl
      · refine List.forall_mem_singleton.mpr ?_
        cases clause.kind <;> rfl
  | labeled label body =>
    rw [shapeCode]
    exact Code.Closed.mark.append (ih body List.mem_cons_self scopes)
  | loop condition body =>
    rw [shapeCode, loopCode]
    exact (((Code.Closed.mark.append (.onlyIf .instr)).append
      (ih body List.mem_cons_self scopes)).append (.onlyIf .instr)).append .mark
  | switch sections default =>
    rw [shapeCode, switchCode]
    refine ((Code.Closed.instr.append .instr).append (.concat fun part mem ↦ ?_)).append .mark
    obtain ⟨child, listed, rfl⟩ := List.mem_map.mp mem
    exact (Code.Closed.mark.append (ih child listed scopes)).append (.onlyIf .instr)
  | synthetic kind body =>
    rw [shapeCode, syntheticCode]
    refine Code.Closed.append ?_ .mark
    split
    · have inner := exits List.mem_cons_self stmt (body :: scopes) (.leave (.endOf stmt))
      have filled := nonempty List.mem_cons_self stmt (body :: scopes)
        (.leave (.endOf stmt))
      refine ⟨⟨inner.region filled rfl (by simp), (Code.Closed.instr.append .instr).formed, filled,
        Nat.succ_pos _, rfl, rfl, ⟨_, rfl, rfl⟩, List.forall_mem_nil _⟩, ?_⟩
      exact List.forall_mem_singleton.mpr rfl
    · exact exits List.mem_cons_self stmt scopes (.cleanup stmt kind)
  | jump form =>
    rcases flow.jumpCode_eq stmt scopes with ⟨-, code⟩ | ⟨target, operation, -, -, code⟩
    · rw [shapeCode, code]
      exact ⟨trivial, List.forall_mem_nil _⟩
    · rw [shapeCode, code]
      exact .instr
  | expression | throwException | rethrow | lambda => exact .instr

/-- The code of a method is well formed. -/
theorem methodFormed (config : Config) {root : StmtId} (member : root ∈ flow.body.methods) :
    Code.MethodFormed (flow.methodHead root) (flow.methodCode config root) := by
  have has := accepted.wellFormed.toIsTree.has_of_mem_methods member
  have epilogue : (flow.epilogue root (flow.emit config root []).layout).Closed :=
    .onlyIf (.append .mark .instr)
  obtain ⟨formed, free⟩ := (accepted.closed_emit config has []).append epilogue
  refine ⟨rfl, formed, ?_, free⟩
  rw [methodCode, Code.size_append, Flow.epilogue]
  rcases accepted.runsOn_or_size config has [] with runs | filled
  · rw [runs]
    exact Nat.succ_pos _
  · exact Nat.add_pos_left filled _

/-- The tree of a method is valid. -/
theorem validate_methodTree (config : Config) {root : StmtId}
    (member : root ∈ flow.body.methods) : (flow.methodTree config root).validate = .ok () :=
  (accepted.methodFormed config member).validate reads_methodTree

end Accepted
end Flow
end ProtectedRegions
