import ProtectedRegions.Proofs.Lowering.Unwinding

/-!
# Where control is in the code of a method

A method that runs is where control is if the node stands there, and the leaves that wait run the
handlers that pend. Between two such states it makes moves that it is forced to and that show
nothing.
-/

namespace ProtectedRegions

/-- The condition that a statement tests. -/
def Statement.tested : Statement → Condition
  | .conditional condition .. | .loop condition _ => condition
  | _ => .unknown

namespace Flow

/-- The condition that is tested at an offset of the code of a method. -/
def tests (flow : Flow) (config : Config) (root : StmtId) (offset : Nat) : Condition :=
  (((flow.emit config root []).instrs[offset]?.bind fun entry ↦ flow.body.get? entry.1).map
    Statement.tested).getD .unknown

/-- The moves of the method at `root`. -/
def moves (flow : Flow) (config : Config) (root : StmtId) :
    Progress → List (Option (Instruction Nat) × Progress) :=
  (flow.methodTree config root).moves (flow.tests config root)

/-- The method at `root` makes moves that it is forced to. -/
def Drifts (flow : Flow) (config : Config) (root : StmtId) : Progress → Progress → Prop :=
  Relation.ReflTransGen ((flow.methodTree config root).Forced (flow.tests config root))

/-- The leaves that wait run the handlers of the detours that pend. -/
inductive Waits (flow : Flow) (config : Config) (root : StmtId) :
    List Detour → List Leaving → Prop
  | nil : Waits flow config root [] []
  | cons {detour : Detour} {pending : List Detour} {handlers : List Nat} {target : Nat}
      {waiting : List Leaving}
      (promises : flow.Live (.ending detour.handler) →
        flow.Promises detour.owners detour.goal (flow.body.pendingAround root pending))
      (leads : flow.Leads config root detour.owners detour.goal handlers target)
      (waits : Waits flow config root pending waiting) :
      Waits flow config root (detour :: pending) (⟨handlers, target⟩ :: waiting)

/-- Control is at a node, which stands at the offset, while detours pend. -/
structure Arrived (flow : Flow) (config : Config) (root : StmtId) (node : FlowNode)
    (pending : List Detour) (offset : Nat) (waiting : List Leaving) : Prop where
  live : flow.Live node
  around : flow.body.handlersAround node.scope = flow.body.pendingAround root pending
  stands : flow.Stands config root (node.item root) offset
  waits : flow.Waits config root pending waiting

/-- The state of a run of a method, and where control is. -/
inductive Shows (flow : Flow) (config : Config) (root : StmtId) : Progress → Course → Prop
  | arrives {node : FlowNode} {pending : List Detour} {offset : Nat} {waiting : List Leaving}
      (arrived : flow.Arrived config root node pending offset waiting) :
      Shows flow config root (.running offset waiting) (.arrives node pending)
  | cleans {stmt : StmtId} {kind : SyntheticKind} {owners : List StmtId} {goal : FlowNode}
      {pending : List Detour} {offset target : Nat} {handlers : List Nat} {waiting : List Leaving}
      (stands : flow.Stands config root (.instr stmt (.cleanup stmt kind)) offset)
      (ends : flow.Stands config root (.instr stmt .endFinally) (offset + 1))
      (promises : flow.Promises owners goal (flow.body.pendingAround root pending))
      (leads : flow.Leads config root owners goal handlers target)
      (waits : flow.Waits config root pending waiting) :
      Shows flow config root (.running offset (⟨handlers, target⟩ :: waiting))
        (.cleans stmt kind owners goal pending)
  | stopped : Shows flow config root .stopped .stopped

/-- The run drifts to where control is. -/
def Comes (flow : Flow) (config : Config) (root : StmtId) (progress : Progress)
    (course : Course) : Prop :=
  ∃ progress', flow.Drifts config root progress progress' ∧ flow.Shows config root progress' course

/-- The moves show what the acts do, one by one, and come to where they lead. -/
def Answers (flow : Flow) (config : Config) (root : StmtId) :
    List (Option (Instruction Nat) × Progress) → List (Option (Instruction Nat) × Course) → Prop :=
  List.Forall₂ fun move act ↦ move.1 = act.1 ∧ flow.Comes config root move.2 act.2

/-- The run drifts to a state whose moves answer the acts. -/
def Responds (flow : Flow) (config : Config) (root : StmtId) (progress : Progress)
    (acts : List (Option (Instruction Nat) × Course)) : Prop :=
  ∃ progress', flow.Drifts config root progress progress' ∧
    flow.Answers config root (flow.moves config root progress') acts

variable {flow : Flow} {config : Config} {root : StmtId}

/-- The instruction that stands at an offset. -/
theorem Stands.instruction {stmt : StmtId} {operation : Instruction LabelKey} {offset : Nat}
    (stands : flow.Stands config root (.instr stmt operation) offset) :
    (∃ at', (.instr stmt operation, at') ∈
        (flow.methodCode config root).tokens (flow.methodPlace config root) ∧
          at'.offset = offset) ∧
      (flow.methodTree config root).instructions[offset]? =
        some (operation.mapTargets (flow.methodCode config root).offsetOf) := by
  have listed : (Item.instr stmt operation, offset) ∈
      (flow.methodCode config root).placedItems (flow.methodPlace config root).offset := stands
  rw [← Code.filterMap_item?] at listed
  obtain ⟨⟨token, at'⟩, mem, item⟩ := List.mem_filterMap.mp listed
  cases token with
  | instr source operation' =>
    cases item
    exact ⟨⟨at', mem, rfl⟩, getElem?_methodTree.mpr ⟨_, _, at', mem, rfl, rfl⟩⟩
  | _ => cases item

/-- An instruction of the code stands at its offset. -/
theorem stands_of_token {stmt : StmtId} {operation : Instruction LabelKey} {at' : Place}
    (token : (.instr stmt operation, at') ∈
      (flow.methodCode config root).tokens (flow.methodPlace config root)) :
    flow.Stands config root (.instr stmt operation) at'.offset := by
  have listed : (Item.instr stmt operation, at'.offset) ∈ ((flow.methodCode config root).tokens
      (flow.methodPlace config root)).filterMap Token.item? :=
    List.mem_filterMap.mpr ⟨_, token, rfl⟩
  rw [Code.filterMap_item?] at listed
  exact listed

/-- The moves at an instruction. -/
theorem Stands.moves {stmt : StmtId} {operation : Instruction LabelKey} {offset : Nat}
    (stands : flow.Stands config root (.instr stmt operation) offset) (waiting : List Leaving) :
    flow.moves config root (.running offset waiting) =
      (flow.methodTree config root).acts (flow.tests config root) offset waiting
        (operation.mapTargets (flow.methodCode config root).offsetOf) := by
  rw [Flow.moves, RegionTree.moves, stands.instruction.2]
  rfl

/-- A run that makes a forced move comes to where it comes to behind the move. -/
theorem Comes.forced {progress progress' : Progress} {course : Course}
    (moves : flow.moves config root progress = [(none, progress')])
    (comes : flow.Comes config root progress' course) : flow.Comes config root progress course :=
  comes.imp fun _ ⟨drifts, shows'⟩ ↦ ⟨.head moves drifts, shows'⟩

/-- What shows where control is comes there. -/
theorem Shows.comes {progress : Progress} {course : Course}
    (shows' : flow.Shows config root progress course) : flow.Comes config root progress course :=
  ⟨progress, .refl, shows'⟩

/-- Control goes on to a node in the same handlers. -/
theorem Arrived.move {node next : FlowNode} {pending : List Detour} {offset offset' : Nat}
    {waiting : List Leaving} (arrived : flow.Arrived config root node pending offset waiting)
    (live : flow.Live next)
    (same : flow.body.handlersAround next.scope = flow.body.handlersAround node.scope)
    (stands : flow.Stands config root (next.item root) offset') :
    flow.Comes config root (.running offset' waiting) (.arrives next pending) :=
  (Shows.arrives ⟨live, same.trans arrived.around, stands, arrived.waits⟩).comes

/-- A run responds with the moves at an instruction. -/
theorem Stands.responds {stmt : StmtId} {operation : Instruction LabelKey} {offset : Nat}
    {waiting : List Leaving} {acts : List (Option (Instruction Nat) × Course)}
    (stands : flow.Stands config root (.instr stmt operation) offset)
    (answers : flow.Answers config root ((flow.methodTree config root).acts
      (flow.tests config root) offset waiting
        (operation.mapTargets (flow.methodCode config root).offsetOf)) acts) :
    flow.Responds config root (.running offset waiting) acts :=
  ⟨_, .refl, stands.moves waiting ▸ answers⟩

/-- One move answers one act. -/
theorem Answers.one {seen : Option (Instruction Nat)} {progress : Progress} {course : Course}
    (comes : flow.Comes config root progress course) :
    flow.Answers config root [(seen, progress)] [(seen, course)] :=
  .cons ⟨rfl, comes⟩ .nil

/-- A test is answered by a test of the same condition. -/
theorem Answers.ways {condition : Condition} {holds fails : Progress} {holds' fails' : Course}
    (first : condition ≠ .never → flow.Comes config root holds holds')
    (second : condition ≠ .always → flow.Comes config root fails fails') :
    flow.Answers config root (condition.ways holds fails) (condition.ways holds' fails') := by
  refine List.rel_append ?_ ?_
  · split
    · exact .nil
    · next open' => exact Answers.one (first open')
  · split
    · exact .nil
    · next open' => exact Answers.one (second open')

/-- A leave comes to where it leads, by way of the handlers of its owners. -/
theorem comes_leave (accepted : flow.Accepted) {owners : List StmtId} {goal : FlowNode}
    {pending : List Detour} {handlers : List Nat} {target : Nat} {waiting : List Leaving}
    (promises : flow.Promises owners goal (flow.body.pendingAround root pending))
    (leads : flow.Leads config root owners goal handlers target)
    (waits : flow.Waits config root pending waiting) :
    flow.Comes config root (.leave target waiting handlers) (flow.via goal pending owners) := by
  have tree := accepted.wellFormed.toIsTree
  obtain ⟨first, extra, rfl, begins, dead⟩ := leads.handlers
  cases begins with
  | nil =>
    -- The goal is live, so that there is nothing else to run.
    have live := promises.arrives (List.forall_mem_nil _)
    obtain rfl : extra = [] := by
      by_contra some
      exact dead some live
    exact (Shows.arrives ⟨live, promises.goal, leads.stands, waits⟩).comes
  | @cons owner handler owners first begins rest =>
    have leads' : flow.Leads config root owners goal (first ++ extra) target :=
      ⟨leads.stands, first, extra, rfl, rest, dead⟩
    cases begins with
    | @clause body parts _ found handled stands =>
      obtain ⟨clause, filtered, rfl⟩ := Option.map_eq_some_iff.mp handled
      have handler := (Option.filter_eq_some_iff.mp filtered).1
      have starts : ⟨.entry owner, .entry clause.body, .handler⟩ ∈
          (Statement.tryBlock parts).edges owner := by
        simp [Statement.edges, handler]
      have live := Live.edge (promises.starts owner List.mem_cons_self) found starts
      rw [via, found]
      simp only [handled]
      refine (Shows.arrives ⟨live, ?_, stands, .cons (fun completes ↦ ?_) leads' waits⟩).comes
      · show flow.body.handlersAround clause.body = _
        rw [tree.handlersAround_handlerBody found handler,
          promises.owners owner List.mem_cons_self]
        rfl
      · refine promises.tail fun parts' body found' handled' ↦ ?_
        rw [found] at found'
        cases found'
        rw [handled] at handled'
        cases handled'
        exact completes
    | cleanup found stands ends =>
      rw [via, found]
      refine (Shows.cleans stands ends (promises.tail fun parts body found' ↦ ?_) leads' waits).comes
      rw [found] at found'
      cases found'

namespace Accepted

variable (accepted : flow.Accepted) (member : root ∈ flow.body.methods)

include accepted member

/-- A statement with a node in the method is laid out there. -/
theorem exists_laid {node : FlowNode} {offset : Nat}
    (stands : flow.Stands config root (.node node) offset) :
    ∃ scopes place,
      flow.Laid config root (flow.methodPlace config root) node.scope scopes place := by
  have tree := accepted.wellFormed.toIsTree
  obtain ⟨has, inside, same⟩ := (mem_statements_iff config tree
    (tree.has_of_mem_methods member)).mp stands.mem_statements
  exact Laid.exists_place config _ tree inside has same

/-- What stands at an offset is an instruction of the template of its statement, unless it is a
return. -/
theorem origin_of_stands {stmt : StmtId} {operation : Instruction LabelKey} {offset : Nat}
    (stands : flow.Stands config root (.instr stmt operation) offset) {shape : Statement}
    (found : flow.body.get? stmt = some shape) (stays : operation ≠ .ret) :
    ∃ scopes place at', flow.Laid config root (flow.methodPlace config root) stmt scopes place ∧
      (.instr stmt operation, at') ∈ (flow.template config scopes stmt shape).own place ∧
      flow.OwnInstr config scopes stmt place shape operation at' ∧ at'.offset = offset := by
  obtain ⟨at', token, offset⟩ := stands.instruction.1
  rcases accepted.origin_or_epilogue member token with
    ⟨scopes, place, shape', laid, found', own, fits⟩ | ⟨-, same, -⟩
  · rw [found] at found'
    cases found'
    exact ⟨scopes, place, at', laid, own, fits, offset⟩
  · exact (stays same).elim

/-- The condition that an instruction of a statement tests is that of the statement. -/
theorem tests_eq {stmt : StmtId} {operation : Instruction LabelKey} {offset : Nat}
    (stands : flow.Stands config root (.instr stmt operation) offset) {shape : Statement}
    (found : flow.body.get? stmt = some shape) (stays : operation ≠ .ret) :
    flow.tests config root offset = shape.tested := by
  obtain ⟨scopes, place, at', laid, own, -, same⟩ :=
    accepted.origin_of_stands member stands found stays
  have token := laid.own_mem accepted.wellFormed.toIsTree found own
  have instr : (flow.emit config root []).instrs[offset]? = some (stmt, operation) :=
    Code.getElem?_instrs.mpr ⟨at', token, same.trans (Nat.zero_add _).symm⟩
  rw [tests, instr, Option.bind_some, found]
  rfl

/-- A label of a statement with an instruction is where its node stands. -/
theorem stands_target {stmt : StmtId} {operation : Instruction LabelKey} {offset : Nat}
    (stands : flow.Stands config root (.instr stmt operation) offset) {shape : Statement}
    (found : flow.body.get? stmt = some shape) (stays : operation ≠ .ret) {label : LabelKey}
    (named : label ∈ shape.labels stmt) :
    flow.Stands config root (.node (label.nodeOf stmt))
      ((flow.methodCode config root).offsetOf label) := by
  obtain ⟨scopes, place, at', laid, -⟩ := accepted.origin_of_stands member stands found stays
  obtain ⟨placed, -, offset, -, stands⟩ := accepted.stands_label member rfl laid found named
  exact offset ▸ stands

/-- What stands behind an instruction of a statement that control goes on behind. -/
theorem goes_on {stmt : StmtId} {operation : Instruction LabelKey} {offset : Nat}
    (stands : flow.Stands config root (.instr stmt operation) offset) {shape : Statement}
    (found : flow.body.get? stmt = some shape) (goes : operation.isTerminator = false) :
    ∃ item, flow.Stands config root item (offset + 1) ∧
      flow.GoesOn config stmt shape operation item := by
  rcases accepted.follows member stands with ⟨item, stands', link⟩ | last | ⟨last, -⟩
  · cases link with
    | goesOn found' goes =>
      rw [found] at found'
      cases found'
      exact ⟨item, stands', goes⟩
    | stops ends =>
      rw [goes] at ends
      cases ends
  · cases last
    cases goes
  · cases last

end Accepted

end Flow
end ProtectedRegions
