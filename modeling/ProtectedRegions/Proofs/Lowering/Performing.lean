import ProtectedRegions.Proofs.Lowering.Acting
import ProtectedRegions.Proofs.Lowering.Exits

/-!
# What a method does where control is

At a node that no other node follows the moves of the method answer what control does there, one
by one. This holds for each statement where it starts and where a child of it ends, and so for the
method as a whole.
-/

namespace ProtectedRegions

/-- The targets of a jump table. -/
theorem Instruction.mapTargets_switch {τ υ : Type} (f : τ → υ) (targets : List τ) :
    (Instruction.switch targets).mapTargets f = .switch (targets.map f) := by
  simp [mapTargets, mapTargetsM]

namespace Flow

variable {flow : Flow} {config : Config} {root : StmtId}

/-- Control that is cleaning up shows it. -/
theorem Shows.answers_cleans {progress : Progress} {stmt : StmtId} {kind : SyntheticKind}
    {owners : List StmtId} {goal : FlowNode} {pending : List Detour} (accepted : flow.Accepted)
    (shows' : flow.Shows config root progress (.cleans stmt kind owners goal pending)) :
    flow.Answers config root (flow.moves config root progress)
      [(some (.cleanup stmt kind), flow.via goal pending owners)] := by
  cases shows' with
  | @cleans _ _ _ _ _ offset target handlers waiting stands ends promises leads waits =>
    rw [stands.moves]
    exact .one (.forced (ends.moves _) (comes_leave accepted promises leads waits))

/-- Control that is at the exit of the method returns. -/
theorem Shows.answers_exit {progress : Progress} {r : StmtId} {pending : List Detour}
    (shows' : flow.Shows config root progress (.arrives (.exit r) pending)) :
    flow.Answers config root (flow.moves config root progress) [(some .ret, .stopped)] := by
  cases shows' with
  | arrives arrived =>
    have stands : flow.Stands config root (.instr root .ret) _ := arrived.stands
    rw [stands.moves]
    exact .one Shows.stopped.comes

namespace Accepted

variable (accepted : flow.Accepted)

include accepted

/-- A statement that starts goes on to a child that is in the same handlers. -/
theorem comes_child {stmt : StmtId} {pending : List Detour} {offset : Nat} {waiting : List Leaving}
    (arrived : flow.Arrived config root (.entry stmt) pending offset waiting) {shape : Statement}
    (found : flow.body.get? stmt = some shape) (plain : ∀ parts, shape ≠ .tryBlock parts)
    {child : StmtId} (mem : child ∈ shape.children)
    (edge : ⟨.entry stmt, .entry child, .conditional⟩ ∈ shape.edges stmt) {target : Nat}
    (stands : flow.Stands config root (.node (.entry child)) target) :
    flow.Comes config root (.running target waiting) (.arrives (.entry child) pending) :=
  arrived.move (Live.edge arrived.live found edge)
    (accepted.wellFormed.toIsTree.handlersAround_of_plain found mem plain) stands

/-- A child that ends goes on to a node of the statement around it. -/
theorem comes_parent {child : StmtId} {pending : List Detour} {offset : Nat}
    {waiting : List Leaving}
    (arrived : flow.Arrived config root (.ending child) pending offset waiting) {stmt : StmtId}
    {shape : Statement} (found : flow.body.get? stmt = some shape)
    (plain : ∀ parts, shape ≠ .tryBlock parts) (mem : child ∈ shape.children) {node : FlowNode}
    (scope : node.scope = stmt) {kind : FlowEdgeKind}
    (edge : ⟨.ending child, node, kind⟩ ∈ shape.edges stmt) {target : Nat}
    (stands : flow.Stands config root (node.item root) target) :
    flow.Comes config root (.running target waiting) (.arrives node pending) := by
  refine arrived.move (Live.edge arrived.live found edge) ?_ stands
  rw [scope]
  exact (accepted.wellFormed.toIsTree.handlersAround_of_plain found mem plain).symm

/-- What follows the end of a protected part is promised, by way of its statement. -/
theorem promises_part {stmt part : StmtId} {owners : List StmtId}
    (mem : part ∈ flow.body.children stmt)
    (role : (flow.body.role? part).any (·.isProtected) = true) (live : flow.Live (.ending part))
    (same : flow.body.handlersAround part = flow.body.handlersAround stmt)
    (among : ∀ owner ∈ owners, owner = stmt)
    (arrives : (∀ owner ∈ owners, flow.Finishes owner) → flow.Live (.ending stmt)) :
    flow.Promises owners (.ending stmt) (flow.body.handlersAround part) where
  starts owner listed := by
    rw [among owner listed]
    exact accepted.live_entry_of_protected live mem role .refl rfl
  arrives := arrives
  owners owner listed := by rw [among owner listed, same]
  goal := same.symm

variable (member : root ∈ flow.body.methods)

include member

/-- A jump to where all its scopes hold the target crosses nothing. -/
theorem crossing_of_holds {jump : StmtId} {scopes : List StmtId} {place : Place}
    (laid : flow.Laid config root (flow.methodPlace config root) jump scopes place)
    {goal : JumpTarget} (resolved : flow.target? jump = some goal)
    (holds : ∀ scope ∈ scopes, flow.contains scope goal.scope = true) :
    flow.crossing config jump goal = [] := by
  obtain ⟨_, _, between, -, -, crossed, free⟩ := accepted.exists_crossed member laid resolved
  rw [free holds] at crossed
  exact crossed.symm

omit accepted member in
/-- A jump that crosses nothing goes to its target and runs nothing on the way. -/
theorem goal_of_crossing {jump : StmtId} {goal : JumpTarget}
    (crossed : flow.crossing config jump goal = []) :
    flow.goal config jump goal = goal.arrival ∧ flow.owners config jump goal = [] := by
  constructor
  · rcases flow.goal_cases config jump goal with ⟨owner, mem, -⟩ | ⟨-, lands, -⟩
    · rw [crossed] at mem
      cases mem
    · exact lands
  · rw [owners, crossed]
    rfl

section First

variable {stmt : StmtId} {pending : List Detour} {offset : Nat} {waiting : List Leaving}
  (arrived : flow.Arrived config root (.entry stmt) pending offset waiting)

include arrived

/-- What the instruction of an expression or of a closure is followed by. -/
theorem comes_ending {shape : Statement} (found : flow.body.get? stmt = some shape)
    (edge : ⟨.entry stmt, .ending stmt, .sequential⟩ ∈ shape.edges stmt)
    {operation : Instruction LabelKey}
    (stands : flow.Stands config root (.instr stmt operation) offset)
    (goes : operation.isTerminator = false)
    (next : ∀ item, flow.GoesOn config stmt shape operation item → item = .node (.ending stmt)) :
    flow.Comes config root (.running (offset + 1) waiting) (.arrives (.ending stmt) pending) := by
  obtain ⟨item, behind, onward⟩ := accepted.goes_on member stands found goes
  cases next item onward
  exact arrived.move (Live.edge arrived.live found edge) rfl behind

/-- Control that skips what a statement does goes to its end. -/
theorem comes_past {shape : Statement} (found : flow.body.get? stmt = some shape)
    (edge : ⟨.entry stmt, .ending stmt, .conditional⟩ ∈ shape.edges stmt)
    {operation : Instruction LabelKey}
    (stands : flow.Stands config root (.instr stmt operation) offset) (stays : operation ≠ .ret)
    (named : .endOf stmt ∈ shape.labels stmt) :
    flow.Comes config root (.running ((flow.methodCode config root).offsetOf (.endOf stmt)) waiting)
      (.arrives (.ending stmt) pending) :=
  arrived.move (Live.edge arrived.live found edge) rfl
    (accepted.stands_target member stands found stays named)

omit arrived in
/-- A statement that tests its condition goes on behind the branch if that can hold, and to the
label of the branch if it can fail. -/
theorem responds_test {shape : Statement} (found : flow.body.get? stmt = some shape)
    {label : LabelKey} (stands : flow.Stands config root (.instr stmt (.branchIf label)) offset)
    {onward past : Course}
    (holds : shape.tested ≠ .never → ∀ item, flow.Stands config root item (offset + 1) →
      flow.GoesOn config stmt shape (.branchIf label) item →
        flow.Comes config root (.running (offset + 1) waiting) onward)
    (fails : shape.tested ≠ .always → flow.Comes config root
      (.running ((flow.methodCode config root).offsetOf label) waiting) past) :
    flow.Responds config root (.running offset waiting) (shape.tested.ways onward past) := by
  refine stands.responds ?_
  have tested : flow.tests config root offset = shape.tested :=
    accepted.tests_eq member stands found nofun
  show flow.Answers config root ((flow.tests config root offset).ways _ _) _
  rw [tested]
  refine .ways (fun possible ↦ ?_) fails
  obtain ⟨item, next, goes⟩ := accepted.goes_on member stands found rfl
  exact holds possible item next goes

theorem responds_conditional {condition : Condition} {thenBranch : StmtId}
    {elseBranch : Option StmtId}
    (found : flow.body.get? stmt = some (.conditional condition thenBranch elseBranch))
    (stands : flow.Stands config root
      (.instr stmt (.branchIf ((elseBranch.map LabelKey.elseOf).getD (.endOf stmt)))) offset) :
    flow.Responds config root (.running offset waiting)
      (flow.performsFirst config stmt pending (.conditional condition thenBranch elseBranch)) := by
  refine accepted.responds_test member found stands
    (fun (holds : condition ≠ .never) item next goes ↦ ?_)
    fun (fails : condition ≠ .always) ↦ ?_
  · cases goes
    exact accepted.comes_child arrived found (by simp) List.mem_cons_self
      (by simp [Statement.edges, holds]) next
  · cases elseBranch with
    | none =>
      exact accepted.comes_past member arrived found (by simp [Statement.edges, fails]) stands
        (by simp) List.mem_cons_self
    | some elseBranch =>
      exact accepted.comes_child arrived found (by simp)
        (List.mem_cons_of_mem _ (List.mem_singleton_self _)) (by simp [Statement.edges, fails])
        (accepted.stands_target member stands found (by simp) List.mem_cons_self)

theorem responds_loop {condition : Condition} {body : StmtId}
    (found : flow.body.get? stmt = some (.loop condition body))
    (stands : flow.Stands config root (.instr stmt (.branchIf (.endOf stmt))) offset) :
    flow.Responds config root (.running offset waiting)
      (flow.performsFirst config stmt pending (.loop condition body)) := by
  refine accepted.responds_test member found stands
    (fun (holds : condition ≠ .never) item next goes ↦ ?_)
    fun (fails : condition ≠ .always) ↦ ?_
  · cases goes
    exact accepted.comes_child arrived found (by simp) List.mem_cons_self
      (by simp [Statement.edges, holds]) next
  · exact accepted.comes_past member arrived found (by simp [Statement.edges, fails]) stands
      (by simp) (List.mem_cons_of_mem _ List.mem_cons_self)

theorem responds_switch {sections : List StmtId} {default : Option Nat}
    (found : flow.body.get? stmt = some (.switch sections default))
    (stands : flow.Stands config root (.instr stmt (.switch (sections.map LabelKey.caseOf)))
      offset) :
    flow.Responds config root (.running offset waiting)
      (flow.performsFirst config stmt pending (.switch sections default)) := by
  refine stands.responds ?_
  have starts {part : StmtId} (mem : part ∈ sections) : flow.Comes config root
      (.running ((flow.methodCode config root).offsetOf (.caseOf part)) waiting)
      (.arrives (.entry part) pending) := by
    refine accepted.comes_child arrived found nofun mem ?_ (accepted.stands_target member stands
      found nofun (List.mem_append_left _ (List.mem_map_of_mem mem)))
    exact List.mem_append_left _ (List.mem_flatMap.mpr ⟨part, mem, List.mem_cons_self⟩)
  rw [Instruction.mapTargets_switch, RegionTree.acts, performsFirst, List.map_map, List.map_map]
  refine List.rel_append ?_ (Answers.one ?_)
  · rw [List.forall₂_map_left_iff, List.forall₂_map_right_iff, List.forall₂_same]
    exact fun part mem ↦ ⟨rfl, starts mem⟩
  · -- Behind the jump table there is a branch to the default section.
    obtain ⟨item, next, goes⟩ := accepted.goes_on member stands found rfl
    cases goes
    refine .forced (next.moves waiting) ?_
    cases chosen : default.bind (sections[·]?) with
    | none =>
      -- A default section is one of the sections, so that there is none.
      have absent : default = none := by
        have complete := accepted.wellFormed.complete found
        cases default with
        | none => rfl
        | some index =>
          rw [Option.bind_some, List.getElem?_eq_none_iff] at chosen
          exact (Nat.not_lt.mpr chosen complete).elim
      subst absent
      exact accepted.comes_past member arrived found
        (List.mem_append_right _ (List.mem_singleton_self _)) stands nofun
        (List.mem_append_right _ (List.mem_singleton_self _))
    | some part =>
      obtain ⟨index, -, listed⟩ := Option.bind_eq_some_iff.mp chosen
      exact starts (List.mem_of_getElem? listed)

theorem responds_jump {form : Jump} (found : flow.body.get? stmt = some (.jump form)) :
    flow.Responds config root (.running offset waiting)
      (flow.performsFirst config stmt pending (.jump form)) := by
  have tree := accepted.wellFormed.toIsTree
  have rooted := tree.has_of_mem_methods member
  have own := tree.methodOf_of_mem_methods member
  obtain ⟨_, _, within⟩ := accepted.exists_laid member arrived.stands
  obtain ⟨operation, at', token⟩ := (accepted.isSimple_of_jump found).exists_instr tree rooted own
    ((within.inside tree).2.trans own) (flow.methodPlace config root)
  obtain ⟨scopes, place, goal, laid, resolved, by', around, same⟩ :=
    accepted.instr_of_jump member found token
  have stands := stands_of_token (tokens_methodCode token)
  have first : offset = place.offset :=
    arrived.stands.unique tree rooted (laid.stands_entry tree rfl found)
  have promises := accepted.promises_jump config resolved arrived.live
  rw [show flow.body.handlersAround stmt = _ from arrived.around] at promises
  have leads {label : LabelKey} (by' : flow.JumpsBy scopes goal (.leave label))
      (token : (.instr stmt (.leave label), at') ∈
        (flow.emit config root []).tokens (flow.methodPlace config root)) :=
    accepted.leads_jump member laid resolved arrived.live by' (tokens_methodCode token) around
  rw [same, ← first] at stands leads
  rw [performsFirst, resolved]
  simp only [performsJump]
  cases by' with
  | ret outermost =>
    subst outermost
    rw [if_pos ⟨rfl, accepted.crossing_of_holds member laid resolved (List.forall_mem_nil _)⟩]
    exact stands.responds (.one Shows.stopped.comes)
  | @leaveMethod r within =>
    have comes := comes_leave accepted promises (leads (.leaveMethod within) token) arrived.waits
    split
    · next alone =>
      -- Nothing runs on the way to the exit, where the return is seen.
      rw [owners, alone.2, goal_returnFrom] at comes
      obtain ⟨progress, drifts, shows'⟩ := comes
      exact ⟨progress, .head (stands.moves waiting) drifts, shows'.answers_exit⟩
    · exact stands.responds (.one comes)
  | branch stays holds =>
    rw [if_neg fun returns ↦ by rw [stays] at returns; cases returns.1]
    obtain ⟨lands, none⟩ :=
      goal_of_crossing (accepted.crossing_of_holds member laid resolved holds)
    rw [lands, none] at promises ⊢
    obtain ⟨_, _, _, laid', -⟩ := accepted.exists_crossed member laid resolved
    obtain ⟨placed, -, offset', -, stands'⟩ :=
      accepted.stands_arrival member rfl resolved stays laid'
    rw [← (JumpTarget.arrival_of_stays root stays).2, offset'] at stands'
    exact stands.responds (.one (Shows.arrives ⟨promises.arrives (List.forall_mem_nil _),
      promises.goal, stands', arrived.waits⟩).comes)
  | leave stays left =>
    rw [if_neg fun returns ↦ by rw [stays] at returns; cases returns.1]
    exact stands.responds (.one (comes_leave accepted promises (leads (.leave stays left) token)
      arrived.waits))

/-- A run responds to what a statement does where it starts. -/
theorem responds_first {shape : Statement} {item : Item}
    (found : flow.body.get? stmt = some shape) (performs : PerformsFirst stmt shape item)
    (stands : flow.Stands config root item offset) :
    flow.Responds config root (.running offset waiting)
      (flow.performsFirst config stmt pending shape) := by
  cases shape with
  | expression =>
    cases performs
    exact stands.responds (.one (accepted.comes_ending member arrived found List.mem_cons_self
      stands rfl fun _ ↦ id))
  | lambda =>
    cases performs
    exact stands.responds (.one (accepted.comes_ending member arrived found List.mem_cons_self
      stands rfl fun _ ↦ id))
  | throwException | rethrow =>
    cases performs
    exact stands.responds (.one Shows.stopped.comes)
  | conditional =>
    cases performs
    exact accepted.responds_conditional member arrived found stands
  | loop =>
    cases performs
    exact accepted.responds_loop member arrived found stands
  | switch =>
    cases performs
    exact accepted.responds_switch member arrived found stands
  | jump => exact accepted.responds_jump member arrived found
  | block | tryBlock | labeled | synthetic => exact performs.elim

end First

section Last

variable {child stmt : StmtId} {pending : List Detour} {offset : Nat} {waiting : List Leaving}
  (arrived : flow.Arrived config root (.ending child) pending offset waiting)

/-- The exit instruction of a protected part comes to where the statement ends, by way of its
`finally` if it has one. -/
theorem comes_exit {shape : Statement} (found : flow.body.get? stmt = some shape)
    (form : shape.isJump = false)
    (stands : flow.Stands config root (.instr stmt (.leave (.endOf stmt))) offset)
    (promises : flow.Promises (flow.guardedBy config stmt shape) (.ending stmt)
      (flow.body.pendingAround root pending))
    (waits : flow.Waits config root pending waiting) :
    flow.Comes config root (.leave ((flow.methodCode config root).offsetOf (.endOf stmt)) waiting
        ((flow.methodTree config root).handlersLeft offset
          ((flow.methodCode config root).offsetOf (.endOf stmt))))
      (flow.via (.ending stmt) pending (flow.guardedBy config stmt shape)) := by
  obtain ⟨scopes, place, at', laid, own, fits, rfl⟩ :=
    accepted.origin_of_stands member stands found nofun
  refine comes_leave accepted promises ?_ waits
  cases fits with
  | plain targets => cases targets
  | branch _ _ stays => cases stays
  | leave labeled _ behind => exact accepted.leads_exit member laid found own labeled behind
  | jump => cases form

include arrived

theorem responds_synthetic {kind : SyntheticKind}
    (found : flow.body.get? stmt = some (.synthetic kind child))
    (stands : flow.Stands config root (.instr stmt
      (if (flow.decideCleanup config kind stmt child).isProtected then .leave (.endOf stmt)
        else .cleanup stmt kind)) offset) :
    flow.Responds config root (.running offset waiting)
      [(some (.cleanup stmt kind), .arrives (.ending stmt) pending)] := by
  have tree := accepted.wellFormed.toIsTree
  have edge : ⟨.ending child, .ending stmt, .sequential⟩ ∈
      (Statement.synthetic kind child).edges stmt :=
    List.mem_cons_of_mem _ List.mem_cons_self
  have live := Live.edge arrived.live found edge
  split at stands
  · next guarded =>
    have guards : flow.guardedBy config stmt (.synthetic kind child) = [stmt] := if_pos guarded
    obtain ⟨mem, role⟩ := accepted.mem_children_of_guardian?
      (accepted.guardian?_eq_some.mpr (.inr ⟨kind, found, guarded⟩))
    have promises := accepted.promises_part mem role arrived.live
      (tree.handlersAround_of_plain found List.mem_cons_self nofun)
      (fun owner ↦ List.mem_singleton.mp) fun _ ↦ live
    rw [← guards, show flow.body.handlersAround child = _ from arrived.around] at promises
    -- The cleanup shows in the `finally` that the part leaves through.
    have comes := accepted.comes_exit member found rfl stands promises arrived.waits
    rw [guards, via, found] at comes
    obtain ⟨progress, drifts, shows'⟩ := comes
    exact ⟨progress, .head (stands.moves waiting) drifts, shows'.answers_cleans accepted⟩
  · next plain =>
    obtain ⟨item, next, goes⟩ := accepted.goes_on member stands found rfl
    rw [GoesOn, if_neg plain] at goes
    subst goes
    exact stands.responds (.one
      (accepted.comes_parent arrived found nofun List.mem_cons_self rfl edge next))

theorem responds_try {parts : TryStatement} (found : flow.body.get? stmt = some (.tryBlock parts))
    (mem : child ∈ (Statement.tryBlock parts).children)
    (stands : flow.Stands config root (.instr stmt
      (if child ∈ parts.protectedParts then .leave (.endOf stmt) else .endFinally)) offset) :
    flow.Responds config root (.running offset waiting)
      (flow.performsLast stmt child pending (.tryBlock parts)) := by
  have tree := accepted.wellFormed.toIsTree
  simp only [performsLast]
  split at stands
  · next part =>
    rw [if_pos part]
    have role : (flow.body.role? child).any (·.isProtected) = true := by
      rcases (tree.role?_protectedPart found part).1 with role | ⟨place, role⟩
      all_goals
        rw [role]
        rfl
    have among : ∀ owner ∈ flow.guardedBy config stmt (.tryBlock parts), owner = stmt := by
      rw [guardedBy]
      split
      · exact fun owner ↦ List.mem_singleton.mp
      · exact List.forall_mem_nil _
    have promises := accepted.promises_part (Body.mem_children_of_get? found mem) role
      arrived.live (tree.handlersAround_protectedPart found part) among fun finish ↦ by
        refine Live.completion found part arrived.live fun body handled ↦ ?_
        have listed : stmt ∈ flow.guardedBy config stmt (.tryBlock parts) := by
          rw [guardedBy, handled]
          exact List.mem_singleton_self _
        exact finish stmt listed parts body found handled
    rw [show flow.body.handlersAround child = _ from arrived.around] at promises
    exact stands.responds
      (.one (accepted.comes_exit member found rfl stands promises arrived.waits))
  · next other =>
    rw [if_neg other]
    obtain ⟨clause, handler, rfl⟩ : ∃ clause, parts.handler = some clause ∧ clause.body = child := by
      rcases List.mem_append.mp mem with part | handler
      · exact (other part).elim
      · simpa using handler
    have around := arrived.around
    have live := arrived.live
    cases arrived.waits with
    | nil => exact stands.responds .nil
    | @cons detour _ _ _ _ promises leads waits =>
      -- The detour that pends first is the one of this handler.
      have heads : clause.body :: flow.body.handlersAround stmt = detour.handler :: _ :=
        (tree.handlersAround_handlerBody found handler).symm.trans around
      rw [← (List.cons.inj heads).1] at promises
      exact stands.responds (.one (comes_leave accepted (promises live) leads waits))

/-- A run responds to what a statement does where a child of it ends. -/
theorem responds_last {shape : Statement} {item : Item} (found : flow.body.get? stmt = some shape)
    (mem : child ∈ shape.children) (performs : flow.PerformsLast config stmt child shape item)
    (stands : flow.Stands config root item offset) :
    flow.Responds config root (.running offset waiting)
      (flow.performsLast stmt child pending shape) := by
  cases shape with
  | conditional condition thenBranch elseBranch =>
    cases elseBranch with
    | none => exact performs.elim
    | some elseBranch =>
      obtain ⟨rfl, rfl⟩ := performs
      have edge : ⟨.ending child, .ending stmt, .sequential⟩ ∈
          (Statement.conditional condition child (some elseBranch)).edges stmt := by
        simp [Statement.edges]
      exact stands.responds (.one (accepted.comes_parent arrived found (by simp) mem rfl edge
        (accepted.stands_target member stands found (by simp)
          (List.mem_cons_of_mem _ List.mem_cons_self))))
  | switch sections default =>
    cases performs
    have edge : ⟨.ending child, .ending stmt, .sequential⟩ ∈
        (Statement.switch sections default).edges stmt :=
      List.mem_append_left _ (List.mem_flatMap.mpr
        ⟨child, mem, List.mem_cons_of_mem _ List.mem_cons_self⟩)
    exact stands.responds (.one (accepted.comes_parent arrived found (by simp) mem rfl edge
      (accepted.stands_target member stands found (by simp)
        (List.mem_append_right _ (List.mem_singleton_self _)))))
  | loop condition body =>
    cases performs
    cases List.mem_singleton.mp mem
    have edge : ⟨.ending child, .entry stmt, .backEdge⟩ ∈
        (Statement.loop condition child).edges stmt :=
      List.mem_append_right _ (List.mem_singleton_self _)
    exact stands.responds (.one (accepted.comes_parent arrived found (by simp) mem rfl edge
      (accepted.stands_target member stands found (by simp) List.mem_cons_self)))
  | synthetic kind body =>
    cases performs
    cases List.mem_singleton.mp mem
    exact accepted.responds_synthetic member arrived found stands
  | tryBlock parts =>
    cases performs
    exact accepted.responds_try member arrived found mem stands
  | block | labeled | expression | jump | throwException | rethrow | lambda => exact performs.elim

end Last

/-- Where control is a run responds to what control does at the last node that abuts. -/
theorem responds_arrived {node : FlowNode} {pending : List Detour} {offset : Nat}
    {waiting : List Leaving} (arrived : flow.Arrived config root node pending offset waiting) :
    ∃ last, flow.Abuts node last ∧ flow.nextNode? last = none ∧ flow.Live last ∧
      flow.Responds config root (.running offset waiting) (flow.performs config pending last) := by
  have tree := accepted.wellFormed.toIsTree
  by_cases outside : ∃ r, node = .exit r
  · obtain ⟨r, rfl⟩ := outside
    exact ⟨.exit r, .refl, rfl, arrived.live, _, .refl, (Shows.arrives arrived).answers_exit⟩
  · have stands : flow.Stands config root (.node node) offset := by
      have stands := arrived.stands
      cases node with
      | exit r => exact (outside ⟨r, rfl⟩).elim
      | _ => exact stands
    obtain ⟨last, abuts, final⟩ := accepted.exists_final member stands
    have live := accepted.live_of_abuts arrived.live abuts
    have around := (abuts.handlersAround tree).trans arrived.around
    have stands := accepted.stands_of_abuts member stands abuts
    refine ⟨last, abuts, final, live, ?_⟩
    obtain ⟨item, behind, link⟩ := accepted.follows_node member live stands
    cases link with
    | next follows =>
      rw [final] at follows
      cases follows
    | «first» found silent performs =>
      rw [performs_entry config pending found]
      exact accepted.responds_first member ⟨live, around, stands, arrived.waits⟩ found performs
        behind
    | «last» found mem runs performs =>
      rw [performs_ending tree config pending found mem]
      exact accepted.responds_last member ⟨live, around, stands, arrived.waits⟩ found mem performs
        behind
    | «sealed» closed => exact (accepted.not_live_of_sealed closed live).elim
    | ret mem =>
      rw [performs_root tree config pending mem]
      exact behind.responds (.one Shows.stopped.comes)

end Accepted
end Flow
end ProtectedRegions
