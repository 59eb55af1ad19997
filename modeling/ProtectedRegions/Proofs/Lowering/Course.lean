import ProtectedRegions.Proofs.Flow.Exits
import ProtectedRegions.Proofs.Flow.Handlers
import ProtectedRegions.Proofs.Lowering.Abutting
import ProtectedRegions.Proofs.Lowering.Finally
import ProtectedRegions.Proofs.Region.Running

/-!
# The course of control

How control goes from node to node of a body in which nothing throws, without regard to where the
nodes stand. On its way out of the parts that a statement guards control runs the handler of the
statement. Which cleanups follow their bodies directly does not matter for the course.
-/

namespace ProtectedRegions

namespace Flow

variable {flow : Flow}

/-- A node is followed by one in the same handlers. -/
theorem handlersAround_next (tree : flow.body.IsTree) {node next : FlowNode}
    (follows : flow.nextNode? node = some next) :
    flow.body.handlersAround next.scope = flow.body.handlersAround node.scope := by
  have inner {stmt child : StmtId} {shape : Statement} (found : flow.body.get? stmt = some shape)
      (mem : child ∈ flow.body.children stmt) (plain : ∀ parts, shape ≠ .tryBlock parts) :
      flow.body.handlersAround child = flow.body.handlersAround stmt := by
    rw [Body.children_of_get? found] at mem
    exact tree.handlersAround_of_plain found mem plain
  rcases scope_of_nextNode? tree follows with
    ⟨stmt, rfl, rfl | ⟨child, mem, rfl⟩⟩ | ⟨stmt, child, mem, rfl, free, ends⟩
  · rfl
  · obtain ⟨shape, found, listed⟩ := Body.get?_of_mem_children mem
    by_cases plain : ∀ parts, shape ≠ .tryBlock parts
    · exact inner found mem plain
    · obtain ⟨parts, rfl⟩ := not_forall_not.mp plain
      rw [nextNode?_entry found] at follows
      cases follows
      exact tree.handlersAround_protectedPart found List.mem_cons_self
  · obtain ⟨shape, found, listed⟩ := Body.get?_of_mem_children mem
    have plain (parts : TryStatement) : shape ≠ .tryBlock parts := by
      rintro rfl
      rw [nextNode?_ending tree found listed] at follows
      cases follows
    rcases ends with rfl | ⟨other, mem', rfl⟩
    · exact (inner found mem plain).symm
    · exact (inner found mem' plain).trans (inner found mem plain).symm

/-- Nodes that abut are in the same handlers. -/
theorem Abuts.handlersAround (tree : flow.body.IsTree) {first last : FlowNode}
    (abuts : flow.Abuts first last) :
    flow.body.handlersAround last.scope = flow.body.handlersAround first.scope := by
  induction abuts with
  | refl => rfl
  | step _ follows ih => exact (handlersAround_next tree follows).trans ih

end Flow

/-- A handler that runs, with the owners whose handlers run behind it and the node at which control
arrives behind all of them. -/
structure Detour where
  handler : StmtId
  owners : List StmtId
  goal : FlowNode

/-- Where control is. The handlers that it is in wait for their ends, innermost first. -/
inductive Course where
  | arrives (node : FlowNode) (pending : List Detour)
  /-- At the cleanup of a statement, with the owners whose handlers run behind it. -/
  | cleans (stmt : StmtId) (kind : SyntheticKind) (owners : List StmtId) (goal : FlowNode)
    (pending : List Detour)
  | stopped

/-- The handlers that pend in a method, and those around it. -/
def Body.pendingAround (body : Body) (root : StmtId) (pending : List Detour) : List StmtId :=
  pending.map (·.handler) ++ body.handlersAround root

namespace Flow

/-- On its way to a node control runs the handlers of the owners. -/
def via (flow : Flow) (goal : FlowNode) (pending : List Detour) : List StmtId → Course
  | [] => .arrives goal pending
  | owner :: owners =>
    match flow.body.get? owner with
    | some (.synthetic kind _) => .cleans owner kind owners goal pending
    | some (.tryBlock parts) =>
      match parts.finallyBody? with
      | some handler => .arrives (.entry handler) (⟨handler, owners, goal⟩ :: pending)
      | none => .stopped
    | _ => .stopped

/-- The statements that guard what a jump leaves, innermost first. -/
def crossing (flow : Flow) (config : Config) (stmt : StmtId) (target : JumpTarget) :
    List StmtId :=
  (flow.body.apart flow.numbering stmt target.scope).filterMap (flow.guardian? config)

section Landing

open scoped Classical

/-- The owners whose handlers a jump runs: it is not out of the parts of an owner where it lands at
the start of the owner. -/
noncomputable def owners (flow : Flow) (config : Config) (stmt : StmtId) (target : JumpTarget) :
    List StmtId :=
  (flow.crossing config stmt target).filter fun owner ↦
    ¬ flow.Abuts target.arrival (.entry owner)

/-- The node at which control arrives with a jump. -/
noncomputable def goal (flow : Flow) (config : Config) (stmt : StmtId) (target : JumpTarget) :
    FlowNode :=
  (((flow.crossing config stmt target).find? fun owner ↦
    flow.Abuts target.arrival (.entry owner)).map .entry).getD target.arrival

end Landing

/-- What a jump does. A return out of nothing that is guarded is seen at once. -/
noncomputable def performsJump (flow : Flow) (config : Config) (stmt : StmtId)
    (pending : List Detour) (target : JumpTarget) : List (Option (Instruction Nat) × Course) :=
  if target.isReturn ∧ flow.crossing config stmt target = [] then [(some .ret, .stopped)]
  else [(none, flow.via (flow.goal config stmt target) pending (flow.owners config stmt target))]

/-- What a statement does where it starts. -/
noncomputable def performsFirst (flow : Flow) (config : Config) (stmt : StmtId)
    (pending : List Detour) : Statement → List (Option (Instruction Nat) × Course)
  | .expression _ => [(some (.code stmt), .arrives (.ending stmt) pending)]
  | .lambda _ => [(some (.closure stmt), .arrives (.ending stmt) pending)]
  | .throwException => [(some .throwException, .stopped)]
  | .rethrow => [(some .rethrow, .stopped)]
  | .conditional condition thenBranch elseBranch =>
    condition.ways (.arrives (.entry thenBranch) pending)
      (.arrives ((elseBranch.map .entry).getD (.ending stmt)) pending)
  | .loop condition body =>
    condition.ways (.arrives (.entry body) pending) (.arrives (.ending stmt) pending)
  | .switch sections default =>
    sections.map (fun part ↦ (none, .arrives (.entry part) pending)) ++
      [(none, .arrives (((default.bind (sections[·]?)).map .entry).getD (.ending stmt)) pending)]
  | .jump _ =>
    match flow.target? stmt with
    | some target => flow.performsJump config stmt pending target
    | none => []
  | .block _ | .tryBlock _ | .labeled _ _ | .synthetic _ _ => []

/-- What a statement does where a child of it ends. -/
def performsLast (flow : Flow) (stmt child : StmtId) (pending : List Detour) :
    Statement → List (Option (Instruction Nat) × Course)
  | .conditional .. | .switch .. => [(none, .arrives (.ending stmt) pending)]
  | .loop .. => [(none, .arrives (.entry stmt) pending)]
  | .synthetic kind _ => [(some (.cleanup stmt kind), .arrives (.ending stmt) pending)]
  | .tryBlock parts =>
    if child ∈ parts.protectedParts then
      [(none, flow.via (.ending stmt) pending (if parts.finallyBody?.isSome then [stmt] else []))]
    else
      match pending with
      | [] => []
      | detour :: pending => [(none, flow.via detour.goal pending detour.owners)]
  | .lambda _ => [(some .ret, .stopped)]
  | .block _ | .labeled _ _ | .expression _ | .jump _ | .throwException | .rethrow => []

/-- What control does at a node that no other node follows. -/
noncomputable def performs (flow : Flow) (config : Config) (pending : List Detour) :
    FlowNode → List (Option (Instruction Nat) × Course)
  | .entry stmt =>
    match flow.body.get? stmt with
    | some shape => flow.performsFirst config stmt pending shape
    | none => []
  | .ending child =>
    match flow.body.parent? child with
    | some stmt =>
      match flow.body.get? stmt with
      | some shape => flow.performsLast stmt child pending shape
      | none => []
    | none => [(some .ret, .stopped)]
  | .exit _ => [(some .ret, .stopped)]

/-- The moves of control. It runs on to the last node that abuts and acts there. -/
inductive CourseMoves (flow : Flow) (config : Config) :
    Course → Option (Instruction Nat) → Course → Prop
  | acts {node last : FlowNode} {pending : List Detour} {seen : Option (Instruction Nat)}
      {next : Course} (abuts : flow.Abuts node last) (final : flow.nextNode? last = none)
      (mem : (seen, next) ∈ flow.performs config pending last) :
      CourseMoves flow config (.arrives node pending) seen next
  | cleans {stmt : StmtId} {kind : SyntheticKind} {owners : List StmtId} {goal : FlowNode}
      {pending : List Detour} :
      CourseMoves flow config (.cleans stmt kind owners goal pending) (some (.cleanup stmt kind))
        (flow.via goal pending owners)

variable {flow : Flow}

/-- What control does where a statement starts. -/
theorem performs_entry (config : Config) (pending : List Detour) {stmt : StmtId}
    {shape : Statement} (found : flow.body.get? stmt = some shape) :
    flow.performs config pending (.entry stmt) = flow.performsFirst config stmt pending shape := by
  simp only [performs, found]

/-- What control does where a child of a statement ends. -/
theorem performs_ending (tree : flow.body.IsTree) (config : Config) (pending : List Detour)
    {stmt child : StmtId} {shape : Statement} (found : flow.body.get? stmt = some shape)
    (mem : child ∈ shape.children) :
    flow.performs config pending (.ending child) = flow.performsLast stmt child pending shape := by
  simp only [performs, tree.parent?_eq_some.mpr (Body.mem_children_of_get? found mem), found]

/-- Control returns where a method ends. -/
theorem performs_root (tree : flow.body.IsTree) (config : Config) (pending : List Detour)
    {root : StmtId} (mem : root ∈ flow.body.methods) :
    flow.performs config pending (.ending root) = [(some .ret, .stopped)] := by
  rcases Body.mem_methods.mp mem with rfl | ⟨stmt, found⟩
  · simp only [performs, tree.parent?_root]
  · exact performs_ending tree config pending found (List.mem_singleton_self _)

/-- The live jumps cross the same owners under both configurations. -/
def Agrees (flow : Flow) (config config' : Config) : Prop :=
  ∀ {stmt target}, flow.target? stmt = some target → flow.Live (.entry stmt) →
    flow.crossing config stmt target = flow.crossing config' stmt target

/-- What control does depends on the configuration by way of the live jumps only. -/
theorem Agrees.performs {config config' : Config} (agrees : flow.Agrees config config')
    (pending : List Detour) {node : FlowNode} (live : flow.Live node) :
    flow.performs config pending node = flow.performs config' pending node := by
  cases node with
  | entry stmt =>
    simp only [Flow.performs]
    cases flow.body.get? stmt with
    | none => rfl
    | some shape =>
      cases shape with
      | jump form =>
        simp only [performsFirst]
        cases resolved : flow.target? stmt with
        | none => rfl
        | some target =>
          simp only [performsJump, goal, owners, agrees resolved live]
      | _ => rfl
  | ending | exit => rfl

/-- A jump lands at the start of an owner that it crosses, or at its target. -/
theorem goal_cases (config : Config) (stmt : StmtId) (target : JumpTarget) :
    (∃ owner ∈ flow.crossing config stmt target, flow.Abuts target.arrival (.entry owner) ∧
      flow.goal config stmt target = .entry owner) ∨
    (∀ owner ∈ flow.crossing config stmt target, ¬ flow.Abuts target.arrival (.entry owner)) ∧
      flow.goal config stmt target = target.arrival ∧
      flow.owners config stmt target = flow.crossing config stmt target := by
  classical
  rw [goal, owners]
  cases lands : (flow.crossing config stmt target).find? fun owner ↦
      decide (flow.Abuts target.arrival (.entry owner)) with
  | some owner =>
    refine .inl ⟨owner, List.mem_of_find?_eq_some lands, ?_, rfl⟩
    simpa using List.find?_some lands
  | none =>
    have misses : ∀ owner ∈ flow.crossing config stmt target,
        ¬ flow.Abuts target.arrival (.entry owner) := by
      simpa using lands
    refine .inr ⟨misses, rfl, List.filter_eq_self.mpr fun owner mem ↦ ?_⟩
    exact decide_eq_true (misses owner mem)

/-- The handler of the owner completes, if it is one of the program. -/
def Finishes (flow : Flow) (owner : StmtId) : Prop :=
  ∀ parts handler, flow.body.get? owner = some (.tryBlock parts) →
    parts.finallyBody? = some handler → flow.Live (.ending handler)

/-- The owners can run their handlers, and the goal is live once all of them complete. Owners and
goal are all in the handlers given. -/
structure Promises (flow : Flow) (owners : List StmtId) (goal : FlowNode)
    (around : List StmtId) : Prop where
  starts : ∀ owner ∈ owners, flow.Live (.entry owner)
  arrives : (∀ owner ∈ owners, flow.Finishes owner) → flow.Live goal
  owners : ∀ owner ∈ owners, flow.body.handlersAround owner = around
  goal : flow.body.handlersAround goal.scope = around

/-- The handler of the first owner is done. -/
theorem Promises.tail {owner : StmtId} {owners : List StmtId} {goal : FlowNode}
    {around : List StmtId} (promises : flow.Promises (owner :: owners) goal around)
    (finishes : flow.Finishes owner) : flow.Promises owners goal around where
  starts other mem := promises.starts other (List.mem_cons_of_mem _ mem)
  arrives all := promises.arrives (List.forall_mem_cons.mpr ⟨finishes, all⟩)
  owners other mem := promises.owners other (List.mem_cons_of_mem _ mem)
  goal := promises.goal

namespace Accepted

variable (accepted : flow.Accepted)

include accepted

/-- A scope that a jump leaves runs in the method of the jump. -/
theorem methodOf_of_left {stmt part : StmtId} {target : JumpTarget}
    (resolved : flow.target? stmt = some target) (inside : flow.body.Inside part stmt)
    (outside : ¬ flow.body.Inside part target.scope) :
    flow.body.methodOf part = flow.body.methodOf stmt := by
  have tree := accepted.wellFormed.toIsTree
  obtain ⟨form, jump, spec⟩ := accepted.resolved_of_target resolved
  have has := Body.has_iff_get?.mpr ⟨_, jump⟩
  obtain ⟨has', same⟩ := spec.scope_spec tree has
  have around := (tree.methodOf_spec has).2
  have around' := (tree.methodOf_spec has').2
  rw [same] at around'
  rcases tree.inside_total around inside with within | beyond
  · rw [tree.methodOf_between within inside has (tree.methodOf_methodOf has).symm,
      tree.methodOf_methodOf has]
  · exact (outside (beyond.trans around')).elim

/-- The owners that a jump crosses guard parts that it leaves. -/
theorem mem_crossing {config : Config} {stmt owner : StmtId} {target : JumpTarget}
    (resolved : flow.target? stmt = some target) :
    owner ∈ flow.crossing config stmt target ↔ ∃ part, flow.guardian? config part = some owner ∧
      flow.body.Inside part stmt ∧ ¬ flow.body.Inside part target.scope := by
  have tree := accepted.wellFormed.toIsTree
  obtain ⟨form, jump, spec⟩ := accepted.resolved_of_target resolved
  have has := Body.has_iff_get?.mpr ⟨_, jump⟩
  have left (part : StmtId) := @mem_apart _ accepted _ _ part has (spec.scope_spec tree has).1
  rw [crossing, List.mem_filterMap]
  exact ⟨fun ⟨part, mem, guards⟩ ↦ ⟨part, guards, (left part).mp mem⟩,
    fun ⟨part, guards, leaves⟩ ↦ ⟨part, (left part).mpr leaves, guards⟩⟩

/-- A live jump keeps to the handlers that it is in, and its owners can all start. -/
theorem crossing_spec {config : Config} {stmt owner : StmtId} {target : JumpTarget}
    (resolved : flow.target? stmt = some target) (live : flow.Live (.entry stmt))
    (mem : owner ∈ flow.crossing config stmt target) :
    flow.Live (.entry owner) ∧
      flow.body.handlersAround owner = flow.body.handlersAround stmt := by
  have tree := accepted.wellFormed.toIsTree
  obtain ⟨form, route, jump, routed, rfl⟩ := accepted.target?_eq_some.mp resolved
  obtain ⟨part, guards, inside, outside⟩ := (accepted.mem_crossing resolved).mp mem
  obtain ⟨child, role⟩ := accepted.mem_children_of_guardian? guards
  have none {scope : StmtId} (within : flow.body.Inside scope stmt)
      (beyond : ¬ flow.body.Inside scope route.target.scope) :
      flow.body.handlerKind? scope = none :=
    Body.handlerKind?_eq_none ((accepted.checked_spec jump routed).1 scope within beyond)
  refine ⟨accepted.live_entry_of_protected live child role inside
    (accepted.methodOf_of_left resolved inside outside), ?_⟩
  rw [← tree.handlersAround_of_none child (none inside outside)]
  refine (tree.handlersAround_of_inside inside fun scope within beyond ↦ none within ?_).symm
  intro holds
  rcases tree.inside_total inside within with below | above
  · exact outside (below.trans holds)
  · exact beyond above

/-- A live jump arrives once the handlers that it runs complete. -/
theorem promises_jump (config : Config) {stmt : StmtId} {target : JumpTarget}
    (resolved : flow.target? stmt = some target) (live : flow.Live (.entry stmt)) :
    flow.Promises (flow.owners config stmt target) (flow.goal config stmt target)
      (flow.body.handlersAround stmt) := by
  have tree := accepted.wellFormed.toIsTree
  have spec {owner : StmtId} (mem : owner ∈ flow.crossing config stmt target) :=
    accepted.crossing_spec resolved live mem
  have among {owner : StmtId} (mem : owner ∈ flow.owners config stmt target) :
      owner ∈ flow.crossing config stmt target := List.mem_of_mem_filter mem
  obtain ⟨form, route, jump, routed, same⟩ := accepted.target?_eq_some.mp resolved
  refine ⟨fun owner mem ↦ (spec (among mem)).1, fun finish ↦ ?_,
    fun owner mem ↦ (spec (among mem)).2, ?_⟩
  · rcases flow.goal_cases config stmt target with ⟨owner, mem, -, lands⟩ | ⟨-, lands, all⟩
    · rw [lands]
      exact (spec mem).1
    · rw [lands]
      rw [all] at finish
      subst same
      have listed : route ∈ flow.jumps :=
        accepted.mem_jumps.mpr ⟨form, routed.source ▸ jump, routed.source ▸ routed⟩
      refine Live.jump listed (routed.source ▸ live) fun handler required ↦ ?_
      rw [(accepted.checked_spec jump routed).2.2] at required
      obtain ⟨part, left, finallyOf⟩ := List.mem_filterMap.mp required
      obtain ⟨owner, parts, found, listed', handled, -⟩ := accepted.finallyOf?_spec finallyOf
      have guards : flow.guardian? config part = some owner :=
        accepted.guardian?_eq_some.mpr (.inl ⟨parts, found, listed', by rw [handled]; rfl⟩)
      exact finish owner (List.mem_filterMap.mpr ⟨part, left, guards⟩) parts handler found handled
  · rcases flow.goal_cases config stmt target with ⟨owner, mem, -, lands⟩ | ⟨-, lands, -⟩
    · rw [lands]
      exact (spec mem).2
    · rw [lands, target.scope_arrival]
      subst same
      have has := Body.has_iff_get?.mpr ⟨_, jump⟩
      obtain ⟨leaves, enters, -⟩ := accepted.checked_spec jump routed
      refine tree.handlersAround_eq
        ((accepted.resolved_of_routed jump routed).scope_spec tree has).1 has
        (fun scope within beyond ↦ ?_) fun scope within beyond ↦ ?_
      · refine Body.handlerKind?_eq_none fun kind role ↦ ?_
        have free := enters scope within beyond
        rw [role] at free
        cases free
      · exact Body.handlerKind?_eq_none (leaves scope within beyond)

end Accepted
end Flow
end ProtectedRegions
