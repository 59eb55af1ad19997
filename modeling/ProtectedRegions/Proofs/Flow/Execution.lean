import Mathlib.Logic.Relation
import ProtectedRegions.Proofs.Flow.Marking

/-!
# Executions

The structured meaning of the statements of a method, as steps of a machine whose focus moves
through the tree. Conditions that are known are forced and all others are free, and an exception may
be raised anywhere. A `try` that is left runs its handler first, and goes on to be left once the
handler completes. What an execution does the flow analysis takes to be possible.
-/

namespace ProtectedRegions

/-- How control comes to the end of a statement. -/
inductive Ending where
  | normal
  /-- With a jump that has not arrived. -/
  | jump (source : StmtId)
  | exception
  deriving DecidableEq, Repr

/-- What an execution is about to do. -/
inductive Focus where
  | starts (stmt : StmtId)
  | ends (stmt : StmtId) (how : Ending)
  /-- The jump has left all that it leaves. -/
  | arrives (source : StmtId)
  /-- The method returns. -/
  | returns
  deriving DecidableEq, Repr

/-- A handler that runs, and how its `try` ends once it completes. -/
structure HandlerFrame where
  handler : StmtId
  owner : StmtId
  how : Ending
  deriving DecidableEq, Repr

/-- The state of an execution, with the innermost handler first. -/
structure Execution where
  focus : Focus
  handlers : List HandlerFrame
  deriving DecidableEq, Repr

/-- What a statement does when it starts. -/
def Statement.starting (stmt : StmtId) : Statement → List Focus
  | .block [] | .expression _ | .lambda _ => [.ends stmt .normal]
  | .block (child :: _) | .labeled _ child | .synthetic _ child => [.starts child]
  | .tryBlock parts => [.starts parts.body]
  | .conditional condition thenBranch elseBranch =>
    (if condition = .never then [] else [.starts thenBranch]) ++
    if condition = .always then [] else [(elseBranch.map .starts).getD (.ends stmt .normal)]
  | .loop condition body =>
    (if condition = .never then [] else [.starts body]) ++
    if condition = .always then [] else [.ends stmt .normal]
  | .switch sections default =>
    sections.map .starts ++ if default.isNone then [.ends stmt .normal] else []
  | .jump _ => [.ends stmt (.jump stmt)]
  | .throwException | .rethrow => [.ends stmt .exception]

/-- What a statement other than a `try` does when a child of it completes. -/
def Statement.continuing (stmt child : StmtId) : Statement → List Focus
  | .block children =>
    match (children.dropWhile (· != child)).tail with
    | [] => [.ends stmt .normal]
    | next :: _ => [.starts next]
  | .conditional .. | .labeled .. | .switch .. | .synthetic .. => [.ends stmt .normal]
  | .loop .. => [.starts stmt]
  | .expression _ | .tryBlock _ | .jump _ | .throwException | .rethrow | .lambda _ => []

/-- Whether jumps and exceptions pass through the statement. A `try` may handle them, and those of
a closure are not raised where it is created. -/
def Statement.isPassed : Statement → Bool
  | .tryBlock _ | .lambda _ => false
  | _ => true

/-- The handler that a `try` runs when a protected part of it ends. -/
def TryStatement.handlerFor? (parts : TryStatement) : Ending → Option StmtId
  | .normal | .jump _ => parts.finallyBody?
  | .exception => parts.handler.map (·.body)

/-- What a jump does once it has left all that it leaves. -/
def JumpTarget.landing : JumpTarget → Focus
  | .atLabel _ stmt => .starts stmt
  | .breakOf construct => .ends construct .normal
  | .continueOf loop => .starts loop
  | .returnFrom _ => .returns

namespace Flow

/-- The ending does not stop inside the scope: a jump stops where it finds its target. -/
def Passes (flow : Flow) (scope : StmtId) : Ending → Prop
  | .jump source => ∀ target, flow.target? source = some target →
    ¬ flow.body.Inside scope target.scope
  | .normal | .exception => True

/-- One step of an execution. -/
inductive Step (flow : Flow) : Execution → Execution → Prop
  | start {stmt : StmtId} {shape : Statement} {focus : Focus} {handlers : List HandlerFrame}
      (found : flow.body.get? stmt = some shape) (mem : focus ∈ shape.starting stmt) :
      Step flow ⟨.starts stmt, handlers⟩ ⟨focus, handlers⟩
  | proceed {stmt child : StmtId} {shape : Statement} {focus : Focus}
      {handlers : List HandlerFrame} (found : flow.body.get? stmt = some shape)
      (inner : child ∈ shape.children) (mem : focus ∈ shape.continuing stmt child) :
      Step flow ⟨.ends child .normal, handlers⟩ ⟨focus, handlers⟩
  /-- Whatever has started may raise an exception. -/
  | raise {stmt : StmtId} {focus : Focus} {handlers : List HandlerFrame}
      (running : focus = .starts stmt ∨ ∃ how, focus = .ends stmt how) :
      Step flow ⟨focus, handlers⟩ ⟨.ends stmt .exception, handlers⟩
  | pass {stmt child : StmtId} {shape : Statement} {how : Ending} {handlers : List HandlerFrame}
      (found : flow.body.get? stmt = some shape) (inner : child ∈ shape.children)
      (plain : shape.isPassed = true) (abrupt : how ≠ .normal) (passes : flow.Passes child how) :
      Step flow ⟨.ends child how, handlers⟩ ⟨.ends stmt how, handlers⟩
  /-- A protected part ends its `try` if no handler has to run first. -/
  | leave {stmt part : StmtId} {parts : TryStatement} {how : Ending}
      {handlers : List HandlerFrame} (found : flow.body.get? stmt = some (.tryBlock parts))
      (mem : part ∈ parts.protectedParts) (passes : flow.Passes part how)
      (unhandled : parts.handlerFor? how = none) :
      Step flow ⟨.ends part how, handlers⟩ ⟨.ends stmt how, handlers⟩
  | handle {stmt part handler : StmtId} {parts : TryStatement} {how : Ending}
      {handlers : List HandlerFrame} (found : flow.body.get? stmt = some (.tryBlock parts))
      (mem : part ∈ parts.protectedParts) (passes : flow.Passes part how)
      (handled : parts.handlerFor? how = some handler) :
      Step flow ⟨.ends part how, handlers⟩ ⟨.starts handler, ⟨handler, stmt, how⟩ :: handlers⟩
  /-- An exception of the body may be caught. -/
  | caught {stmt : StmtId} {parts : TryStatement} {clause : CatchClause}
      {handlers : List HandlerFrame} (found : flow.body.get? stmt = some (.tryBlock parts))
      (mem : clause ∈ parts.catches) :
      Step flow ⟨.ends parts.body .exception, handlers⟩ ⟨.starts clause.body, handlers⟩
  /-- A handler that completes ends its `try` the way it was to end. -/
  | resume {handler stmt : StmtId} {how : Ending} {handlers : List HandlerFrame} :
      Step flow ⟨.ends handler .normal, ⟨handler, stmt, how⟩ :: handlers⟩
        ⟨.ends stmt how, handlers⟩
  /-- An exception of a handler takes the place of what the handler ran for. -/
  | escape {handler stmt : StmtId} {how : Ending} {handlers : List HandlerFrame} :
      Step flow ⟨.ends handler .exception, ⟨handler, stmt, how⟩ :: handlers⟩
        ⟨.ends stmt .exception, handlers⟩
  | arrive {scope source : StmtId} {target : JumpTarget} {handlers : List HandlerFrame}
      (resolved : flow.target? source = some target)
      (holds : flow.body.Inside scope target.scope) :
      Step flow ⟨.ends scope (.jump source), handlers⟩ ⟨.arrives source, handlers⟩
  | land {source : StmtId} {target : JumpTarget} {handlers : List HandlerFrame}
      (resolved : flow.target? source = some target) :
      Step flow ⟨.arrives source, handlers⟩ ⟨target.landing, handlers⟩
  | complete {root : StmtId} (mem : root ∈ flow.body.methods) :
      Step flow ⟨.ends root .normal, []⟩ ⟨.returns, []⟩

variable {flow : Flow}

/-- Something in the scope is live. -/
def Busy (flow : Flow) (scope : StmtId) : Prop :=
  ∃ node, flow.Live node ∧ flow.body.Inside scope node.scope ∧
    flow.body.methodOf scope = flow.body.methodOf node.scope

/-- The jump starts in the scope, and each `finally` that it runs inside of the scope completes. -/
structure Underway (flow : Flow) (source scope : StmtId) : Prop where
  live : flow.Live (.entry source)
  inside : flow.body.Inside scope source
  same : flow.body.methodOf scope = flow.body.methodOf source
  handled {part handler : StmtId} : flow.body.Inside scope part → part ≠ scope →
    flow.body.Inside part source → flow.body.finallyOf? part = some handler →
      flow.Live (.ending handler)

/-- The flow analysis takes the ending of the scope to be possible. -/
def Ends (flow : Flow) (scope : StmtId) : Ending → Prop
  | .normal => flow.Live (.ending scope)
  | .jump source => flow.Underway source scope
  | .exception => flow.Busy scope

/-- The flow analysis takes it to be possible that an execution gets there. -/
def Foresees (flow : Flow) : Focus → Prop
  | .starts stmt => flow.Live (.entry stmt)
  | .ends stmt how => flow.Ends stmt how
  | .arrives source => ∃ target, flow.target? source = some target ∧ flow.Live target.arrival
  | .returns => True

/-- The flow analysis takes the state of an execution to be possible: where it is, and where its
handlers lead if they complete. -/
structure Expects (flow : Flow) (execution : Execution) : Prop where
  focus : flow.Foresees execution.focus
  handlers : ∀ frame ∈ execution.handlers,
    frame.handler ∈ flow.body.children frame.owner ∧ flow.body.isLambda frame.owner = false ∧
      (flow.Live (.ending frame.handler) → flow.Ends frame.owner frame.how)

/-- Where a list of children goes on behind one of them. -/
private theorem live_behind {stmt child : StmtId} {children : List StmtId} {source : FlowNode}
    (steps : ∀ edge ∈ Statement.sequence source (.ending stmt) children,
      flow.Live edge.source → flow.Live edge.target)
    (live : flow.Live (.ending child)) (mem : child ∈ children) {focus : Focus}
    (next : focus ∈ (Statement.block children).continuing stmt child) : flow.Foresees focus := by
  induction children generalizing source with
  | nil => cases mem
  | cons first rest ih =>
    by_cases same : first = child
    · subst same
      simp only [Statement.continuing, List.dropWhile_cons, bne_self_eq_false, Bool.false_eq_true,
        if_false, List.tail_cons] at next
      cases rest with
      | nil =>
        cases List.mem_singleton.mp next
        exact steps ⟨.ending first, .ending stmt, .sequential⟩
          (List.mem_cons_of_mem _ List.mem_cons_self) live
      | cons second rest =>
        cases List.mem_singleton.mp next
        exact steps ⟨.ending first, .entry second, .sequential⟩
          (List.mem_cons_of_mem _ List.mem_cons_self) live
    · have different : (first != child) = true := by simpa using same
      simp only [Statement.continuing, List.dropWhile_cons, different, if_true] at next
      exact ih (fun edge mem ↦ steps edge (List.mem_cons_of_mem _ mem))
        ((List.mem_cons.mp mem).resolve_left (Ne.symm same)) next

/-- What a statement does when a child of it completes is live if the end of the child is. -/
theorem foresees_continuing {stmt child : StmtId} {shape : Statement}
    (found : flow.body.get? stmt = some shape) (inner : child ∈ shape.children)
    (live : flow.Live (.ending child)) {focus : Focus}
    (mem : focus ∈ shape.continuing stmt child) : flow.Foresees focus := by
  have step {target : FlowNode} {kind : FlowEdgeKind}
      (listed : ⟨.ending child, target, kind⟩ ∈ shape.edges stmt) : flow.Live target :=
    @Live.edge _ _ _ ⟨.ending child, target, kind⟩ live found listed
  cases shape with
  | block children => exact live_behind (fun _ mem live ↦ live.edge found mem) live inner mem
  | labeled | synthetic =>
    cases List.mem_singleton.mp mem
    cases List.mem_singleton.mp inner
    exact step (List.mem_cons_of_mem _ List.mem_cons_self)
  | conditional condition thenBranch elseBranch =>
    cases List.mem_singleton.mp mem
    refine @step _ .sequential ?_
    rcases List.mem_cons.mp inner with rfl | inner
    · simp [Statement.edges]
    · simp [Statement.edges, Option.mem_toList.mp inner]
  | loop =>
    cases List.mem_singleton.mp mem
    cases List.mem_singleton.mp inner
    exact @step _ .backEdge (by simp [Statement.edges])
  | switch sections default =>
    cases List.mem_singleton.mp mem
    refine @step _ .sequential ?_
    have inner : child ∈ sections := inner
    simp [Statement.edges, inner]
  | expression | tryBlock | jump | throwException | rethrow | lambda => cases mem

/-- What starts, ends or raises in a scope is live in it. -/
theorem busy_of_foresees {stmt : StmtId} {focus : Focus}
    (running : focus = .starts stmt ∨ ∃ how, focus = .ends stmt how)
    (foreseen : flow.Foresees focus) : flow.Busy stmt := by
  rcases running with rfl | ⟨how, rfl⟩
  · exact ⟨_, foreseen, .refl, rfl⟩
  · cases how with
    | normal => exact ⟨_, foreseen, .refl, rfl⟩
    | jump => exact ⟨_, foreseen.live, foreseen.inside, foreseen.same⟩
    | exception => exact foreseen

/-- The handler that runs for an ending is that of the `try`. -/
theorem mem_handler_of_handlerFor? {parts : TryStatement} {how : Ending} {handler : StmtId}
    (handled : parts.handlerFor? how = some handler) :
    parts.handler.map (·.body) = some handler := by
  cases how with
  | exception => exact handled
  | normal | jump =>
    obtain ⟨clause, filtered, rfl⟩ := Option.map_eq_some_iff.mp handled
    rw [(Option.filter_eq_some_iff.mp filtered).1]
    rfl

namespace Accepted

variable (accepted : flow.Accepted)

include accepted

/-- What a live statement does when it starts is live. -/
theorem foresees_starting {stmt : StmtId} {shape : Statement}
    (found : flow.body.get? stmt = some shape) (live : flow.Live (.entry stmt)) {focus : Focus}
    (mem : focus ∈ shape.starting stmt) : flow.Foresees focus := by
  have tree := accepted.wellFormed.toIsTree
  have step {target : FlowNode} {kind : FlowEdgeKind}
      (listed : ⟨.entry stmt, target, kind⟩ ∈ shape.edges stmt) : flow.Live target :=
    @Live.edge _ _ _ ⟨.entry stmt, target, kind⟩ live found listed
  cases shape with
  | block children =>
    cases children <;> cases List.mem_singleton.mp mem <;> exact step List.mem_cons_self
  | expression | lambda | labeled | synthetic | tryBlock =>
    cases List.mem_singleton.mp mem
    exact step List.mem_cons_self
  | conditional condition thenBranch elseBranch =>
    rcases List.mem_append.mp mem with mem | mem <;>
      obtain ⟨possible, mem⟩ := List.mem_ite_nil_left.mp mem
    · cases List.mem_singleton.mp mem
      exact @step _ .conditional (by simp [Statement.edges, possible])
    · rw [List.mem_singleton.mp mem]
      cases elseBranch <;> exact @step _ .conditional (by simp [Statement.edges, possible])
  | loop condition body =>
    rcases List.mem_append.mp mem with mem | mem <;>
      obtain ⟨possible, mem⟩ := List.mem_ite_nil_left.mp mem
    all_goals
      cases List.mem_singleton.mp mem
      exact @step _ .conditional (by simp [Statement.edges, possible])
  | switch sections default =>
    rcases List.mem_append.mp mem with mem | mem
    · obtain ⟨part, listed, rfl⟩ := List.mem_map.mp mem
      exact @step _ .conditional (by simp [Statement.edges, listed])
    · split at mem
      · next isNone =>
        cases List.mem_singleton.mp mem
        exact @step _ .conditional (by simp [Statement.edges, isNone])
      · cases mem
  | jump form =>
    cases List.mem_singleton.mp mem
    refine ⟨live, .refl, rfl, fun outside different inside _ ↦ (different ?_).elim⟩
    exact tree.inside_antisymm (Body.has_iff_get?.mpr ⟨_, found⟩) inside outside
  | throwException | rethrow =>
    cases List.mem_singleton.mp mem
    exact ⟨_, live, .refl, rfl⟩

/-- What is live in a child is live in the statement around it. -/
theorem busy_of_child {stmt child : StmtId} (mem : child ∈ flow.body.children stmt)
    (open' : flow.body.isLambda stmt = false) (busy : flow.Busy child) : flow.Busy stmt := by
  obtain ⟨node, live, inside, method⟩ := busy
  refine ⟨node, live, (Body.Inside.of_child mem).trans inside, ?_⟩
  rw [← method, accepted.wellFormed.toIsTree.methodOf_child mem, open']
  rfl

/-- What ends a child, and not normally, ends the statement around it if the `finally` between them
completes. -/
theorem ends_of_child {stmt child : StmtId} {how : Ending} (mem : child ∈ flow.body.children stmt)
    (open' : flow.body.isLambda stmt = false) (abrupt : how ≠ .normal) (ends : flow.Ends child how)
    (handled : ∀ handler, flow.body.finallyOf? child = some handler →
      flow.Live (.ending handler)) : flow.Ends stmt how := by
  have tree := accepted.wellFormed.toIsTree
  cases how with
  | normal => exact (abrupt rfl).elim
  | exception => exact accepted.busy_of_child mem open' ends
  | jump source =>
    have same : flow.body.methodOf child = flow.body.methodOf stmt := by
      rw [tree.methodOf_child mem, open']
      rfl
    refine ⟨ends.live, (Body.Inside.of_child mem).trans ends.inside, same.symm.trans ends.same,
      fun {part handler} outside different inside finallyOf ↦ ?_⟩
    rcases tree.inside_total ends.inside inside with within | around
    · by_cases own : part = child
      · exact handled handler (own ▸ finallyOf)
      · exact ends.handled within own inside finallyOf
    · -- Between a statement and its child there is no other.
      rcases (tree.inside_child_iff mem).mp around with rfl | around
      · exact handled handler finallyOf
      · exact (different (tree.inside_antisymm (Body.has_of_mem_children mem) around outside)).elim

/-- The handlers and catch clauses of a `try` can start if something in its protected parts is
live. -/
theorem live_entry_of_busy {stmt part handler : StmtId} {parts : TryStatement}
    (found : flow.body.get? stmt = some (.tryBlock parts)) (mem : part ∈ parts.protectedParts)
    (busy : flow.Busy part)
    (listed : (∃ clause, parts.handler = some clause ∧ clause.body = handler) ∨
      ∃ clause ∈ parts.catches, clause.body = handler) :
    flow.Live (.entry handler) := by
  have tree := accepted.wellFormed.toIsTree
  obtain ⟨node, live, inside, same⟩ := busy
  have role : (flow.body.role? part).any (·.isProtected) = true := by
    obtain ⟨role | ⟨place, role⟩, -⟩ := tree.role?_protectedPart found mem <;> rw [role] <;> rfl
  have entry := accepted.live_entry_of_protected live
    (Body.mem_children_of_get? found (List.mem_append_left _ mem)) role inside same
  refine @Live.edge _ _ _ ⟨.entry stmt, .entry handler, .handler⟩ entry found ?_
  rcases listed with ⟨clause, listed, rfl⟩ | ⟨clause, listed, rfl⟩
  · simp [Statement.edges, listed]
  · simp only [Statement.edges, List.mem_append, List.mem_map]
    exact .inr ⟨clause, listed, rfl⟩

/-- What ends a protected part ends its `try` once the handler that runs for it completes. -/
theorem ends_of_part {stmt part : StmtId} {parts : TryStatement}
    (found : flow.body.get? stmt = some (.tryBlock parts)) (mem : part ∈ parts.protectedParts)
    {how : Ending} (ends : flow.Ends part how)
    (handled : ∀ handler, parts.handlerFor? how = some handler → flow.Live (.ending handler)) :
    flow.Ends stmt how := by
  have tree := accepted.wellFormed.toIsTree
  by_cases normal : how = .normal
  · subst normal
    exact ends.completion found mem handled
  · refine accepted.ends_of_child (Body.mem_children_of_get? found (List.mem_append_left _ mem))
      (by rw [Body.isLambda, found]; rfl) normal ends fun handler finallyOf ↦ ?_
    rw [(tree.role?_protectedPart found mem).2] at finallyOf
    apply handled
    cases how with
    | normal => exact (normal rfl).elim
    | jump => exact finallyOf
    | exception => exact @mem_handler_of_handlerFor? parts .normal _ finallyOf

/-- A jump that finds its target arrives there. -/
theorem live_arrival {source scope : StmtId} {target : JumpTarget}
    (resolved : flow.target? source = some target) (holds : flow.body.Inside scope target.scope)
    (underway : flow.Underway source scope) : flow.Live target.arrival := by
  have tree := accepted.wellFormed.toIsTree
  obtain ⟨form, route, found, routed, rfl⟩ := accepted.target?_eq_some.mp resolved
  have listed : route ∈ flow.jumps :=
    accepted.mem_jumps.mpr ⟨form, routed.source ▸ found, routed.source ▸ routed⟩
  refine Live.jump listed (routed.source ▸ underway.live) fun handler required ↦ ?_
  rw [(accepted.checked_spec found routed).2.2] at required
  obtain ⟨part, apart, finallyOf⟩ := List.mem_filterMap.mp required
  have has := Body.has_iff_get?.mpr ⟨_, found⟩
  obtain ⟨around, outside⟩ := (accepted.mem_apart has
    ((accepted.resolved_of_routed found routed).scope_spec tree has).1).mp apart
  -- A part that the jump leaves lies inside of a scope that holds the target.
  rcases tree.inside_total underway.inside around with within | beyond
  · refine underway.handled within (fun same ↦ outside ?_) around finallyOf
    exact same ▸ holds
  · exact (outside (beyond.trans holds)).elim

/-- What a step of an execution comes to is expected. -/
theorem expects_step {execution execution' : Execution} (step : flow.Step execution execution')
    (expects : flow.Expects execution) : flow.Expects execution' := by
  obtain ⟨focus, frames⟩ := expects
  cases step with
  | start found mem => exact ⟨accepted.foresees_starting found focus mem, frames⟩
  | proceed found inner mem => exact ⟨foresees_continuing found inner focus mem, frames⟩
  | raise running => exact ⟨busy_of_foresees running focus, frames⟩
  | @pass stmt child shape how handlers found inner plain abrupt passes =>
    have mem := Body.mem_children_of_get? found inner
    refine ⟨accepted.ends_of_child mem ?_ abrupt focus fun handler finallyOf ↦ ?_, frames⟩
    · rw [Body.isLambda, found]
      cases shape <;> first | rfl | cases plain
    · -- Only a part of a `try` has a `finally`.
      obtain ⟨owner, parts, found', -, -, mem'⟩ := accepted.finallyOf?_spec finallyOf
      rw [accepted.wellFormed.toIsTree.parent_unique mem' mem, found] at found'
      cases found'
      cases plain
  | leave found mem passes unhandled =>
    exact ⟨accepted.ends_of_part found mem focus (by simp [unhandled]), frames⟩
  | @handle stmt part handler parts how handlers found mem passes handled =>
    obtain ⟨clause, listed, rfl⟩ := Option.map_eq_some_iff.mp (mem_handler_of_handlerFor? handled)
    refine ⟨accepted.live_entry_of_busy found mem (busy_of_foresees (.inr ⟨how, rfl⟩) focus)
      (.inl ⟨clause, listed, rfl⟩), fun frame member ↦ ?_⟩
    rcases List.mem_cons.mp member with rfl | member
    · refine ⟨Body.mem_children_of_get? found (by simp [Statement.children, listed]),
        by rw [Body.isLambda, found]; rfl, fun live ↦ ?_⟩
      refine accepted.ends_of_part found mem focus fun other handled' ↦ ?_
      rw [handled] at handled'
      cases handled'
      exact live
    · exact frames frame member
  | @caught stmt parts clause handlers found mem =>
    exact ⟨accepted.live_entry_of_busy found List.mem_cons_self focus
      (.inr ⟨clause, mem, rfl⟩), frames⟩
  | resume =>
    obtain ⟨-, -, ends⟩ := frames _ List.mem_cons_self
    exact ⟨ends focus, fun other member ↦ frames other (List.mem_cons_of_mem _ member)⟩
  | escape =>
    obtain ⟨child, open', -⟩ := frames _ List.mem_cons_self
    exact ⟨accepted.busy_of_child child open' focus,
      fun other member ↦ frames other (List.mem_cons_of_mem _ member)⟩
  | arrive resolved holds =>
    exact ⟨⟨_, resolved, accepted.live_arrival resolved holds focus⟩, frames⟩
  | @land source target handlers resolved =>
    obtain ⟨other, resolved', live⟩ := focus
    rw [resolved] at resolved'
    cases resolved'
    refine ⟨?_, frames⟩
    cases target with
    | returnFrom => exact trivial
    | _ => exact live
  | complete mem => exact ⟨trivial, frames⟩

/-- What an execution of a method comes to is expected. -/
theorem expects_run {root : StmtId} (member : root ∈ flow.body.methods) {execution : Execution}
    (run : Relation.ReflTransGen flow.Step ⟨.starts root, []⟩ execution) :
    flow.Expects execution := by
  induction run with
  | refl => exact ⟨.entry member, nofun⟩
  | tail _ step ih => exact accepted.expects_step step ih

end Accepted

/-- What can happen in an execution of a method is reachable: each statement that starts, each that
completes and the target of each jump that arrives. -/
theorem execution_reachable {draft : Draft} {body : Body} (made : draft.toBody = .ok body)
    (analysed : Flow.ofBody body = .ok flow) {root : StmtId} (member : root ∈ body.methods)
    {execution : Execution}
    (run : Relation.ReflTransGen flow.Step ⟨.starts root, []⟩ execution) :
    (∀ stmt, execution.focus = .starts stmt → flow.isReachable stmt = true) ∧
      (∀ stmt, execution.focus = .ends stmt .normal → flow.completes stmt = true) ∧
      ∀ source, execution.focus = .arrives source → flow.targetReachable source = true := by
  obtain rfl : flow.body = body := (ofBody_eq_ok analysed).1
  have accepted : flow.Accepted := ⟨Draft.wellFormed_of_toBody made, analysed⟩
  have foreseen := (accepted.expects_run member run).focus
  refine ⟨fun stmt now ↦ ?_, fun stmt now ↦ ?_, fun source now ↦ ?_⟩ <;> rw [now] at foreseen
  · exact (accepted.isReachable_iff (accepted.hasNode_of_live foreseen)).mpr foreseen
  · exact (accepted.completes_iff (accepted.hasNode_of_live foreseen)).mpr foreseen
  · obtain ⟨target, resolved, live⟩ := foreseen
    rw [targetReachable, resolved, Option.any_some]
    exact (accepted.contains_iff_live (accepted.hasNode_of_live live)).mpr live

/-- The `return` arrives behind the `finally`. -/
theorem execution_reachable_returning :
    ∃ body flow, Draft.returning.toBody = .ok body ∧ Flow.ofBody body = .ok flow ∧
      Relation.ReflTransGen flow.Step ⟨.starts ⟨2⟩, []⟩ ⟨.arrives ⟨0⟩, []⟩ ∧
        flow.targetReachable ⟨0⟩ = true := by
  have returns : (Draft.returning.toBody.bind Flow.ofBody).toOption.any (fun flow ↦
      ⟨2⟩ ∈ flow.body.methods ∧ flow.body.get? ⟨0⟩ = some (.jump .returnOut) ∧
        flow.body.get? ⟨1⟩ = some (.expression []) ∧
        flow.body.get? ⟨2⟩ = some (.tryFinally ⟨0⟩ ⟨1⟩) ∧
        flow.target? ⟨0⟩ = some (.returnFrom ⟨2⟩) ∧ flow.contains ⟨0⟩ ⟨2⟩ = false) = true := by
    decide +kernel
  obtain ⟨body, flow, made, analysed, holds⟩ := Draft.exists_flow returns
  obtain rfl : flow.body = body := (ofBody_eq_ok analysed).1
  have accepted : flow.Accepted := ⟨Draft.wellFormed_of_toBody made, analysed⟩
  obtain ⟨member, jump, handler, protects, resolved, outside⟩ := of_decide_eq_true holds
  have leaves : flow.Passes ⟨0⟩ (.jump ⟨0⟩) := by
    intro target resolved' inside
    rw [resolved] at resolved'
    cases resolved'
    have holds := (accepted.contains_iff (Body.has_iff_get?.mpr ⟨_, jump⟩)
      (Body.has_iff_get?.mpr ⟨_, protects⟩)).mpr inside
    exact Bool.false_ne_true (outside.symm.trans holds)
  have run : Relation.ReflTransGen flow.Step ⟨.starts ⟨2⟩, []⟩ ⟨.arrives ⟨0⟩, []⟩ := by
    refine .head (.start protects List.mem_cons_self) ?_
    refine .head (.start jump List.mem_cons_self) ?_
    refine .head (.handle protects List.mem_cons_self leaves rfl) ?_
    refine .head (.start handler List.mem_cons_self) ?_
    refine .head .resume ?_
    exact .single (.arrive resolved .refl)
  exact ⟨flow.body, flow, made, analysed, run,
    (execution_reachable made analysed member run).2.2 ⟨0⟩ rfl⟩

end Flow
end ProtectedRegions
