import ProtectedRegions.Proofs.Lowering.Course
import ProtectedRegions.Proofs.Lowering.Leaves

/-!
# The handlers that a leave runs

A leave runs the handlers behind the guards around it that do not cover its target. These are the
handlers of the owners that it crosses, in order, and others only if its target is dead.
-/

namespace ProtectedRegions

/-- Where the handler behind a guard starts, if a leave to the target runs it. -/
def Guard.exit? (target : Nat) (guard : Guard) : Option Nat :=
  if guard.owner?.isSome && !guard.span.covers target then some guard.span.stop else none

/-- Only what is protected for an owner has a handler behind it. -/
theorem Guard.exit?_of_none {guard : Guard} {target : Nat} (none : guard.owner? = none) :
    guard.exit? target = .none := by
  rw [exit?, none]
  rfl

/-- What stands for a node among the items of a method: its return stands for its exit. -/
def FlowNode.item (root : StmtId) : FlowNode → Item
  | .exit _ => .instr root .ret
  | node => .node node

/-- A jump inside a method arrives at the start or at the end of a statement. -/
theorem JumpTarget.arrival_of_stays {target : JumpTarget} (root : StmtId)
    (stays : target.isReturn = false) :
    (target.arrival = .entry target.scope ∨ target.arrival = .ending target.scope) ∧
      target.arrival.item root = .node target.arrival := by
  cases target with
  | returnFrom => cases stays
  | breakOf => exact ⟨.inr rfl, rfl⟩
  | _ => exact ⟨.inl rfl, rfl⟩

namespace Flow

/-- The handler of an owner starts at the offset. -/
inductive Begins (flow : Flow) (config : Config) (root : StmtId) : StmtId → Nat → Prop
  | clause {owner handler : StmtId} {parts : TryStatement} {offset : Nat}
      (found : flow.body.get? owner = some (.tryBlock parts))
      (handled : parts.finallyBody? = some handler)
      (stands : flow.Stands config root (.node (.entry handler)) offset) :
      Begins flow config root owner offset
  | cleanup {owner body : StmtId} {kind : SyntheticKind} {offset : Nat}
      (found : flow.body.get? owner = some (.synthetic kind body))
      (stands : flow.Stands config root (.instr owner (.cleanup owner kind)) offset)
      (ends : flow.Stands config root (.instr owner .endFinally) (offset + 1)) :
      Begins flow config root owner offset

/-- A leave to where the goal stands runs the handlers of the owners, and then others only if the
goal is dead. -/
structure Leads (flow : Flow) (config : Config) (root : StmtId) (owners : List StmtId)
    (goal : FlowNode) (handlers : List Nat) (target : Nat) : Prop where
  stands : flow.Stands config root (goal.item root) target
  handlers : ∃ first extra, handlers = first ++ extra ∧
    List.Forall₂ (flow.Begins config root) owners first ∧ (extra ≠ [] → ¬ flow.Live goal)

variable {flow : Flow} {config : Config} {root : StmtId}

/-- The method protects nothing for an owner. -/
theorem owner?_methodPlace {guard : Guard}
    (mem : guard ∈ (flow.methodPlace config root).guards) : guard.owner? = none := by
  cases List.mem_singleton.mp mem
  exact if_neg fun form ↦ nomatch form.1

/-- What protects for an owner around an instruction is a guard of the method. -/
theorem listed_of_owned {source : StmtId} {operation : Instruction LabelKey} {at' : Place}
    (token : (.instr source operation, at') ∈
      (flow.methodCode config root).tokens (flow.methodPlace config root)) {guard : Guard}
    (around : guard ∈ at'.guards) {owner : StmtId} (owned : guard.owner? = some owner) :
    guard ∈ (flow.methodCode config root).guards (flow.methodPlace config root) := by
  refine (Code.guards_of_token token around).resolve_left fun outer ↦ ?_
  rw [owner?_methodPlace outer] at owned
  cases owned

/-- What stands in the template of a statement stands in the method. -/
theorem Laid.stands_template (tree : flow.body.IsTree) {stmt : StmtId} {scopes : List StmtId}
    {place : Place} {shape : Statement}
    (laid : flow.Laid config root (flow.methodPlace config root) stmt scopes place)
    (found : flow.body.get? stmt = some shape) {item : Item} {offset : Nat}
    (mem : (item, offset) ∈
      (flow.shapeCode config (flow.emit config) scopes stmt shape).placedItems place.offset) :
    flow.Stands config root item offset := by
  refine laid.stands tree rfl ?_
  rw [emit_eq config tree found]
  apply List.mem_cons_of_mem
  apply List.mem_append_left
  rwa [placedItems_template]

/-- The handler of a `finally` region starts right behind what it protects. -/
theorem OwnFinally.begins (tree : flow.body.IsTree) {stmt : StmtId} {scopes : List StmtId}
    {place : Place} {shape : Statement} {region : Region}
    (laid : flow.Laid config root (flow.methodPlace config root) stmt scopes place)
    (found : flow.body.get? stmt = some shape)
    (own : flow.OwnFinally config scopes stmt place shape region) {handler : Span}
    (found' : region.handler = some handler) :
    flow.Begins config root stmt handler.start := by
  cases own with
  | @clause parts body handler =>
    cases found'
    have has : flow.body.has body = true :=
      tree.has_child (Body.mem_children_of_get? found (by simp [Statement.children, handler]))
    refine .clause found (by rw [TryStatement.finallyBody?, handler]; rfl)
      (laid.stands_template tree found ?_)
    rw [shapeCode, tryCode, handler]
    apply List.mem_append_left
    apply List.mem_append_left
    apply List.mem_append_right
    apply List.mem_append_left
    exact entry_mem_emit config tree has _ _
  | @cleanup kind body guarded =>
    cases found'
    refine .cleanup found (laid.stands_template tree found ?_)
      (laid.stands_template tree found ?_)
    all_goals
      rw [shapeCode, syntheticCode, if_pos guarded]
      apply List.mem_append_left
      apply List.mem_append_right
    · exact List.mem_cons_self
    · exact List.mem_cons_of_mem _ List.mem_cons_self

namespace Accepted

variable (accepted : flow.Accepted) (member : root ∈ flow.body.methods)

include accepted member

/-- Behind what is protected for an owner starts the handler of the owner. -/
theorem begins_of_guard {guard : Guard} {owner : StmtId}
    (listed : guard ∈ (flow.methodCode config root).guards (flow.methodPlace config root))
    (owned : guard.owner? = some owner) : flow.Begins config root owner guard.span.stop := by
  have tree := accepted.wellFormed.toIsTree
  obtain ⟨body, kind, rfl⟩ := Guard.owner?_eq_some.mp owned
  obtain ⟨at', opens⟩ := Code.opens_of_guard listed
  obtain ⟨scopes, place, shape, laid, found, own⟩ := accepted.exists_finally member opens kind
  have spans := (Code.region_of_guard (accepted.methodFormed config member).formed listed).2
  rw [body] at spans
  obtain ⟨-, -, handler, found', start⟩ := spans
  rw [← start]
  exact own.begins tree laid found found'

/-- The handlers behind guards are those of the owners that are left. -/
theorem begins_left {between : List Guard} {target : Nat} {left : StmtId → Bool}
    (covers : ∀ guard ∈ between, ∀ owner, guard.owner? = some owner →
      guard ∈ (flow.methodCode config root).guards (flow.methodPlace config root) ∧
        (guard.span.covers target = false ↔ left owner = true)) :
    List.Forall₂ (flow.Begins config root) ((between.filterMap Guard.owner?).filter left)
      (between.filterMap (Guard.exit? target)) := by
  induction between with
  | nil => exact .nil
  | cons guard rest ih =>
    rw [List.forall_mem_cons] at covers
    have later := ih covers.2
    cases owned : guard.owner? with
    | none =>
      rw [List.filterMap_cons_none owned, List.filterMap_cons_none (Guard.exit?_of_none owned)]
      exact later
    | some owner =>
      obtain ⟨listed, same⟩ := covers.1 owner owned
      have begins := accepted.begins_of_guard member listed owned
      rw [List.filterMap_cons_some owned, List.filter_cons]
      cases covered : guard.span.covers target with
      | true =>
        rw [if_neg fun leaves ↦ by simp [same.mpr leaves] at covered,
          List.filterMap_cons_none (by rw [Guard.exit?, covered, Bool.not_true, Bool.and_false]; rfl)]
        exact later
      | false =>
        rw [if_pos (same.mp covered),
          List.filterMap_cons_some (by rw [Guard.exit?, owned, covered]; rfl)]
        exact .cons begins later

/-- What the handler of a region of the tree protects. -/
theorem protectedSpan?_eq {guard : Guard}
    (listed : guard ∈ (flow.methodCode config root).guards (flow.methodPlace config root))
    (body : guard.part = .body) :
    (flow.methodTree config root).protectedSpan? guard.region = some guard.span := by
  have formed := (accepted.methodFormed config member).formed
  obtain ⟨at', opens⟩ := Code.opens_of_guard listed
  have holds : guard.region.kind.hasHandler = true := by
    have spans := (Code.region_of_guard formed listed).2
    rw [body] at spans
    exact spans.1
  obtain ⟨child, _, guard', inner, -, head, listed', same, body', span⟩ :=
    Code.exists_child formed opens holds
  cases Code.body_unique formed listed' listed body' body same
  rw [RegionTree.protectedSpan?, head, Option.bind_some, region?_methodTree inner, span]
  rfl

/-- The handlers that a leave runs are those behind the guards around it that do not cover its
target. -/
theorem handlersLeft_eq {source : StmtId} {operation : Instruction LabelKey} {at' : Place}
    (token : (.instr source operation, at') ∈
      (flow.methodCode config root).tokens (flow.methodPlace config root)) (target : Nat) :
    (flow.methodTree config root).handlersLeft at'.offset target =
      at'.guards.filterMap (Guard.exit? target) := by
  have formed := (accepted.methodFormed config member).formed
  obtain ⟨method, kind, regions⟩ := @regions_methodTree flow config root
  have outer : (flow.methodPlace config root).guards.filterMap (Guard.exit? target) = [] :=
    List.filterMap_eq_nil_iff.mpr fun guard mem ↦ Guard.exit?_of_none (owner?_methodPlace mem)
  have around : ((flow.methodCode config root).guards (flow.methodPlace config root)).filter
      (·.span.covers at'.offset) = ((flow.methodCode config root).guards
        (flow.methodPlace config root)).filter (· ∈ at'.guards) := by
    refine List.filter_congr fun guard listed ↦ ?_
    rw [Bool.eq_iff_iff, Code.covers_iff_mem_guards fresh_methodPlace token listed,
      decide_eq_true_iff]
  rw [Code.guards_eq_filter fresh_methodPlace token, List.filterMap_append, outer,
    List.append_nil, List.filterMap_reverse, ← around, List.filterMap_filter,
    RegionTree.handlersLeft, RegionTree.ofKind, List.filterMap_filter, regions,
    List.filterMap_cons_none (by rw [kind]; rfl)]
  refine congrArg List.reverse (Code.filterMap_regions (fun guard listed body ↦ ?_)
    (fun guard listed other ↦ ?_) fun guard listed whole ↦ ?_)
  · have spans := (Code.region_of_guard formed listed).2
    rw [body] at spans
    obtain ⟨-, -, handler, found, start⟩ := spans
    rw [accepted.protectedSpan?_eq member listed body, Option.bind_some, found, Guard.exit?,
      Guard.owner?]
    by_cases isFinally : guard.region.kind = .finallyBlock
    · simp only [body, isFinally, and_self, if_true, Option.isSome_some, Bool.true_and, start,
        Option.map_some, beq_self_eq_true]
      cases guard.span.covers at'.offset <;> rfl
    · simp [body, isFinally]
  · rw [Guard.exit?_of_none (if_neg fun form ↦ other form.1), ite_self]
  · have plain := (Code.region_of_guard formed listed).2
    rw [whole] at plain
    refine if_neg fun isFinally ↦ ?_
    rw [beq_iff_eq.mp isFinally] at plain
    cases plain.1

/-- What a leave leads to, read off the guards between it and its target and those around both. -/
theorem leads_of_guards {source : StmtId} {operation : Instruction LabelKey} {at' : Place}
    (token : (.instr source operation, at') ∈
      (flow.methodCode config root).tokens (flow.methodPlace config root))
    {between outer : List Guard} (around : at'.guards = between ++ outer) {goal : FlowNode}
    {target : Nat} (stands : flow.Stands config root (goal.item root) target)
    (left : StmtId → Bool)
    (crossed : ∀ guard ∈ between, ∀ owner, guard.owner? = some owner →
      (guard.span.covers target = false ↔ left owner = true))
    (missed : ∀ guard ∈ outer, ∀ owner, guard.owner? = some owner →
      guard.span.covers target = false → ¬ flow.Live goal) :
    flow.Leads config root ((between.filterMap Guard.owner?).filter left) goal
      ((flow.methodTree config root).handlersLeft at'.offset target) target where
  stands := stands
  handlers := by
    refine ⟨_, outer.filterMap (Guard.exit? target), ?_, accepted.begins_left member
      fun guard mem owner owned ↦ ⟨listed_of_owned token
        (by rw [around]; exact List.mem_append_left _ mem) owned, crossed guard mem owner owned⟩, ?_⟩
    · rw [accepted.handlersLeft_eq member token, around, List.filterMap_append]
    · intro some
      obtain ⟨handler, listed⟩ := List.exists_mem_of_ne_nil _ some
      obtain ⟨guard, mem, exits⟩ := List.mem_filterMap.mp listed
      rw [Guard.exit?] at exits
      split at exits
      · next leaves =>
        rw [Bool.and_eq_true, Bool.not_eq_true', Option.isSome_iff_exists] at leaves
        obtain ⟨⟨owner, owned⟩, misses⟩ := leaves
        exact missed guard mem owner owned misses
      · cases exits

/-- A node in a guard that does not cover the node is dead. -/
theorem not_live_of_missed {stmt : StmtId} {scopes : List StmtId} {place at' : Place}
    (laid : flow.Laid config root (flow.methodPlace config root) stmt scopes place)
    {label : LabelKey} (mark : (.mark label, at') ∈
      (flow.methodCode config root).tokens (flow.methodPlace config root))
    (around : at'.guards = place.guards) {node : FlowNode}
    (ends : node = .entry stmt ∨ node = .ending stmt)
    (stands : flow.Stands config root (.node node) at'.offset) {guard : Guard} {owner : StmtId}
    (mem : guard ∈ place.guards) (owned : guard.owner? = some owner)
    (misses : guard.span.covers at'.offset = false) : ¬ flow.Live node := by
  have inner : guard ∉ (flow.methodPlace config root).guards := fun outer ↦ by
    rw [owner?_methodPlace outer] at owned
    cases owned
  have listed : guard ∈ (flow.methodCode config root).guards (flow.methodPlace config root) :=
    (Code.guards_of_token mark (around ▸ mem)).resolve_left inner
  refine accepted.not_live_at_end member rfl laid ends stands mem inner ?_
  rcases Code.guard_cases fresh_methodPlace mark listed with ⟨-, first, -⟩ | ⟨outside, -⟩
  · rw [← Bool.not_eq_true, Span.covers_iff] at misses
    omega
  · exact (outside (around ▸ mem)).elim

/-- The exit of a protected part leads to the end of its statement, by way of the handler of the
statement if that is a `finally`. -/
theorem leads_exit {stmt : StmtId} {scopes : List StmtId} {place at' : Place} {shape : Statement}
    (laid : flow.Laid config root (flow.methodPlace config root) stmt scopes place)
    (found : flow.body.get? stmt = some shape)
    (own : (.instr stmt (.leave (.endOf stmt)), at') ∈
      (flow.template config scopes stmt shape).own place)
    (labeled : .endOf stmt ∈ shape.labels stmt)
    (behind : Behind (flow.guardedBy config stmt shape) place at') :
    flow.Leads config root (flow.guardedBy config stmt shape) (.ending stmt)
      ((flow.methodTree config root).handlersLeft at'.offset
        ((flow.methodCode config root).offsetOf (.endOf stmt)))
      ((flow.methodCode config root).offsetOf (.endOf stmt)) := by
  have tree := accepted.wellFormed.toIsTree
  have token := tokens_methodCode (laid.own_mem tree found own)
  obtain ⟨between, around, owned⟩ := behind
  obtain ⟨placed, mark, offset, around', stands⟩ :=
    accepted.stands_label member rfl laid found labeled
  have last := stands.unique tree (tree.has_of_mem_methods member)
    (laid.stands_ending tree rfl found)
  -- The guards between are guards of the template, which stops at the end of the statement.
  have inside : ∀ guard ∈ between, guard.span.stop ≤ placed.offset := by
    obtain ⟨inner, around'', subset, -⟩ := Code.exists_guards (Code.own_subset own)
    rw [around] at around''
    rw [List.append_cancel_right around'', last]
    exact fun guard mem ↦ (Code.mem_guards_bounds (subset mem)).1.2
  have stands' : flow.Stands config root (FlowNode.item root (.ending stmt)) placed.offset := stands
  have leads := accepted.leads_of_guards member token around stands' (fun _ ↦ true)
    (fun guard mem owner owned ↦ ?_) fun guard mem owner owned misses ↦
      accepted.not_live_of_missed member laid mark around' (.inr rfl) stands mem owned misses
  · rw [owned, List.filter_true, offset] at leads
    exact leads
  · have := inside guard mem
    rw [← Bool.not_eq_true, Span.covers_iff]
    exact iff_of_true (by omega) rfl

omit member in
/-- A live jump quits the owners that it crosses. -/
theorem quits_of_crossing (config : Config) {stmt owner : StmtId} {target : JumpTarget}
    (resolved : flow.target? stmt = some target) (live : flow.Live (.entry stmt))
    (mem : owner ∈ flow.crossing config stmt target) : flow.Quits config stmt target owner := by
  have tree := accepted.wellFormed.toIsTree
  obtain ⟨part, guards, inside, outside⟩ := (accepted.mem_crossing resolved).mp mem
  refine ⟨live, resolved,
    ⟨part, guards, inside, (accepted.methodOf_of_left resolved inside outside).symm⟩, ?_⟩
  intro other guards' holds
  obtain ⟨child, role⟩ := accepted.mem_children_of_guardian? guards'
  obtain ⟨form, route, jump, routed, rfl⟩ := accepted.target?_eq_some.mp resolved
  by_cases within : flow.body.Inside other stmt
  · have same := tree.child_unique child (accepted.mem_children_of_guardian? guards).1 within inside
    exact outside (same ▸ holds)
  · -- A jump enters no protected scope.
    have free := (accepted.checked_spec jump routed).2.1 other holds within
    rw [role] at free
    cases free

omit accepted member in
/-- Nothing abuts the exit of a method. -/
theorem goal_returnFrom (stmt r : StmtId) : flow.goal config stmt (.returnFrom r) = .exit r := by
  rcases flow.goal_cases config stmt (.returnFrom r) with ⟨owner, -, abuts, -⟩ | ⟨-, same, -⟩
  · rcases abuts.eq_or_next with same | ⟨next, follows, -⟩
    · cases same
    · cases follows
  · exact same

/-- A return leaves the whole method. -/
theorem root_of_returnFrom {stmt r : StmtId} {scopes : List StmtId} {start place : Place}
    (laid : flow.Laid config root start stmt scopes place)
    (resolved : flow.target? stmt = some (.returnFrom r)) : r = root := by
  have tree := accepted.wellFormed.toIsTree
  obtain ⟨form, -, spec⟩ := accepted.resolved_of_target resolved
  cases spec
  rw [(laid.inside tree).2, tree.methodOf_of_mem_methods member]

/-- The goal of a jump that is laid out as a leave stands where the leave goes. Where a protected
block around the goal does not hold it the goal is dead. -/
theorem lands {stmt : StmtId} {scopes scopes' : List StmtId} {place place' at' : Place}
    (laid : flow.Laid config root (flow.methodPlace config root) stmt scopes place)
    {target : JumpTarget} (resolved : flow.target? stmt = some target)
    (live : flow.Live (.entry stmt)) {label : LabelKey}
    (by' : flow.JumpsBy scopes target (.leave label))
    (token : (.instr stmt (.leave label), at') ∈
      (flow.methodCode config root).tokens (flow.methodPlace config root))
    (laid' : flow.Laid config root (flow.methodPlace config root) target.scope scopes' place')
    (around : at'.guards = place.guards) (outer : place'.guards ⊆ at'.guards) :
    flow.Stands config root ((flow.goal config stmt target).item root)
        ((flow.methodCode config root).offsetOf label) ∧
      ∀ guard ∈ place'.guards, ∀ owner, guard.owner? = some owner →
        guard.span.covers ((flow.methodCode config root).offsetOf label) = false →
          ¬ flow.Live (flow.goal config stmt target) := by
  have tree := accepted.wellFormed.toIsTree
  have rooted := tree.has_of_mem_methods member
  cases by' with
  | leaveMethod within =>
    obtain ⟨exit, -, offset, -, stands, -⟩ := accepted.stands_exit member rfl token
    rw [goal_returnFrom, ← offset]
    refine ⟨stands, fun guard mem owner owned ↦ ?_⟩
    obtain rfl := accepted.root_of_returnFrom member laid resolved
    rw [laid'.place_unique tree rooted .root] at mem
    rw [owner?_methodPlace mem] at owned
    cases owned
  | leave stays left =>
    obtain ⟨placed, mark, offset, around', stands⟩ :=
      accepted.stands_arrival member rfl resolved stays laid'
    rw [← offset]
    rcases flow.goal_cases config stmt target with ⟨other, crossed, abuts, goal⟩ | ⟨-, goal, -⟩
    · rw [goal]
      refine ⟨accepted.stands_of_abuts member stands abuts, fun guard mem owner owned misses ↦ ?_⟩
      -- What protects the owner where the jump lands starts there, and the jump is behind that.
      have quits := accepted.quits_of_crossing config resolved live crossed
      obtain ⟨⟨inner, mem', owned'⟩, _, _, same, outside⟩ :=
        accepted.guards_of_quits member quits laid
      rw [same.place_unique tree rooted laid', ← around'] at outside
      rw [← around] at mem'
      have listed' := listed_of_owned token mem' owned'
      have covers := (accepted.covers_iff_of_quits member quits laid (.leave stays left) token
        listed' owned').mpr abuts
      have beside := Code.guard_cases fresh_methodPlace mark listed'
      have around'' := (Code.covers_iff_mem_guards fresh_methodPlace token listed').mpr mem'
      have listed := listed_of_owned token (outer mem) owned
      have holds := (Code.covers_iff_mem_guards fresh_methodPlace token listed).mpr (outer mem)
      have holds' := Code.guard_cases fresh_methodPlace mark listed
      rw [← around'] at mem
      rw [Span.covers_iff] at covers around'' holds
      rw [← Bool.not_eq_true, Span.covers_iff] at misses
      simp only [Token.width] at beside holds'
      rcases beside with ⟨inside, -⟩ | ⟨-, beside⟩
      · exact (outside inner inside owned').elim
      · rcases holds' with ⟨-, holds', -⟩ | ⟨apart, -⟩
        · omega
        · exact (apart mem).elim
    · obtain ⟨ends, item⟩ := JumpTarget.arrival_of_stays root stays
      rw [goal, item]
      exact ⟨stands, fun guard mem owner owned misses ↦
        accepted.not_live_of_missed member laid' mark around' ends stands mem owned misses⟩

/-- A leave that a live jump is laid out as leads to where the jump goes, by way of the handlers
that the jump runs. -/
theorem leads_jump {stmt : StmtId} {scopes : List StmtId} {place at' : Place}
    (laid : flow.Laid config root (flow.methodPlace config root) stmt scopes place)
    {target : JumpTarget} (resolved : flow.target? stmt = some target)
    (live : flow.Live (.entry stmt)) {label : LabelKey}
    (by' : flow.JumpsBy scopes target (.leave label))
    (token : (.instr stmt (.leave label), at') ∈
      (flow.methodCode config root).tokens (flow.methodPlace config root))
    (around : at'.guards = place.guards) :
    flow.Leads config root (flow.owners config stmt target) (flow.goal config stmt target)
      ((flow.methodTree config root).handlersLeft at'.offset
        ((flow.methodCode config root).offsetOf label))
      ((flow.methodCode config root).offsetOf label) := by
  classical
  have tree := accepted.wellFormed.toIsTree
  obtain ⟨scopes', place', between, laid', guards, crossed, -⟩ :=
    accepted.exists_crossed member laid resolved
  have around' : at'.guards = between ++ place'.guards := around.trans guards
  have misses : ∀ guard ∈ between, ∀ owner, guard.owner? = some owner →
      (guard.span.covers ((flow.methodCode config root).offsetOf label) = false ↔
        decide (¬ flow.Abuts target.arrival (.entry owner)) = true) := by
    intro guard mem owner owned
    have quits := accepted.quits_of_crossing config resolved live
      (crossed ▸ List.mem_filterMap.mpr ⟨guard, mem, owned⟩)
    have listed := listed_of_owned token
      (around' ▸ List.mem_append_left place'.guards mem) owned
    rw [decide_eq_true_iff, ← accepted.covers_iff_of_quits member quits laid by' token listed owned,
      Bool.not_eq_true]
  have owners : (between.filterMap Guard.owner?).filter (fun owner ↦
      decide (¬ flow.Abuts target.arrival (.entry owner))) = flow.owners config stmt target := by
    rw [crossed]
    rfl
  have outer : place'.guards ⊆ at'.guards := around' ▸ List.subset_append_right _ _
  obtain ⟨stands, missed⟩ := accepted.lands member laid resolved live by' token laid' around outer
  rw [← owners]
  exact accepted.leads_of_guards member token around' stands _ misses missed

end Accepted
end Flow
end ProtectedRegions
