import ProtectedRegions.Proofs.Lowering.Arrivals

/-!
# What a jump crosses

A jump leaves the scopes up to the innermost statement that holds both the jump and its target.
The guards around the jump are those of the scopes that it leaves and those around the label it
names, since no jump enters a protected scope.
-/

namespace ProtectedRegions
namespace Flow

variable {flow : Flow} {config : Config} {root : StmtId} {start : Place}

/-- The innermost statement around two statements, and what lies between it and the first. -/
structure Meets (flow : Flow) (config : Config) (root : StmtId) (start : Place)
    (inner other : StmtId) (scopes : List StmtId) (place : Place) (meet : StmtId)
    (place' : Place) (between : List Guard) : Prop where
  laid : ∃ scopes', flow.Laid config root start meet scopes' place' ∧ scopes =
    (flow.body.apart flow.numbering inner other).filter (flow.isBracketed config) ++ scopes'
  inside : flow.body.Inside meet inner
  inside' : flow.body.Inside meet other
  least {outer : StmtId} : flow.body.Inside outer inner → flow.body.Inside outer other →
    flow.body.Inside outer meet
  guards : place.guards = between ++ place'.guards
  owners : between.filterMap Guard.owner? =
    (flow.body.apart flow.numbering inner other).filterMap (flow.guardian? config)
  free : (∀ scope ∈ flow.body.apart flow.numbering inner other,
    flow.isBracketed config scope = false) → between = []

/-- The place of a label that control can be transferred to: the exit of the method, or a place
in the code of a statement behind the guards of the statement. -/
structure Target (flow : Flow) (config : Config) (root : StmtId) (start : Place)
    (label : LabelKey) (place : Place) : Prop where
  token : (.mark label, place) ∈ (flow.methodCode config root).tokens start
  offset : place.offset = (flow.methodCode config root).offsetOf label
  owned : place.guards = start.guards ∨ ∃ stmt scopes place' item,
    flow.Laid config root start stmt scopes place' ∧ place'.guards = place.guards ∧
      (item, place.offset) ∈ (flow.emit config stmt scopes).placedItems place'.offset

namespace Accepted

variable (accepted : flow.Accepted)

include accepted

/-- A statement that holds the other one is apart from nothing. -/
theorem apart_of_inside {stmt other : StmtId} (has : flow.body.has stmt = true)
    (has' : flow.body.has other = true) (inside : flow.body.Inside stmt other) :
    flow.body.apart flow.numbering stmt other = [] := by
  have tree := accepted.wellFormed.toIsTree
  have holds : flow.numbering.contains stmt other = true :=
    (accepted.contains_iff has has').mpr inside
  obtain ⟨rest, lineage⟩ : ∃ rest, flow.body.lineage stmt = stmt :: rest := by
    rcases tree.exists_parent has with rfl | ⟨parent, mem⟩
    · exact ⟨[], tree.lineage_root⟩
    · exact ⟨_, tree.lineage_child mem⟩
  rw [Body.apart, lineage, List.takeWhile_cons, holds]
  rfl

/-- A statement that does not hold the other one is apart from it, and so is what its parent is
apart from. -/
theorem apart_child {parent stmt other : StmtId} (mem : stmt ∈ flow.body.children parent)
    (has : flow.body.has other = true) (outside : ¬ flow.body.Inside stmt other) :
    flow.body.apart flow.numbering stmt other =
      stmt :: flow.body.apart flow.numbering parent other := by
  have tree := accepted.wellFormed.toIsTree
  have holds : flow.numbering.contains stmt other = false := by
    rw [← Bool.not_eq_true]
    exact fun holds ↦ outside ((accepted.contains_iff (tree.has_child mem) has).mp holds)
  rw [Body.apart, tree.lineage_child mem, List.takeWhile_cons, holds]
  rfl

/-- Two statements of a method meet. -/
theorem exists_meets (rooted : flow.body.has root = true) {inner other : StmtId}
    {scopes : List StmtId} {place : Place}
    (laid : flow.Laid config root start inner scopes place)
    (has : flow.body.has other = true) (within : flow.body.Inside root other) :
    ∃ meet place' between,
      flow.Meets config root start inner other scopes place meet place' between := by
  have tree := accepted.wellFormed.toIsTree
  have here {stmt : StmtId} {scopes : List StmtId} {place : Place}
      (laid : flow.Laid config root start stmt scopes place)
      (inside : flow.body.Inside stmt other) :
      flow.Meets config root start stmt other scopes place stmt place [] := by
    have none := accepted.apart_of_inside (laid.has tree rooted) has inside
    refine ⟨⟨scopes, laid, ?_⟩, .refl, inside, fun outside _ ↦ outside, rfl, ?_, fun _ ↦ rfl⟩
    · rw [none]
      rfl
    · rw [none]
      rfl
  induction laid with
  | root => exact ⟨root, _, _, here .root within⟩
  | @child stmt scopes scopes' place shape part laid found listed nests ih =>
    have child := (mem_children_of_nested tree found listed).1
    by_cases inside : flow.body.Inside part.stmt other
    · exact ⟨_, _, _, here (.child laid found listed nests) inside⟩
    · obtain ⟨meet, place', between, meets⟩ := ih
      obtain ⟨outer, laid', same⟩ := meets.laid
      have apart := accepted.apart_child child has inside
      have least {around : StmtId} (outside : flow.body.Inside around part.stmt)
          (outside' : flow.body.Inside around other) : flow.body.Inside around meet := by
        rcases (tree.inside_child_iff child).mp outside with rfl | outside
        · exact (inside outside').elim
        · exact meets.least outside outside'
      cases bracketed : flow.isBracketed config part.stmt with
      | false =>
        obtain ⟨nested, guards, unguarded⟩ := nests.free bracketed
        refine ⟨meet, place', between, ⟨outer, laid', ?_⟩, .child meets.inside child,
          meets.inside', least, ?_, ?_, fun free ↦ ?_⟩
        · rw [nested, same, apart, List.filter_cons, bracketed]
          rfl
        · rw [guards, meets.guards]
        · rw [meets.owners, apart, List.filterMap_cons, unguarded]
        · rw [apart] at free
          exact meets.free fun scope mem ↦ free scope (List.mem_cons_of_mem _ mem)
      | true =>
        obtain ⟨nested, guard, extra, guards, owners, -⟩ := nests.bracketed bracketed
        refine ⟨meet, place', guard :: extra ++ between, ⟨outer, laid', ?_⟩,
          .child meets.inside child, meets.inside', least, ?_, ?_, fun free ↦ ?_⟩
        · rw [nested, same, apart, List.filter_cons, bracketed]
          rfl
        · rw [guards, meets.guards, List.append_assoc]
        · rw [List.filterMap_append, owners, meets.owners, apart, List.filterMap_cons]
          cases flow.guardian? config part.stmt <;> rfl
        · rw [apart] at free
          rw [free _ List.mem_cons_self] at bracketed
          cases bracketed

/-- The guards around a jump are those of the scopes that it leaves and those around its
target. -/
theorem exists_crossed (member : root ∈ flow.body.methods) {stmt : StmtId}
    {scopes : List StmtId} {place : Place}
    (laid : flow.Laid config root start stmt scopes place) {target : JumpTarget}
    (resolved : flow.target? stmt = some target) :
    ∃ scopes' place' between, flow.Laid config root start target.scope scopes' place' ∧
      place.guards = between ++ place'.guards ∧
      between.filterMap Guard.owner? =
        (flow.body.apart flow.numbering stmt target.scope).filterMap
          (flow.guardian? config) ∧
      ((∀ scope ∈ scopes, flow.contains scope target.scope = true) → between = []) := by
  obtain ⟨form, route, found, routed, rfl⟩ := accepted.target?_eq_some.mp resolved
  have tree := accepted.wellFormed.toIsTree
  have rooted := tree.has_of_mem_methods member
  have has := laid.has tree rooted
  have same := laid.inside tree
  have resolved := accepted.resolved_of_routed found routed
  obtain ⟨has', same'⟩ := resolved.scope_spec tree has
  have within : flow.body.Inside root route.target.scope := by
    have around := (tree.methodOf_spec has').2
    rwa [same', same.2, tree.methodOf_of_mem_methods member] at around
  obtain ⟨scopes', place', laid'⟩ :=
    Laid.exists_place config start tree within has' (same'.trans same.2)
  obtain ⟨meet, outer, between, meets⟩ := accepted.exists_meets rooted laid has' within
  obtain ⟨meet', outer', between', meets'⟩ := accepted.exists_meets rooted laid' has same.1
  obtain ⟨scopes'', laid'', split⟩ := meets.laid
  obtain ⟨_, laidMeet, _⟩ := meets'.laid
  -- Both meet in the same statement.
  have meetHas := laid''.has tree rooted
  obtain rfl : meet = meet' := by
    apply tree.inside_antisymm
    · exact laidMeet.has tree rooted
    · exact meets'.least meets.inside' meets.inside
    · exact meets.least meets'.inside' meets'.inside
  obtain rfl := laid''.place_unique tree rooted laidMeet
  -- No protected scope around the target is entered.
  have none : between' = [] := by
    apply meets'.free
    intro scope mem
    obtain ⟨inside, outside⟩ := (accepted.mem_apart has' has).mp mem
    have unprotected := (accepted.checked_spec found routed).2.1 scope inside outside
    by_contra bracketed
    rw [Bool.not_eq_false] at bracketed
    rw [protected_of_bracketed bracketed] at unprotected
    cases unprotected
  refine ⟨scopes', place', between, laid', ?_, meets.owners, fun holds ↦ ?_⟩
  · rw [meets.guards, meets'.guards, none, List.nil_append]
  · apply meets.free
    intro scope mem
    by_contra bracketed
    rw [Bool.not_eq_false] at bracketed
    have listed : scope ∈ scopes := by
      rw [split]
      exact List.mem_append_left _ (List.mem_filter.mpr ⟨mem, bracketed⟩)
    obtain ⟨inside, outside⟩ := (accepted.mem_apart has has').mp mem
    have holds := holds scope listed
    rw [accepted.contains_iff (Body.has_of_inside inside has) has'] at holds
    exact outside holds

/-- A token of a method belongs to a statement, unless it is one of the epilogue. -/
theorem origin_or_epilogue (member : root ∈ flow.body.methods) {source : StmtId}
    {operation : Instruction LabelKey} {at' : Place}
    (mem : (.instr source operation, at') ∈ (flow.methodCode config root).tokens start) :
    (∃ scopes place shape, flow.Laid config root start source scopes place ∧
      flow.body.get? source = some shape ∧
      (.instr source operation, at') ∈ (flow.template config scopes source shape).own place ∧
      flow.OwnInstr config scopes source place shape operation at') ∨
    source = root ∧ operation = .ret ∧
      at'.offset = start.offset + (flow.emit config root []).size := by
  have tree := accepted.wellFormed.toIsTree
  rcases List.mem_append.mp mem with mem | mem
  · left
    obtain ⟨stmt, scopes, place, shape, laid, found, own⟩ :=
      exists_own tree (tree.has_of_mem_methods member) mem (by simp)
    obtain ⟨rfl, fits⟩ := forall_own_template config tree found scopes place _ own
    exact ⟨scopes, place, shape, laid, found, own, fits⟩
  · right
    rcases mem_epilogue mem with same | same
    · cases same
    · cases same
      exact ⟨rfl, rfl, rfl⟩

/-- The exit of a method that is branched to stands behind all of its code. -/
theorem stands_exit (member : root ∈ flow.body.methods) (first : start.offset = 0)
    {source : StmtId} {at' : Place}
    (mem : (.instr source (.leave .methodExit), at') ∈
      (flow.methodCode config root).tokens start) :
    ∃ place, (.mark .methodExit, place) ∈ (flow.methodCode config root).tokens start ∧
      place.offset = (flow.methodCode config root).offsetOf .methodExit ∧
      place.guards = start.guards ∧
      flow.Stands config root (.instr root .ret) place.offset ∧
      place.offset = (flow.emit config root []).size := by
  have tree := accepted.wellFormed.toIsTree
  have listed : (source, .leave .methodExit) ∈ (flow.methodCode config root).instrs := by
    have found : (flow.methodCode config root).instrs[at'.offset]? =
        some (source, .leave .methodExit) := by
      apply Code.getElem?_instrs.mpr
      refine ⟨at', mem, ?_⟩
      rw [first, Nat.zero_add]
    exact List.mem_of_getElem? found
  have marked : LabelKey.methodExit ∈ (flow.methodCode config root).marks :=
    accepted.placed_methodCode config member _ listed _ List.mem_cons_self
  have epilogue : flow.epilogue root (flow.emit config root []).layout =
      .mark .methodExit ++ .instr root .ret := by
    rcases flow.epilogue_cases root (flow.emit config root []).layout with none | some
    · rw [methodCode, none] at marked
      have marked : LabelKey.methodExit ∈ (flow.emit config root []).marks := by
        rcases List.mem_append.mp marked with marked | marked
        · exact marked
        · cases marked
      have rooted := tree.has_of_mem_methods member
      obtain ⟨stmt, shape, -, -, owned⟩ :=
        (nodup_marks config accepted.wellFormed rooted []).2 _ marked
      exact (methodExit_not_mem owned).elim
    · exact some
  have token : (.mark .methodExit, start.after (flow.emit config root [])) ∈
      (flow.methodCode config root).tokens start := by
    rw [methodCode, epilogue]
    exact List.mem_append_right _ List.mem_cons_self
  have offset : (start.after (flow.emit config root [])).offset =
      (flow.emit config root []).size := by
    rw [Place.after, first, Nat.zero_add]
  refine ⟨_, token, (accepted.offsetOf_eq member first token).symm, rfl, ?_, offset⟩
  rw [offset, Stands, methodCode, epilogue]
  refine List.mem_append_right _ ?_
  rw [Nat.zero_add]
  exact List.mem_cons_self

/-- A transfer of control crosses the guards that are around the instruction and not around the
label. Only a leave crosses any. -/
theorem exists_target (member : root ∈ flow.body.methods) (first : start.offset = 0)
    {source : StmtId} {operation : Instruction LabelKey} {at' : Place}
    (mem : (.instr source operation, at') ∈ (flow.methodCode config root).tokens start)
    {label : LabelKey} (named : label ∈ operation.targets) :
    ∃ place between, flow.Target config root start label place ∧
      at'.guards = between ++ place.guards ∧ (operation.isLeave = false → between = []) := by
  have tree := accepted.wellFormed.toIsTree
  -- A label of a statement that is laid out is the target of what stands behind its guards.
  have placed {stmt : StmtId} {scopes : List StmtId} {place : Place} {shape : Statement}
      (laid : flow.Laid config root start stmt scopes place)
      (found : flow.body.get? stmt = some shape) (owned : label ∈ shape.labels stmt) :
      ∃ place', flow.Target config root start label place' ∧ place'.guards = place.guards := by
    obtain ⟨place', own, token, around⟩ := laid.mark_mem tree found owned
    have token := tokens_methodCode token
    have offset := accepted.offsetOf_eq member first token
    have item := stands_own_template config tree found scopes own
    exact ⟨place', ⟨token, offset.symm, .inr ⟨_, _, _, _, laid, around.symm, item⟩⟩, around⟩
  rcases accepted.origin_or_epilogue member mem with
    ⟨scopes, place, shape, laid, found, own, fits⟩ | ⟨rfl, rfl, -⟩
  · cases fits with
    | plain none =>
      rw [none] at named
      cases named
    | branch owned form stays around =>
      obtain ⟨place', target, same⟩ := placed laid found (owned label named)
      refine ⟨place', [], target, ?_, fun _ ↦ rfl⟩
      rw [same, around]
      rfl
    | leave owned =>
      cases List.mem_singleton.mp named
      obtain ⟨place', target, same⟩ := placed laid found owned
      obtain ⟨between, around⟩ := Code.guards_mem_tokens (Code.own_subset own)
      refine ⟨place', between, target, ?_, nofun⟩
      rw [same, around]
    | jump resolved by' around offset =>
      obtain ⟨scopes', place', between, laid', guards, -, none⟩ :=
        accepted.exists_crossed member laid resolved
      cases by' with
      | ret => cases named
      | leaveMethod =>
        cases List.mem_singleton.mp named
        obtain ⟨exit, token, offset, outside, -⟩ := accepted.stands_exit member first mem
        obtain ⟨between, around'⟩ := Code.guards_mem_tokens mem
        refine ⟨exit, between, ⟨token, offset, .inl outside⟩, ?_, nofun⟩
        rw [outside, around']
      | branch stays holds =>
        cases List.mem_singleton.mp named
        obtain ⟨-, -, shape, found, owned⟩ := accepted.labelKey_mem resolved stays
        obtain ⟨place'', target, same⟩ := placed laid' found owned
        refine ⟨place'', between, target, ?_, fun _ ↦ none holds⟩
        rw [same, around, guards]
      | leave stays =>
        cases List.mem_singleton.mp named
        obtain ⟨-, -, shape, found, owned⟩ := accepted.labelKey_mem resolved stays
        obtain ⟨place'', target, same⟩ := placed laid' found owned
        refine ⟨place'', between, target, ?_, nofun⟩
        rw [same, around, guards]
  · cases named

end Accepted
end Flow
end ProtectedRegions
