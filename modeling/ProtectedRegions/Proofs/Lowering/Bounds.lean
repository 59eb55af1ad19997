import ProtectedRegions.Proofs.Lowering.Standing

/-!
# Statements inside statements

Where a statement stands in the code of one around it. Each guard around a statement ends behind
the code of some scope, and something live never stands right at that end.
-/

namespace ProtectedRegions
namespace Flow

/-- The items of a part of a template are among those of the statement. -/
theorem placedItems_part {flow : Flow} {config : Config} (tree : flow.body.IsTree)
    {stmt : StmtId} {shape : Statement} (found : flow.body.get? stmt = some shape)
    {scopes scopes' : List StmtId} {place : Place} {part : CodePart}
    (mem : part ∈ (flow.template config scopes stmt shape).nested place)
    (nests : flow.Nests config scopes place part scopes') :
    (flow.emit config part.stmt scopes').placedItems part.place.offset <:+:
      (flow.emit config stmt scopes).placedItems place.offset := by
  rw [nests.code, emit_eq config tree found, Code.placedItems.eq_def (.statement stmt _)]
  exact (Code.placedItems_nested mem).trans
    ((List.prefix_append _ _).isInfix.trans (List.suffix_cons _ _).isInfix)

variable {flow : Flow} {config : Config} {root : StmtId} {start : Place}

namespace Laid

/-- The items of a statement are among those of each one around it. -/
theorem placedItems_inside (tree : flow.body.IsTree) (rooted : flow.body.has root = true)
    {outer inner : StmtId} {scopes : List StmtId} {place : Place}
    (laid : flow.Laid config root start inner scopes place)
    (inside : flow.body.Inside outer inner) (within : flow.body.Inside root outer) :
    ∃ scopes' place', flow.Laid config root start outer scopes' place' ∧
      (flow.emit config inner scopes).placedItems place.offset <:+:
        (flow.emit config outer scopes').placedItems place'.offset := by
  induction laid with
  | root =>
    obtain rfl := tree.inside_antisymm rooted inside within
    exact ⟨_, _, .root, List.infix_rfl⟩
  | @child stmt scopes scopes'' place shape part laid found mem nests ih =>
    have child := (mem_children_of_nested tree found mem).1
    rcases (tree.inside_child_iff child).mp inside with rfl | inside
    · exact ⟨_, _, .child laid found mem nests, List.infix_rfl⟩
    · obtain ⟨scopes', place', laid', items⟩ := ih inside
      exact ⟨_, _, laid', (placedItems_part tree found mem nests).trans items⟩

/-- The items of a statement are among those of the method. -/
theorem placedItems_infix (tree : flow.body.IsTree) {stmt : StmtId} {scopes : List StmtId}
    {place : Place} (laid : flow.Laid config root start stmt scopes place) :
    (flow.emit config stmt scopes).placedItems place.offset <:+:
      (flow.emit config root []).placedItems start.offset := by
  induction laid with
  | root => exact List.infix_rfl
  | child outer found mem nests ih => exact (placedItems_part tree found mem nests).trans ih

/-- The items of a statement stand in the code of the method. -/
theorem stands (tree : flow.body.IsTree) (first : start.offset = 0) {stmt : StmtId}
    {scopes : List StmtId} {place : Place}
    (laid : flow.Laid config root start stmt scopes place) {item : Item} {offset : Nat}
    (mem : (item, offset) ∈ (flow.emit config stmt scopes).placedItems place.offset) :
    flow.Stands config root item offset := by
  have mem := (laid.placedItems_infix tree).subset mem
  rw [first] at mem
  exact List.mem_append_left _ mem

/-- Where a statement starts. -/
theorem stands_entry (tree : flow.body.IsTree) (first : start.offset = 0) {stmt : StmtId}
    {scopes : List StmtId} {place : Place} {shape : Statement}
    (laid : flow.Laid config root start stmt scopes place)
    (found : flow.body.get? stmt = some shape) :
    flow.Stands config root (.node (.entry stmt)) place.offset := by
  apply laid.stands tree first
  rw [emit_eq config tree found]
  exact List.mem_cons_self

/-- Where a statement ends. -/
theorem stands_ending (tree : flow.body.IsTree) (first : start.offset = 0) {stmt : StmtId}
    {scopes : List StmtId} {place : Place} {shape : Statement}
    (laid : flow.Laid config root start stmt scopes place)
    (found : flow.body.get? stmt = some shape) :
    flow.Stands config root (.node (.ending stmt))
      (place.offset + (flow.template config scopes stmt shape).size) := by
  apply laid.stands tree first
  rw [emit_eq config tree found]
  exact List.mem_cons_of_mem _ (List.mem_append_right _ List.mem_cons_self)

end Laid

/-- Nodes in the middle of a list without duplicates come before those behind them. -/
private theorem before_of_split (front middle back : List FlowNode) {first second : FlowNode}
    (nodup : (flow.methodCode config root).nodes.Nodup)
    (split : (flow.methodCode config root).nodes = front ++ first :: (middle ++ second :: back)) :
    flow.Before config root first second := by
  rw [split] at nodup
  rw [Before, split]
  exact idxOf_lt_idxOf nodup

/-- What is inside a statement comes between its start and its end. -/
theorem before_of_inside (config : Config) (tree : flow.body.IsTree)
    (rooted : flow.body.has root = true) {outer inner : StmtId}
    (inside : flow.body.Inside outer inner) (has : flow.body.has inner = true)
    (within : flow.body.Inside root outer)
    (same : flow.body.methodOf inner = flow.body.methodOf root) {node : FlowNode}
    (ends : node = .entry inner ∨ node = .ending inner) :
    (node = .entry outer ∨ flow.Before config root (.entry outer) node) ∧
      (node = .ending outer ∨ flow.Before config root node (.ending outer)) := by
  obtain ⟨scopes, place, laid⟩ :=
    Laid.exists_place config ⟨0, 0, []⟩ tree (within.trans inside) has same
  obtain ⟨scopes', place', laid', items⟩ := laid.placedItems_inside tree rooted inside within
  obtain ⟨shape, found⟩ := Body.has_iff_get?.mp has
  obtain ⟨shape', found'⟩ := Body.has_iff_get?.mp (Body.has_of_inside inside has)
  have nodup := nodup_nodes config tree rooted
  have nodesOf {code code' : Code} {offset offset' : Nat}
      (items : code.placedItems offset <:+: code'.placedItems offset') :
      code.nodes <:+: code'.nodes := by
    rw [Code.nodes, Code.nodes, ← Code.map_fst_placedItems _ offset,
      ← Code.map_fst_placedItems _ offset']
    exact (items.map _).filterMap _
  obtain ⟨front, back, split⟩ := nodesOf (laid'.placedItems_infix tree)
  rw [← nodes_methodCode, emit_eq config tree found', Code.nodes_statement] at split
  -- The node is one of those between the start and the end of the outer statement.
  have mem : node ∈ (flow.emit config inner scopes).nodes := by
    rw [emit_eq config tree found, Code.nodes_statement]
    rcases ends with rfl | rfl <;> simp
  have mem := (nodesOf items).subset mem
  rw [emit_eq config tree found', Code.nodes_statement] at mem
  constructor
  · rcases List.mem_cons.mp mem with same | mem
    · exact .inl same
    · obtain ⟨left, right, halves⟩ := List.append_of_mem mem
      rw [halves] at split
      refine .inr (before_of_split front left (right ++ back) nodup ?_)
      rw [← split]
      simp
  · rw [← List.cons_append, List.mem_append, List.mem_singleton] at mem
    rcases mem with mem | same
    · obtain ⟨left, right, halves⟩ := List.append_of_mem mem
      rw [← List.cons_append, halves] at split
      refine .inr (before_of_split (front ++ left) right back nodup ?_)
      rw [← split]
      simp
    · exact .inl same

namespace Laid

/-- A statement is laid out in the same scopes wherever it is. -/
theorem scopes_unique (tree : flow.body.IsTree) (rooted : flow.body.has root = true)
    {stmt : StmtId} {scopes scopes' : List StmtId} {place place' : Place}
    (laid : flow.Laid config root start stmt scopes place)
    (laid' : flow.Laid config root start stmt scopes' place') : scopes = scopes' := by
  have notRoot {stmt : StmtId} (inside : flow.body.Inside root stmt)
      (mem : root ∈ flow.body.children stmt) : False := tree.not_inside_parent mem inside
  induction laid generalizing scopes' place' with
  | root =>
    cases laid' with
    | root => rfl
    | child laid' found' mem' nests' =>
      exact (notRoot (laid'.inside tree).1 (mem_children_of_nested tree found' mem').1).elim
  | @child outer scopes scopes'' place shape part laid found mem nests ih =>
    have child := (mem_children_of_nested tree found mem).1
    generalize same : part.stmt = stmt at laid' child
    cases laid' with
    | root => exact (notRoot (laid.inside tree).1 child).elim
    | @child outer' _ _ _ _ part' laid' found' mem' nests' =>
      have child' := (mem_children_of_nested tree found' mem').1
      obtain rfl := tree.parent_unique child child'
      have scopes := ih laid'
      cases bracketed : flow.isBracketed config part.stmt with
      | false =>
        rw [(nests.free bracketed).1, (nests'.free (same ▸ bracketed)).1, scopes]
      | true =>
        rw [(nests.bracketed bracketed).1, (nests'.bracketed (same ▸ bracketed)).1, scopes, same]

/-- What stands in the code of a statement stands in the code of one around it. -/
theorem bounds_of_inside (tree : flow.body.IsTree) (rooted : flow.body.has root = true)
    {outer inner : StmtId} {scopes scopes' : List StmtId} {place place' : Place}
    (laid : flow.Laid config root start inner scopes place)
    (laid' : flow.Laid config root start outer scopes' place')
    (inside : flow.body.Inside outer inner) {item : Item} {offset : Nat}
    (mem : (item, offset) ∈ (flow.emit config inner scopes).placedItems place.offset) :
    place'.offset ≤ offset ∧
      offset + item.width ≤ place'.offset + (flow.emit config outer scopes').size := by
  obtain ⟨scopes'', place'', laid'', items⟩ :=
    laid.placedItems_inside tree rooted inside (laid'.inside tree).1
  obtain rfl := laid''.place_unique tree rooted laid'
  obtain rfl := laid''.scopes_unique tree rooted laid'
  exact (Code.consecutive_placedItems _ _).bounds (items.subset mem)

end Laid

/-- The guard is the innermost one around a scope with a region of its own. It ends behind the
code of the scope, or behind its exit instruction. -/
structure Fence (flow : Flow) (config : Config) (root : StmtId) (start : Place) (part : StmtId)
    (guard : Guard) : Prop where
  bracketed : flow.isBracketed config part = true
  holds : flow.Holds guard part
  spans : ∃ scopes place shape, flow.Laid config root start part scopes place ∧
    flow.body.get? part = some shape ∧ place.guards.head? = some guard ∧
    guard.span.start = place.offset ∧ guard.span.stop =
      place.offset + (flow.template config scopes part shape).size + (flow.runsOn part).toNat

/-- Each guard around a statement spans the fence of a scope around the statement. -/
theorem Laid.exists_fence (tree : flow.body.IsTree) (rooted : flow.body.has root = true)
    {stmt : StmtId} {scopes : List StmtId} {place : Place}
    (laid : flow.Laid config root start stmt scopes place) {guard : Guard}
    (mem : guard ∈ place.guards) (inner : guard ∉ start.guards) :
    ∃ part fence, flow.body.Inside part stmt ∧ flow.Fence config root start part fence ∧
      fence ∈ place.guards ∧ fence.Within guard := by
  induction laid with
  | root => exact (inner mem).elim
  | @child stmt scopes scopes' place shape part laid found listed nests ih =>
    have child := (mem_children_of_nested tree found listed).1
    cases bracketed : flow.isBracketed config part.stmt with
    | false =>
      obtain ⟨-, guards, -⟩ := nests.free bracketed
      rw [guards] at mem ⊢
      obtain ⟨scope, fence, inside, fenced, mem, within⟩ := ih mem
      exact ⟨scope, fence, .child inside child, fenced, mem, within⟩
    | true =>
      obtain ⟨-, fence, extra, guards, -, first, last, holds⟩ := nests.bracketed bracketed
      have laid' := Laid.child laid found listed nests
      obtain ⟨shape', found'⟩ := Body.has_iff_get?.mp (tree.has_child child)
      have same : part.inner = flow.template config scopes' part.stmt shape' :=
        (Code.statement.inj (nests.code.symm.trans (emit_eq config tree found' scopes'))).2
      rw [guards, List.mem_append] at mem
      rcases mem with mem | mem
      · have fenced : flow.Fence config root start part.stmt fence := by
          refine ⟨bracketed, holds, scopes', part.place, shape', laid', found', ?_, first, ?_⟩
          · rw [guards]
            rfl
          · rw [last, same]
        have around : guard ∈ part.place.guards := by
          rw [guards]
          exact List.mem_append_left _ mem
        refine ⟨part.stmt, fence, .refl, fenced, ?_,
          Code.within_of_guards (laid'.entry_mem tree rooted) guards around inner⟩
        rw [guards]
        exact List.mem_cons_self
      · obtain ⟨scope, fence, inside, fenced, mem, within⟩ := ih mem
        refine ⟨scope, fence, .child inside child, fenced, ?_, within⟩
        rw [guards]
        exact List.mem_append_right _ mem

/-- A scope with a region of its own is protected. -/
theorem protected_of_bracketed {part : StmtId} (bracketed : flow.isBracketed config part = true) :
    (flow.body.role? part).any (·.isProtected) = true := by
  rw [isBracketed] at bracketed
  split at bracketed
  · next role _ =>
    rw [role]
    rfl
  · next role _ =>
    rw [role]
    exact bracketed
  · cases bracketed

namespace Laid

/-- Where the nodes of a statement stand. -/
theorem mem_placedItems (tree : flow.body.IsTree) (rooted : flow.body.has root = true)
    (first : start.offset = 0) {stmt : StmtId} {scopes : List StmtId} {place : Place}
    (laid : flow.Laid config root start stmt scopes place) {node : FlowNode}
    (ends : node = .entry stmt ∨ node = .ending stmt) {offset : Nat}
    (stands : flow.Stands config root (.node node) offset) :
    (.node node, offset) ∈ (flow.emit config stmt scopes).placedItems place.offset := by
  obtain ⟨shape, found⟩ := Body.has_iff_get?.mp (laid.has tree rooted)
  rw [emit_eq config tree found]
  rcases ends with rfl | rfl
  · rw [stands.unique tree rooted (laid.stands_entry tree first found)]
    exact List.mem_cons_self
  · rw [stands.unique tree rooted (laid.stands_ending tree first found)]
    exact List.mem_cons_of_mem _ (List.mem_append_right _ List.mem_cons_self)

/-- At the end of a guard around a statement stands the end of a sealed scope around it. -/
theorem exists_sealed (tree : flow.body.IsTree) (rooted : flow.body.has root = true)
    (first : start.offset = 0) {stmt : StmtId} {scopes : List StmtId} {place : Place}
    (laid : flow.Laid config root start stmt scopes place) {item : Item} {offset : Nat}
    (mem : (item, offset) ∈ (flow.emit config stmt scopes).placedItems place.offset)
    {guard : Guard} (around : guard ∈ place.guards) (inner : guard ∉ start.guards)
    (last : guard.span.stop ≤ offset) :
    ∃ part fence, flow.body.Inside part stmt ∧ flow.Fence config root start part fence ∧
      fence ∈ place.guards ∧ fence.Within guard ∧ fence.span.stop = offset ∧
      flow.IsSealed part ∧ flow.Stands config root (.node (.ending part)) offset := by
  obtain ⟨part, fence, inside, fenced, listed, within⟩ :=
    laid.exists_fence tree rooted around inner
  obtain ⟨scopes', place', shape, laid', found, -, -, stop⟩ := fenced.spans
  have bounds := laid.bounds_of_inside tree rooted laid' inside mem
  have size : (flow.emit config part scopes').size =
      (flow.template config scopes' part shape).size := by
    rw [emit_eq config tree found]
    rfl
  rw [size] at bounds
  have within' := within.2
  have closed : flow.runsOn part = false := by
    cases runs : flow.runsOn part with
    | false => rfl
    | true =>
      rw [runs] at stop
      simp only [Bool.toNat_true] at stop
      omega
  rw [closed] at stop
  simp only [Bool.toNat_false] at stop
  have same : offset = place'.offset + (flow.template config scopes' part shape).size := by omega
  refine ⟨part, fence, inside, fenced, listed, within, by omega,
    ⟨protected_of_bracketed fenced.bracketed, closed⟩, ?_⟩
  rw [same]
  exact laid'.stands_ending tree first found

end Laid

namespace Accepted

variable (accepted : flow.Accepted)

include accepted

/-- A sealed scope can start and its end is dead. -/
theorem live_of_sealed {scope : StmtId} (closed : flow.IsSealed scope) :
    flow.Live (.entry scope) ∧ ¬ flow.Live (.ending scope) := by
  have has : flow.body.has scope = true := by
    have tree := accepted.wellFormed.toIsTree
    have role := closed.1
    rw [Body.role?, Body.parentShape?] at role
    cases outer : flow.body.parent? scope with
    | none =>
      rw [outer] at role
      cases role
    | some parent => exact tree.has_child (tree.parent?_eq_some.mp outer)
  have never := closed.2
  rw [runsOn, Bool.or_eq_false_iff, Bool.not_eq_false'] at never
  refine ⟨(accepted.isReachable_iff has).mp never.2, fun live ↦ ?_⟩
  rw [(accepted.completes_iff has).mpr live] at never
  cases never.1

/-- The end of a sealed scope is dead. -/
theorem not_live_of_sealed {scope : StmtId} (closed : flow.IsSealed scope) :
    ¬ flow.Live (.ending scope) := (accepted.live_of_sealed closed).2

/-- What abuts before the end of a sealed scope is a node of the scope. -/
theorem inside_of_sealed {scope : StmtId} {node : FlowNode} (closed : flow.IsSealed scope)
    (abuts : flow.Abuts node (.ending scope)) : flow.body.Inside scope node.scope := by
  have tree := accepted.wellFormed.toIsTree
  obtain ⟨live, dead⟩ := accepted.live_of_sealed closed
  rcases abuts.enters tree (show flow.body.Inside scope (FlowNode.ending scope).scope from .refl)
    with inside | ⟨-, empty⟩
  · exact inside
  · exact (dead (accepted.live_of_abuts live empty)).elim

/-- A live node leads to each node behind it at its offset. -/
theorem abuts_of_walks {first second : FlowNode} (live : flow.Live first) {offset : Nat}
    (walks : flow.Walks config root offset first second) : flow.Abuts first second := by
  rcases walks with abuts | ⟨scope, closed, abuts, -⟩
  · exact abuts
  · exact (accepted.not_live_of_sealed closed (accepted.live_of_abuts live abuts)).elim

/-- Nothing live in a scope stands where the scope ends, if code does not go on behind it. -/
theorem not_live_beside_sealed (member : root ∈ flow.body.methods) {node : FlowNode}
    {scope stmt : StmtId} (ends : node = .entry stmt ∨ node = .ending stmt)
    (has : flow.body.has stmt = true) (within : flow.body.Inside root scope)
    (same : flow.body.methodOf stmt = flow.body.methodOf root)
    (inside : flow.body.Inside scope stmt) (closed : flow.IsSealed scope) {offset : Nat}
    (stands : flow.Stands config root (.node node) offset)
    (stands' : flow.Stands config root (.node (.ending scope)) offset) : ¬ flow.Live node := by
  intro live
  have tree := accepted.wellFormed.toIsTree
  have rooted := tree.has_of_mem_methods member
  have dead := accepted.not_live_of_sealed closed
  rcases accepted.walks member stands stands' with walks | walks
  · exact dead (accepted.live_of_abuts live (accepted.abuts_of_walks live walks))
  · have behind := (before_of_inside config tree rooted inside has within same ends).2
    rcases behind with rfl | behind
    · exact dead live
    · rcases walks with abuts | ⟨other, -, abuts, -, before⟩
      · rw [abuts.eq_of_protected tree closed.1] at live
        exact dead live
      · rw [abuts.eq_of_protected tree closed.1] at before
        exact Nat.lt_asymm behind before

/-- Nothing live stands at the end of a guard around it. -/
theorem not_live_at_end (member : root ∈ flow.body.methods) (first : start.offset = 0)
    {stmt : StmtId} {scopes : List StmtId} {place : Place}
    (laid : flow.Laid config root start stmt scopes place) {node : FlowNode}
    (ends : node = .entry stmt ∨ node = .ending stmt) {offset : Nat}
    (stands : flow.Stands config root (.node node) offset) {guard : Guard}
    (around : guard ∈ place.guards) (inner : guard ∉ start.guards)
    (last : guard.span.stop ≤ offset) : ¬ flow.Live node := by
  have tree := accepted.wellFormed.toIsTree
  have rooted := tree.has_of_mem_methods member
  have mem := laid.mem_placedItems tree rooted first ends stands
  obtain ⟨part, fence, inside, fenced, -, -, -, closed, stands'⟩ :=
    laid.exists_sealed tree rooted first mem around inner last
  obtain ⟨scopes', place', shape, laid', -⟩ := fenced.spans
  exact accepted.not_live_beside_sealed member ends (laid.has tree rooted)
    (laid'.inside tree).1 (laid.inside tree).2 inside closed stands stands'

end Accepted
end Flow
end ProtectedRegions
