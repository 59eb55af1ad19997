import ProtectedRegions.Proofs.Flow.Fixpoint
import ProtectedRegions.Proofs.Flow.Routes

/-!
# Live nodes

The nodes that control can reach, as the least set of nodes closed under the edges of the flow
graph. The marking walk works on the positions of nodes, which are different for different
nodes, so it marks exactly the live ones. A protected scope is entered through the statement it
belongs to: where something inside the scope is live, that statement can start.
-/

namespace ProtectedRegions

/-- The statement that a node belongs to; the root of the method for an exit. -/
def FlowNode.scope : FlowNode → StmtId
  | .entry stmt | .ending stmt => stmt
  | .exit root => root

/-- A jump arrives at a node of the scope it lands in. -/
theorem JumpTarget.scope_arrival (target : JumpTarget) : target.arrival.scope = target.scope := by
  cases target <;> rfl

/-- The nodes of the flow graph of a body. -/
def Body.HasNode (body : Body) : FlowNode → Prop
  | .entry stmt | .ending stmt => body.has stmt = true
  | .exit root => root ∈ body.methods

/-- The `finally` body of a `try` is a child of it. -/
theorem Body.mem_children_of_finallyBody? {body : Body} {stmt handler : StmtId}
    {parts : TryStatement} (found : body.get? stmt = some (.tryBlock parts))
    (h : parts.finallyBody? = some handler) : handler ∈ body.children stmt := by
  obtain ⟨clause, filtered, rfl⟩ := Option.map_eq_some_iff.mp h
  obtain ⟨has, -⟩ := Option.filter_eq_some_iff.mp filtered
  exact mem_children_of_get? found (by simp [Statement.children, has])

/-- The edges of a shape run between the node of the statement and those of its children. They
start children, and end or start the statement. -/
theorem Statement.edges_between {stmt : StmtId} {shape : Statement} {edge : FlowEdge}
    (mem : edge ∈ shape.edges stmt) :
    (edge.source = .entry stmt ∨ ∃ child ∈ shape.children, edge.source = .ending child) ∧
      ((edge.target = .entry stmt ∧ ∃ child ∈ shape.children, edge.source = .ending child) ∨
        edge.target = .ending stmt ∨ ∃ child ∈ shape.children, edge.target = .entry child) := by
  have sequence (children : List StmtId) : ∀ (source : FlowNode), edge ∈ sequence source
      (.ending stmt) children → (edge.source = source ∨
        ∃ child ∈ children, edge.source = .ending child) ∧
      (edge.target = .ending stmt ∨ ∃ child ∈ children, edge.target = .entry child) := by
    induction children with
    | nil =>
      intro source mem
      cases List.mem_singleton.mp mem
      exact ⟨.inl rfl, .inl rfl⟩
    | cons child rest ih =>
      intro source mem
      rcases List.mem_cons.mp mem with rfl | mem
      · exact ⟨.inl rfl, .inr ⟨child, List.mem_cons_self, rfl⟩⟩
      · obtain ⟨leaves, arrives⟩ := ih _ mem
        refine ⟨.inr ?_,
          arrives.imp_right fun ⟨child, mem, h⟩ ↦ ⟨child, List.mem_cons_of_mem _ mem, h⟩⟩
        rcases leaves with h | ⟨child, mem, h⟩
        · exact ⟨_, List.mem_cons_self, h⟩
        · exact ⟨child, List.mem_cons_of_mem _ mem, h⟩
  cases shape with
  | block | expression | labeled | synthetic | lambda =>
    have := sequence _ _ mem
    simp only [children] at *
    grind
  | conditional condition thenBranch elseBranch =>
    cases elseBranch <;> simp only [edges, children, List.mem_append] at mem ⊢ <;> grind
  | tryBlock parts =>
    simp only [edges, children, TryStatement.protectedParts, List.mem_append] at mem ⊢
    grind
  | loop condition body =>
    simp only [edges, children, List.mem_append] at mem ⊢
    grind
  | switch sections default =>
    simp only [edges, children, List.mem_append, List.mem_flatMap] at mem ⊢
    grind
  | jump | throwException | rethrow => cases mem

/-- A protected scope starts right after the statement it belongs to. -/
theorem Statement.source_of_protected {stmt child : StmtId} {shape : Statement} {edge : FlowEdge}
    (mem : edge ∈ shape.edges stmt) (target : edge.target = .entry child)
    (role : (shape.childRole? child).any (·.isProtected) = true) : edge.source = .entry stmt := by
  cases shape with
  | tryBlock parts =>
    simp only [edges, List.mem_append] at mem
    grind
  | synthetic kind body =>
    simp only [edges, sequence] at mem
    grind
  | _ => cases role

/-- The body of a lambda is no part of the flow of the statement. -/
theorem Statement.edges_lambda {stmt body : StmtId} {edge : FlowEdge}
    (mem : edge ∈ (lambda body).edges stmt) : edge = ⟨.entry stmt, .ending stmt, .sequential⟩ :=
  List.mem_singleton.mp mem

namespace Flow

/-- The nodes that control can reach. -/
inductive Live (flow : Flow) : FlowNode → Prop
  | entry {root : StmtId} (mem : root ∈ flow.body.methods) : Live flow (.entry root)
  | plain {edge : FlowEdge} (mem : edge ∈ flow.body.plainEdges) (source : Live flow edge.source) :
    Live flow edge.target
  | guarded {edge : GuardedEdge} (mem : edge ∈ flow.body.guardedEdges flow.jumps)
    (source : Live flow edge.source) (requires : ∀ node ∈ edge.requires, Live flow node) :
    Live flow edge.target

variable {flow : Flow}

/-- An edge of the shape of a statement holds from the start. -/
theorem mem_plainEdges {stmt : StmtId} {shape : Statement} {edge : FlowEdge}
    (found : flow.body.get? stmt = some shape) (mem : edge ∈ shape.edges stmt) :
    edge ∈ flow.body.plainEdges := by
  refine List.mem_append_left _ (List.mem_flatMap.mpr ⟨(stmt, shape), ?_, mem⟩)
  exact StatementTable.mem_entries.mpr found

/-- What the edges that hold from the start are. -/
theorem of_mem_plainEdges {edge : FlowEdge} (mem : edge ∈ flow.body.plainEdges) :
    (∃ stmt shape, flow.body.get? stmt = some shape ∧ edge ∈ shape.edges stmt) ∨
      ∃ root ∈ flow.body.methods, edge = ⟨.ending root, .exit root, .sequential⟩ := by
  rcases List.mem_append.mp mem with mem | mem
  · obtain ⟨⟨stmt, shape⟩, entry, mem⟩ := List.mem_flatMap.mp mem
    exact .inl ⟨stmt, shape, StatementTable.mem_entries.mp entry, mem⟩
  · obtain ⟨root, listed, rfl⟩ := List.mem_map.mp mem
    exact .inr ⟨root, listed, rfl⟩

/-- What the guarded edges are: the completions of the protected parts, and the jumps. -/
theorem of_mem_guardedEdges {edge : GuardedEdge}
    (mem : edge ∈ flow.body.guardedEdges flow.jumps) :
    (∃ stmt parts, flow.body.get? stmt = some (.tryBlock parts) ∧
        ∃ part ∈ parts.protectedParts, edge =
          { source := .ending part
            target := .ending stmt
            kind := .completion
            requires := (parts.finallyBody?.map FlowNode.ending).toList }) ∨
      ∃ route ∈ flow.jumps, edge = route.edge := by
  rcases List.mem_append.mp mem with mem | mem
  · obtain ⟨⟨stmt, shape⟩, entry, mem⟩ := List.mem_flatMap.mp mem
    cases shape with
    | tryBlock parts =>
      obtain ⟨part, listed, rfl⟩ := List.mem_map.mp mem
      exact .inl ⟨stmt, parts, StatementTable.mem_entries.mp entry, part, listed, rfl⟩
    | _ => cases mem
  · obtain ⟨route, listed, rfl⟩ := List.mem_map.mp mem
    exact .inr ⟨route, listed, rfl⟩

namespace Live

/-- Control passes along an edge of the shape of a statement. -/
theorem edge {stmt : StmtId} {shape : Statement} {edge : FlowEdge} (live : flow.Live edge.source)
    (found : flow.body.get? stmt = some shape) (mem : edge ∈ shape.edges stmt) :
    flow.Live edge.target :=
  .plain (mem_plainEdges found mem) live

/-- A method that completes returns. -/
theorem exit {root : StmtId} (mem : root ∈ flow.body.methods)
    (live : flow.Live (.ending root)) : flow.Live (.exit root) := by
  have listed : (⟨.ending root, .exit root, .sequential⟩ : FlowEdge) ∈ flow.body.plainEdges :=
    List.mem_append_right _ (List.mem_map_of_mem mem)
  exact .plain listed live

/-- A protected part completes its `try` if the `finally` completes. -/
theorem completion {stmt part : StmtId} {parts : TryStatement}
    (found : flow.body.get? stmt = some (.tryBlock parts)) (mem : part ∈ parts.protectedParts)
    (live : flow.Live (.ending part))
    (handler : ∀ body, parts.finallyBody? = some body → flow.Live (.ending body)) :
    flow.Live (.ending stmt) := by
  let edge : GuardedEdge :=
    { source := .ending part
      target := .ending stmt
      kind := .completion
      requires := (parts.finallyBody?.map FlowNode.ending).toList }
  have listed : edge ∈ flow.body.guardedEdges flow.jumps :=
    List.mem_append_left _ (List.mem_flatMap.mpr
      ⟨(stmt, .tryBlock parts), StatementTable.mem_entries.mpr found, List.mem_map_of_mem mem⟩)
  refine .guarded listed live fun node mem ↦ ?_
  cases finallyBody : parts.finallyBody? with
  | none => simp [edge, finallyBody] at mem
  | some body =>
    simp only [edge, finallyBody, Option.map_some, Option.toList_some, List.mem_singleton] at mem
    rw [mem]
    exact handler body finallyBody

/-- A jump arrives if the `finally` bodies it runs complete. -/
theorem jump {route : Route} (mem : route ∈ flow.jumps) (live : flow.Live (.entry route.source))
    (requires : ∀ body ∈ route.requires, flow.Live (.ending body)) :
    flow.Live route.target.arrival := by
  have listed : route.edge ∈ flow.body.guardedEdges flow.jumps :=
    List.mem_append_right _ (List.mem_map_of_mem mem)
  refine .guarded listed live fun node mem ↦ ?_
  obtain ⟨body, listed, rfl⟩ := List.mem_map.mp mem
  exact requires body listed

end Live

namespace Accepted

variable (accepted : flow.Accepted)

include accepted

/-- A jump arrives at a node of the body. -/
theorem hasNode_arrival {route : Route} (mem : route ∈ flow.jumps) :
    flow.body.HasNode route.target.arrival := by
  obtain ⟨form, found, routed⟩ := accepted.mem_jumps.mp mem
  have tree := accepted.wellFormed.toIsTree
  have has := Body.has_iff_get?.mpr ⟨_, found⟩
  have resolved := accepted.resolved_of_routed found routed
  have has' := (resolved.scope_spec tree has).1
  cases shape : route.target with
  | returnFrom root =>
    rw [shape] at resolved
    cases resolved
    exact (tree.methodOf_spec has).1
  | _ =>
    rw [shape] at has'
    exact has'

/-- What a `finally` body belongs to. -/
theorem finallyOf?_spec {part handler : StmtId} (h : flow.body.finallyOf? part = some handler) :
    ∃ stmt parts, flow.body.get? stmt = some (.tryBlock parts) ∧
      part ∈ parts.protectedParts ∧ parts.finallyBody? = some handler ∧
      part ∈ flow.body.children stmt := by
  have tree := accepted.wellFormed.toIsTree
  unfold Body.finallyOf? at h
  have within (parts : TryStatement)
      (outer : flow.body.parentShape? part = some (.tryBlock parts)) :
      ∃ stmt, flow.body.get? stmt = some (.tryBlock parts) ∧ part ∈ flow.body.children stmt := by
    obtain ⟨stmt, parent, found⟩ := Option.bind_eq_some_iff.mp outer
    exact ⟨stmt, found, tree.parent?_eq_some.mp parent⟩
  split at h
  · next parts role outer =>
    obtain ⟨stmt, found, mem⟩ := within parts outer
    refine ⟨stmt, parts, found, ?_, h, mem⟩
    rw [Body.role?, outer] at role
    simp only [TryStatement.role?] at role
    split at role
    · next same => exact same ▸ List.mem_cons_self
    · split at role
      · cases role
      · obtain ⟨clause, -, same⟩ := Option.map_eq_some_iff.mp role
        cases same
  · next clause parts role outer =>
    obtain ⟨stmt, found, mem⟩ := within parts outer
    refine ⟨stmt, parts, found, ?_, h, mem⟩
    rw [Body.role?, outer] at role
    simp only [TryStatement.role?] at role
    split at role
    · cases role
    · split at role
      · next place listed =>
        have := List.findIdx?_eq_some_iff_getElem.mp listed
        obtain ⟨lt, same, -⟩ := this
        refine List.mem_cons_of_mem _ (List.mem_map.mpr ⟨_, List.getElem_mem lt, ?_⟩)
        simpa using same
      · obtain ⟨clause, -, same⟩ := Option.map_eq_some_iff.mp role
        cases same
  · cases h

/-- Edges run between nodes of the body. -/
theorem hasNode_of_plain {edge : FlowEdge} (mem : edge ∈ flow.body.plainEdges) :
    flow.body.HasNode edge.source ∧ flow.body.HasNode edge.target := by
  have tree := accepted.wellFormed.toIsTree
  rcases of_mem_plainEdges mem with ⟨stmt, shape, found, mem⟩ | ⟨root, listed, rfl⟩
  · have has := Body.has_iff_get?.mpr ⟨_, found⟩
    have below {child : StmtId} (mem : child ∈ shape.children) : flow.body.has child = true :=
      tree.has_child (Body.mem_children_of_get? found mem)
    obtain ⟨leaves, arrives⟩ := Statement.edges_between mem
    constructor
    · rcases leaves with h | ⟨child, mem, h⟩
      · exact h ▸ has
      · exact h ▸ below mem
    · rcases arrives with ⟨h, -⟩ | h | ⟨child, mem, h⟩
      · exact h ▸ has
      · exact h ▸ has
      · exact h ▸ below mem
  · exact ⟨tree.has_of_mem_methods listed, listed⟩

/-- Guarded edges run between nodes of the body and require nodes of it. -/
theorem hasNode_of_guarded {edge : GuardedEdge} (mem : edge ∈ flow.body.guardedEdges flow.jumps) :
    flow.body.HasNode edge.source ∧ flow.body.HasNode edge.target ∧
      ∀ node ∈ edge.requires, flow.body.HasNode node := by
  have tree := accepted.wellFormed.toIsTree
  rcases of_mem_guardedEdges mem with
    ⟨stmt, parts, found, part, listed, rfl⟩ | ⟨route, listed, rfl⟩
  · have below {child : StmtId} (mem : child ∈ (Statement.tryBlock parts).children) :
        flow.body.has child = true := tree.has_child (Body.mem_children_of_get? found mem)
    refine ⟨below (List.mem_append_left _ listed), Body.has_iff_get?.mpr ⟨_, found⟩,
      fun node mem ↦ ?_⟩
    obtain ⟨handler, finallyBody, rfl⟩ := Option.map_eq_some_iff.mp (Option.mem_toList.mp mem)
    exact tree.has_child (Body.mem_children_of_finallyBody? found finallyBody)
  · obtain ⟨form, found, routed⟩ := accepted.mem_jumps.mp listed
    have has := Body.has_iff_get?.mpr ⟨_, found⟩
    refine ⟨has, accepted.hasNode_arrival listed, fun node mem ↦ ?_⟩
    obtain ⟨handler, required, rfl⟩ := List.mem_map.mp mem
    rw [(accepted.checked_spec found routed).2.2] at required
    obtain ⟨part, -, finallyOf⟩ := List.mem_filterMap.mp required
    obtain ⟨stmt, parts, found, -, finallyBody, -⟩ := accepted.finallyOf?_spec finallyOf
    exact tree.has_child (Body.mem_children_of_finallyBody? found finallyBody)

/-- Different nodes have different positions. -/
theorem position_injective {first second : FlowNode} (has : flow.body.HasNode first)
    (has' : flow.body.HasNode second)
    (same : flow.reach.index.position first = flow.reach.index.position second) :
    first = second := by
  obtain ⟨-, -, reach, -⟩ := ofBody_eq_ok accepted.analysed
  have index : flow.reach.index = ⟨flow.body.size, flow.body.methods⟩ := congrArg (·.index) reach
  rw [index] at same
  have lt {stmt : StmtId} (has : flow.body.has stmt = true) : stmt.index < flow.body.size :=
    of_decide_eq_true has
  cases first with
  | entry first | ending first =>
    have := lt has
    cases second with
    | entry second | ending second =>
      simp only [FlowIndex.position] at same
      cases first
      cases second
      grind
    | exit second =>
      simp only [FlowIndex.position] at same
      omega
  | exit first =>
    cases second with
    | entry second | ending second =>
      have := lt has'
      simp only [FlowIndex.position] at same
      omega
    | exit second =>
      have same : flow.body.methods.idxOf first = flow.body.methods.idxOf second := by
        simpa [FlowIndex.position] using same
      rw [List.idxOf_inj has] at same
      rw [same]

/-- A node of the body has a position of its own. -/
theorem position_lt {node : FlowNode} (has : flow.body.HasNode node) :
    flow.reach.index.position node < flow.reach.index.size := by
  obtain ⟨-, -, reach, -⟩ := ofBody_eq_ok accepted.analysed
  have index : flow.reach.index = ⟨flow.body.size, flow.body.methods⟩ := congrArg (·.index) reach
  rw [index]
  cases node with
  | entry stmt | ending stmt =>
    have : stmt.index < flow.body.size := of_decide_eq_true has
    simp only [FlowIndex.position, FlowIndex.size]
    omega
  | exit root =>
    have := List.idxOf_lt_length_of_mem has
    simp only [FlowIndex.position, FlowIndex.size]
    omega

/-- The marking walk is that of the body. -/
theorem reach_eq : flow.reach = .compute flow.reach.index flow.body.plainEdges
    (flow.body.guardedEdges flow.jumps) := by
  obtain ⟨-, -, reach, -⟩ := ofBody_eq_ok accepted.analysed
  exact reach.trans (by rw [reach]; rfl)

/-- The walk starts at the methods of the body. -/
theorem methods_index : flow.reach.index.methods = flow.body.methods := by
  obtain ⟨-, -, reach, -⟩ := ofBody_eq_ok accepted.analysed
  rw [reach]
  rfl

/-- Each node of the body has a position that the walk ranges over. -/
theorem covers : flow.reach.index.Covers flow.body.plainEdges
    (flow.body.guardedEdges flow.jumps) where
  entry mem := accepted.position_lt
    (accepted.wellFormed.toIsTree.has_of_mem_methods (accepted.methods_index ▸ mem))
  plain mem := accepted.position_lt (accepted.hasNode_of_plain mem).2
  guarded mem := accepted.position_lt (accepted.hasNode_of_guarded mem).2.1

/-- The walk marks exactly the live nodes. -/
theorem contains_iff_live {node : FlowNode} (has : flow.body.HasNode node) :
    flow.reach.contains node = true ↔ flow.Live node := by
  have methods := accepted.methods_index
  have tree := accepted.wellFormed.toIsTree
  rw [Reachability.contains, accepted.reach_eq, Reachability.contains_compute accepted.covers]
  constructor
  · intro reached
    suffices h : ∀ {position : Nat}, Reached flow.reach.index flow.body.plainEdges
        (flow.body.guardedEdges flow.jumps) position → ∀ {node : FlowNode},
          flow.body.HasNode node → flow.reach.index.position node = position →
            flow.Live node from h reached has rfl
    intro position reached
    induction reached with
    | entry mem =>
      intro node has same
      rw [methods] at mem
      have has' : flow.body.HasNode (.entry _) := tree.has_of_mem_methods mem
      rw [accepted.position_injective has has' same]
      exact .entry mem
    | plain mem source ih =>
      intro node has same
      have between := accepted.hasNode_of_plain mem
      rw [accepted.position_injective has between.2 same]
      exact .plain mem (ih between.1 rfl)
    | guarded mem source requires ihSource ihRequires =>
      intro node has same
      have between := accepted.hasNode_of_guarded mem
      rw [accepted.position_injective has between.2.1 same]
      exact .guarded mem (ihSource between.1 rfl)
        fun node mem ↦ ihRequires node mem (between.2.2 node mem) rfl
  · intro live
    induction live with
    | entry mem => exact .entry (methods ▸ mem)
    | plain mem _ ih => exact .plain mem (ih (accepted.hasNode_of_plain mem).1)
    | guarded mem _ _ ihSource ihRequires =>
      have between := accepted.hasNode_of_guarded mem
      exact .guarded mem (ihSource between.1)
        fun node mem ↦ ihRequires node mem (between.2.2 node mem)

/-- A statement can start if its entry is live. -/
theorem isReachable_iff {stmt : StmtId} (has : flow.body.has stmt = true) :
    flow.isReachable stmt = true ↔ flow.Live (.entry stmt) :=
  accepted.contains_iff_live has

/-- A statement can complete if its end is live. -/
theorem completes_iff {stmt : StmtId} (has : flow.body.has stmt = true) :
    flow.completes stmt = true ↔ flow.Live (.ending stmt) :=
  accepted.contains_iff_live has

section Protected

variable {stmt part : StmtId} (child : part ∈ flow.body.children stmt)
  (role : (flow.body.role? part).any (·.isProtected) = true)

include child role

omit child in
/-- No protected scope of a method lies around its root. -/
theorem not_around_root {root : StmtId} (mem : root ∈ flow.body.methods)
    (inside : flow.body.Inside part root)
    (same : flow.body.methodOf part = flow.body.methodOf root) : False := by
  have tree := accepted.wellFormed.toIsTree
  have has := tree.has_of_mem_methods mem
  have outer := (tree.methodOf_spec (Body.has_of_inside inside has)).2
  rw [same, tree.methodOf_of_mem_methods mem] at outer
  have own := tree.inside_antisymm has inside outer
  rw [own, tree.not_protected_of_mem_methods mem] at role
  cases role

/-- Among the edges that hold from the start, only one from the entry of its statement leads into a
protected scope from outside. -/
theorem enters_of_plain {edge : FlowEdge} (mem : edge ∈ flow.body.plainEdges)
    (inside : flow.body.Inside part edge.target.scope)
    (same : flow.body.methodOf part = flow.body.methodOf edge.target.scope) :
    edge.source = .entry stmt ∨ (flow.body.Inside part edge.source.scope ∧
      flow.body.methodOf part = flow.body.methodOf edge.source.scope) := by
  have tree := accepted.wellFormed.toIsTree
  rcases of_mem_plainEdges mem with ⟨outer, shape, found, listed⟩ | ⟨root, listed, rfl⟩
  · by_cases lambda : flow.body.isLambda outer = true
    · obtain ⟨root, shape⟩ := Body.isLambda_iff.mp lambda
      rw [found] at shape
      cases shape
      cases Statement.edges_lambda listed
      exact .inr ⟨inside, same⟩
    · have below {child : StmtId} (mem : child ∈ shape.children) :
          flow.body.methodOf child = flow.body.methodOf outer := by
        rw [tree.methodOf_child (Body.mem_children_of_get? found mem), if_neg lambda]
      obtain ⟨leaves, arrives⟩ := Statement.edges_between listed
      -- A scope around the statement of the edge is around both its ends.
      have around (inside : flow.body.Inside part outer)
          (same : flow.body.methodOf part = flow.body.methodOf outer) :
          flow.body.Inside part edge.source.scope ∧
            flow.body.methodOf part = flow.body.methodOf edge.source.scope := by
        rcases leaves with source | ⟨child, mem, source⟩
        · exact source ▸ ⟨inside, same⟩
        · exact source ▸ ⟨.child inside (Body.mem_children_of_get? found mem),
            same.trans (below mem).symm⟩
      rcases arrives with ⟨target, -⟩ | target | ⟨child', mem', target⟩ <;>
        rw [target] at inside same
      · exact .inr (around inside same)
      · exact .inr (around inside same)
      · have member := Body.mem_children_of_get? found mem'
        rcases (tree.inside_child_iff member).mp inside with rfl | inside
        · cases tree.parent_unique child member
          rw [tree.role?_child mem' found] at role
          exact .inl (Statement.source_of_protected listed target role)
        · exact .inr (around inside (same.trans (below mem')))
  · exact .inr ⟨inside, same⟩

omit child in
/-- No completion and no jump leads into a protected scope from outside. -/
theorem inside_of_guarded {edge : GuardedEdge} (mem : edge ∈ flow.body.guardedEdges flow.jumps)
    (inside : flow.body.Inside part edge.target.scope)
    (same : flow.body.methodOf part = flow.body.methodOf edge.target.scope) :
    flow.body.Inside part edge.source.scope ∧
      flow.body.methodOf part = flow.body.methodOf edge.source.scope := by
  have tree := accepted.wellFormed.toIsTree
  rcases of_mem_guardedEdges mem with
    ⟨outer, parts, found, inner, listed, rfl⟩ | ⟨route, listed, rfl⟩
  · have below := Body.mem_children_of_get? found (List.mem_append_left _ listed)
    refine ⟨.child inside below, same.trans ?_⟩
    have open' : flow.body.isLambda outer = false := by
      rw [Body.isLambda, found]
      rfl
    rw [FlowNode.scope, FlowNode.scope, tree.methodOf_child below, open']
    rfl
  · obtain ⟨form, found, routed⟩ := accepted.mem_jumps.mp listed
    have has := Body.has_iff_get?.mpr ⟨_, found⟩
    have resolved := accepted.resolved_of_routed found routed
    have arrives : route.edge.target.scope = route.target.scope := route.target.scope_arrival
    rw [arrives] at inside same
    refine ⟨?_, same.trans (resolved.scope_spec tree has).2⟩
    by_contra outside
    have := (accepted.checked_spec found routed).2.1 part inside outside
    rw [role] at this
    cases this

end Protected

/-- Where something in a protected scope is live, the statement of the scope can start. -/
theorem live_entry_of_protected {node : FlowNode} (live : flow.Live node) {stmt part : StmtId}
    (child : part ∈ flow.body.children stmt)
    (role : (flow.body.role? part).any (·.isProtected) = true)
    (inside : flow.body.Inside part node.scope)
    (same : flow.body.methodOf part = flow.body.methodOf node.scope) :
    flow.Live (.entry stmt) := by
  induction live with
  | entry mem => exact (accepted.not_around_root role mem inside same).elim
  | plain mem source ih =>
    rcases accepted.enters_of_plain child role mem inside same with entry | ⟨inside, same⟩
    · exact entry ▸ source
    · exact ih inside same
  | guarded mem source requires ih =>
    obtain ⟨inside, same⟩ := accepted.inside_of_guarded role mem inside same
    exact ih inside same

end Accepted
end Flow
end ProtectedRegions
