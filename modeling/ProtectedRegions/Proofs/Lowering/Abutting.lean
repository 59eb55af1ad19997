import ProtectedRegions.Lowering.Emission
import ProtectedRegions.Proofs.Flow.Live

/-!
# Nodes without code between them

Some statements have no instruction of their own at their start or at their end: a block starts
where its first child does, and the body of a loop without a test starts where the loop does.
Two nodes abut if such steps lead from the first to the second, whatever the configuration.
-/

namespace ProtectedRegions

/-- The start of the first statement of a list, or what comes behind an empty list. -/
def firstNode (last : FlowNode) : List StmtId → FlowNode
  | [] => last
  | child :: _ => .entry child

/-- What comes behind a statement of a list. -/
def nodeBehind (stmt : StmtId) (last : FlowNode) : List StmtId → FlowNode
  | [] => last
  | child :: rest => if child = stmt then firstNode last rest else nodeBehind stmt last rest

theorem firstNode_cases (last : FlowNode) (children : List StmtId) :
    firstNode last children = last ∨ ∃ child ∈ children, firstNode last children = .entry child := by
  cases children with
  | nil => exact .inl rfl
  | cons child rest => exact .inr ⟨child, List.mem_cons_self, rfl⟩

theorem nodeBehind_cases (stmt : StmtId) (last : FlowNode) (children : List StmtId) :
    nodeBehind stmt last children = last ∨
      ∃ child ∈ children, nodeBehind stmt last children = .entry child := by
  induction children with
  | nil => exact .inl rfl
  | cons first rest ih =>
    rw [nodeBehind]
    split
    · refine (firstNode_cases last rest).imp_right fun ⟨other, mem, same⟩ ↦ ?_
      exact ⟨other, List.mem_cons_of_mem _ mem, same⟩
    · refine ih.imp_right fun ⟨other, mem, same⟩ ↦ ?_
      exact ⟨other, List.mem_cons_of_mem _ mem, same⟩

/-- A list is entered at its first statement. -/
theorem mem_sequence_first {source last : FlowNode} (children : List StmtId) :
    ⟨source, firstNode last children, .sequential⟩ ∈ Statement.sequence source last children := by
  cases children <;> exact List.mem_cons_self

/-- What comes behind a statement of a list is the target of its edge. -/
theorem mem_sequence_behind {source last : FlowNode} {children : List StmtId} {stmt : StmtId}
    (mem : stmt ∈ children) :
    ⟨.ending stmt, nodeBehind stmt last children, .sequential⟩ ∈
      Statement.sequence source last children := by
  induction children generalizing source with
  | nil => cases mem
  | cons child rest ih =>
    rw [nodeBehind, Statement.sequence]
    apply List.mem_cons_of_mem
    split
    · next same =>
      rw [same]
      exact mem_sequence_first rest
    · next different =>
      rcases List.mem_cons.mp mem with rfl | mem
      · exact absurd rfl different
      · exact ih mem

namespace Flow

/-- The node behind the start of a statement, if no instruction stands between the two. -/
def nodeInside? (stmt : StmtId) : Statement → Option FlowNode
  | .block children => some (firstNode (.ending stmt) children)
  | .labeled _ body | .synthetic _ body | .loop .always body => some (.entry body)
  | .tryBlock parts => some (.entry parts.body)
  | _ => none

/-- The node behind the end of a child, if no instruction stands between the two. Where code does
not go on behind the child no exit instruction follows it; what comes behind the end of a protected
scope is left open then. -/
def nodeAround? (flow : Flow) (stmt child : StmtId) : Statement → Option FlowNode
  | .block children => some (nodeBehind child (.ending stmt) children)
  | .labeled _ _ | .conditional _ _ none => some (.ending stmt)
  | .conditional _ thenBranch (some elseBranch) =>
    if child ≠ thenBranch then some (.ending stmt)
    else if flow.runsOn child then none else some (.entry elseBranch)
  | .loop _ _ => if flow.runsOn child then none else some (.ending stmt)
  | .switch sections _ =>
    if flow.runsOn child then none else some (nodeBehind child (.ending stmt) sections)
  | _ => none

/-- The node that follows a node with no instruction between the two. -/
def nextNode? (flow : Flow) : FlowNode → Option FlowNode
  | .entry stmt => (flow.body.get? stmt).bind (nodeInside? stmt)
  | .ending child =>
    (flow.body.parent? child).bind fun stmt ↦
      (flow.body.get? stmt).bind (flow.nodeAround? stmt child)
  | .exit _ => none

/-- No instruction stands between the first node and the second, which does not come before it. -/
inductive Abuts (flow : Flow) (first : FlowNode) : FlowNode → Prop
  | refl : Abuts flow first first
  | step {node next : FlowNode} (before : Abuts flow first node)
      (follows : flow.nextNode? node = some next) : Abuts flow first next

variable {flow : Flow}

theorem Abuts.trans {first second third : FlowNode} (h : flow.Abuts first second)
    (h' : flow.Abuts second third) : flow.Abuts first third := by
  induction h' with
  | refl => exact h
  | step _ follows ih => exact .step ih follows

/-- What abuts behind a node is the node itself, or abuts behind the node that follows it. -/
theorem Abuts.eq_or_next {first last : FlowNode} (abuts : flow.Abuts first last) :
    last = first ∨ ∃ next, flow.nextNode? first = some next ∧ flow.Abuts next last := by
  induction abuts with
  | refl => exact .inl rfl
  | @step node next before follows ih =>
    rcases ih with rfl | ⟨second, follows', rest⟩
    · exact .inr ⟨next, follows, .refl⟩
    · exact .inr ⟨second, follows', .step rest follows⟩

/-- From a node one node is reached that no other one follows. -/
theorem Abuts.final_unique {first last last' : FlowNode} (abuts : flow.Abuts first last)
    (final : flow.nextNode? last = none) (abuts' : flow.Abuts first last')
    (final' : flow.nextNode? last' = none) : last' = last := by
  have leads : flow.Abuts last last' := by
    clear final
    induction abuts with
    | refl => exact abuts'
    | step before follows ih =>
      rcases ih.eq_or_next with rfl | ⟨next, follows', rest⟩
      · rw [follows] at final'
        cases final'
      · rw [follows] at follows'
        cases follows'
        exact rest
  rcases leads.eq_or_next with same | ⟨next, follows, -⟩
  · exact same
  · rw [final] at follows
    cases follows

/-- What follows the start of a statement. -/
theorem nextNode?_entry {stmt : StmtId} {shape : Statement}
    (found : flow.body.get? stmt = some shape) :
    flow.nextNode? (.entry stmt) = nodeInside? stmt shape := by
  rw [nextNode?, found, Option.bind_some]

/-- What follows the end of a child. -/
theorem nextNode?_ending (tree : flow.body.IsTree) {stmt child : StmtId} {shape : Statement}
    (found : flow.body.get? stmt = some shape) (mem : child ∈ shape.children) :
    flow.nextNode? (.ending child) = flow.nodeAround? stmt child shape := by
  have outer := tree.parent?_eq_some.mpr (Body.mem_children_of_get? found mem)
  rw [nextNode?, outer, Option.bind_some, found, Option.bind_some]

/-- Nothing follows the end of a method without an instruction. -/
theorem nextNode?_root (tree : flow.body.IsTree) {root : StmtId} (mem : root ∈ flow.body.methods) :
    flow.nextNode? (.ending root) = none := by
  rcases Body.mem_methods.mp mem with rfl | ⟨stmt, found⟩
  · rw [nextNode?, tree.parent?_root]
    rfl
  · rw [nextNode?_ending tree found (List.mem_singleton_self _)]
    rfl

/-- Behind the start of a statement is its end, or the start of a child. -/
theorem nodeInside?_cases {stmt : StmtId} {shape : Statement} {next : FlowNode}
    (inside : nodeInside? stmt shape = some next) :
    next = .ending stmt ∨ ∃ child ∈ shape.children, next = .entry child := by
  cases shape with
  | block children =>
    cases inside
    exact firstNode_cases _ children
  | labeled | synthetic | tryBlock =>
    cases inside
    exact .inr ⟨_, List.mem_cons_self, rfl⟩
  | loop condition body =>
    cases condition <;> cases inside
    exact .inr ⟨_, List.mem_cons_self, rfl⟩
  | _ => cases inside

/-- Behind the end of a child, which is no protected scope, is the end of its parent, or the start
of another child. -/
theorem nodeAround?_cases {stmt child : StmtId} {shape : Statement} {next : FlowNode}
    (around : flow.nodeAround? stmt child shape = some next) :
    (shape.childRole? child).any (·.isProtected) = false ∧
      (next = .ending stmt ∨ ∃ other ∈ shape.children, next = .entry other) := by
  cases shape with
  | block children =>
    cases around
    exact ⟨rfl, nodeBehind_cases _ _ children⟩
  | labeled label body =>
    cases around
    exact ⟨rfl, .inl rfl⟩
  | conditional condition thenBranch elseBranch =>
    refine ⟨rfl, ?_⟩
    cases elseBranch with
    | none =>
      cases around
      exact .inl rfl
    | some elseBranch =>
      simp only [nodeAround?] at around
      split at around
      · cases around
        exact .inl rfl
      · split at around
        · cases around
        · cases around
          exact .inr ⟨elseBranch, List.mem_cons_of_mem _ (List.mem_singleton_self _), rfl⟩
  | loop condition body =>
    simp only [nodeAround?] at around
    split at around
    · cases around
    · cases around
      exact ⟨rfl, .inl rfl⟩
  | switch sections default =>
    simp only [nodeAround?] at around
    split at around
    · cases around
    · cases around
      exact ⟨rfl, nodeBehind_cases _ _ sections⟩
  | _ => cases around

/-- A step from node to node that goes on at a child or behind one goes out of a statement at its
end only, and into one at its start only. -/
theorem scope_of_nextNode? (tree : flow.body.IsTree) {node next : FlowNode}
    (follows : flow.nextNode? node = some next) :
    (∃ stmt, node = .entry stmt ∧
      (next = .ending stmt ∨ ∃ child ∈ flow.body.children stmt, next = .entry child)) ∨
    ∃ stmt, ∃ child ∈ flow.body.children stmt, node = .ending child ∧
      (flow.body.role? child).any (·.isProtected) = false ∧
      (next = .ending stmt ∨ ∃ other ∈ flow.body.children stmt, next = .entry other) := by
  cases node with
  | entry stmt =>
    obtain ⟨shape, found, inside⟩ := Option.bind_eq_some_iff.mp follows
    refine .inl ⟨stmt, rfl, ?_⟩
    rw [Body.children_of_get? found]
    exact nodeInside?_cases inside
  | ending child =>
    obtain ⟨stmt, outer, follows⟩ := Option.bind_eq_some_iff.mp follows
    obtain ⟨shape, found, around⟩ := Option.bind_eq_some_iff.mp follows
    have member := tree.parent?_eq_some.mp outer
    refine .inr ⟨stmt, child, member, rfl, ?_⟩
    rw [Body.children_of_get? found] at member ⊢
    rw [tree.role?_child member found]
    exact nodeAround?_cases around
  | exit root => cases follows

/-- What abuts behind a node of a protected scope is a node of the scope. -/
theorem Abuts.stays (tree : flow.body.IsTree) {first second : FlowNode} {scope : StmtId}
    (abuts : flow.Abuts first second)
    (role : (flow.body.role? scope).any (·.isProtected) = true)
    (inside : flow.body.Inside scope first.scope) : flow.body.Inside scope second.scope := by
  induction abuts with
  | refl => exact inside
  | step before follows ih =>
    rcases scope_of_nextNode? tree follows with ⟨stmt, rfl, rfl | ⟨child, mem, rfl⟩⟩ |
      ⟨stmt, child, mem, rfl, free, next⟩
    · exact ih
    · exact .child ih mem
    · rcases (tree.inside_child_iff mem).mp ih with rfl | outer
      · rw [role] at free
        cases free
      · rcases next with rfl | ⟨other, mem', rfl⟩
        · exact outer
        · exact .child outer mem'

/-- Nothing abuts behind the end of a protected scope. -/
theorem Abuts.eq_of_protected (tree : flow.body.IsTree) {scope : StmtId} {last : FlowNode}
    (abuts : flow.Abuts (.ending scope) last)
    (role : (flow.body.role? scope).any (·.isProtected) = true) : last = .ending scope := by
  induction abuts with
  | refl => rfl
  | step before follows ih =>
    rw [ih] at follows
    rcases scope_of_nextNode? tree follows with ⟨stmt, start, -⟩ | ⟨stmt, child, mem, start, free, -⟩
    · cases start
    · cases start
      rw [role] at free
      cases free

/-- What comes before a node of a statement is a node of the statement, or comes before its
start. -/
theorem Abuts.enters (tree : flow.body.IsTree) {first second : FlowNode} {scope : StmtId}
    (abuts : flow.Abuts first second) (inside : flow.body.Inside scope second.scope) :
    flow.body.Inside scope first.scope ∨
      flow.Abuts first (.entry scope) ∧ flow.Abuts (.entry scope) second := by
  induction abuts with
  | refl => exact .inl inside
  | @step node next before follows ih =>
    have extend (inside : flow.body.Inside scope node.scope) :
        flow.body.Inside scope first.scope ∨
          flow.Abuts first (.entry scope) ∧ flow.Abuts (.entry scope) next := by
      rcases ih inside with inner | ⟨enters, rest⟩
      · exact .inl inner
      · exact .inr ⟨enters, .step rest follows⟩
    rcases scope_of_nextNode? tree follows with ⟨stmt, rfl, rfl | ⟨child, mem, rfl⟩⟩ |
      ⟨stmt, child, mem, rfl, -, rfl | ⟨other, mem', rfl⟩⟩
    · exact extend inside
    · rcases (tree.inside_child_iff mem).mp inside with rfl | outer
      · exact .inr ⟨.step before follows, .refl⟩
      · exact extend outer
    · exact extend (.child inside mem)
    · rcases (tree.inside_child_iff mem').mp inside with rfl | outer
      · exact .inr ⟨.step before follows, .refl⟩
      · exact extend (.child outer mem)

namespace Accepted

variable (accepted : flow.Accepted)

include accepted

omit accepted in
/-- Control goes on to the node behind the start of a statement. -/
theorem edge_of_nodeInside? {stmt : StmtId} {shape : Statement} {next : FlowNode}
    (inside : nodeInside? stmt shape = some next) :
    ∃ edge ∈ shape.edges stmt, edge.source = .entry stmt ∧ edge.target = next ∧
      edge.kind ≠ .handler := by
  cases shape with
  | block children =>
    cases inside
    exact ⟨_, mem_sequence_first children, rfl, rfl, nofun⟩
  | labeled label body | synthetic kind body =>
    cases inside
    exact ⟨⟨.entry stmt, .entry body, .sequential⟩, List.mem_cons_self, rfl, rfl, nofun⟩
  | tryBlock parts =>
    cases inside
    exact ⟨⟨.entry stmt, .entry parts.body, .sequential⟩, List.mem_cons_self, rfl, rfl, nofun⟩
  | loop condition body =>
    cases condition with
    | always =>
      cases inside
      exact ⟨⟨.entry stmt, .entry body, .conditional⟩, List.mem_cons_self, rfl, rfl, nofun⟩
    | _ => cases inside
  | _ => cases inside

omit accepted in
/-- Control goes on to the node behind the end of a child, if code does. -/
theorem edge_of_nodeAround? {stmt child : StmtId} {shape : Statement} {next : FlowNode}
    (member : child ∈ shape.children) (runs : flow.runsOn child = true)
    (around : flow.nodeAround? stmt child shape = some next) :
    ∃ edge ∈ shape.edges stmt, edge.source = .ending child ∧ edge.target = next ∧
      edge.kind ≠ .handler := by
  cases shape with
  | block children =>
    cases around
    exact ⟨_, mem_sequence_behind member, rfl, rfl, nofun⟩
  | labeled label body =>
    cases around
    cases List.mem_singleton.mp member
    exact ⟨⟨.ending child, .ending stmt, .sequential⟩,
      List.mem_cons_of_mem _ List.mem_cons_self, rfl, rfl, nofun⟩
  | conditional condition thenBranch elseBranch =>
    cases elseBranch with
    | none =>
      cases around
      cases List.mem_singleton.mp member
      refine ⟨⟨.ending child, .ending stmt, .sequential⟩, ?_, rfl, rfl, nofun⟩
      simp [Statement.edges]
    | some elseBranch =>
      simp only [nodeAround?] at around
      split at around
      · next different =>
        cases around
        have same : child = elseBranch := by
          simpa [Statement.children, different] using member
        refine ⟨⟨.ending child, .ending stmt, .sequential⟩, ?_, rfl, rfl, nofun⟩
        simp [Statement.edges, same]
      · cases around
  | loop condition body =>
    simp only [nodeAround?, runs] at around
    cases around
  | switch sections default =>
    simp only [nodeAround?, runs] at around
    cases around
  | _ => cases around

/-- Control that is at a node goes on to the node that follows it, unless the node is the end of
a lambda body. -/
theorem edge_of_nextNode? {node next : FlowNode} (live : flow.Live node)
    (follows : flow.nextNode? node = some next) :
    ∃ edge ∈ flow.body.plainEdges, edge.source = node ∧ edge.target = next ∧
      edge.kind ≠ .handler := by
  have tree := accepted.wellFormed.toIsTree
  cases node with
  | entry stmt =>
    obtain ⟨shape, found, inside⟩ := Option.bind_eq_some_iff.mp follows
    obtain ⟨edge, mem, ends⟩ := edge_of_nodeInside? inside
    exact ⟨edge, mem_plainEdges found mem, ends⟩
  | ending child =>
    obtain ⟨stmt, outer, follows⟩ := Option.bind_eq_some_iff.mp follows
    obtain ⟨shape, found, around⟩ := Option.bind_eq_some_iff.mp follows
    have member := tree.parent?_eq_some.mp outer
    -- Where the end of a child is live, code goes on behind the child.
    have runs : flow.runsOn child = true := by
      rw [runsOn, (accepted.completes_iff (tree.has_child member)).mpr live]
      rfl
    rw [Body.children_of_get? found] at member
    obtain ⟨edge, mem, ends⟩ := edge_of_nodeAround? member runs around
    exact ⟨edge, mem_plainEdges found mem, ends⟩
  | exit root => cases follows

/-- What abuts behind a live node is live. -/
theorem live_of_abuts {first second : FlowNode} (live : flow.Live first)
    (abuts : flow.Abuts first second) : flow.Live second := by
  induction abuts with
  | refl => exact live
  | step before follows ih =>
    obtain ⟨edge, mem, rfl, rfl, -⟩ := accepted.edge_of_nextNode? ih follows
    exact .plain mem ih

end Accepted
end Flow
end ProtectedRegions
