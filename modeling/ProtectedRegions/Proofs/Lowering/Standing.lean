import ProtectedRegions.Proofs.Lowering.Chain
import ProtectedRegions.Proofs.Lowering.Sound

/-!
# Where nodes and instructions stand

Each node of a method stands at one offset of its code, and each instruction of its own. Between
two nodes at one offset there are only nodes, so either they abut or the code between them ends
a protected scope that code does not go on behind.
-/

namespace ProtectedRegions

/-- Of two entries of a list without duplicates the one that is listed first has the smaller
index. -/
theorem idxOf_lt_idxOf {α : Type} [DecidableEq α] {before middle after : List α} {first second : α}
    (nodup : (before ++ first :: (middle ++ second :: after)).Nodup) :
    (before ++ first :: (middle ++ second :: after)).idxOf first <
      (before ++ first :: (middle ++ second :: after)).idxOf second := by
  obtain ⟨-, nodup, apart⟩ := List.nodup_append.mp nodup
  have mem : second ∈ middle ++ second :: after := List.mem_append_right _ List.mem_cons_self
  have outside : first ∉ before := fun mem ↦ apart _ mem _ List.mem_cons_self rfl
  have outside' : second ∉ before := fun listed ↦
    apart _ listed _ (List.mem_cons_of_mem _ mem) rfl
  have different : first ≠ second := by
    rintro rfl
    exact (List.nodup_cons.mp nodup).1 mem
  rw [List.idxOf_append_of_notMem outside, List.idxOf_append_of_notMem outside',
    List.idxOf_cons_self, List.idxOf_cons_ne _ different]
  omega

namespace Item

/-- The node of an item. -/
def node? : Item → Option FlowNode
  | .node at' => some at'
  | .instr .. => none

end Item

namespace Code

/-- The nodes of code in order. -/
def nodes (code : Code) : List FlowNode := code.items.filterMap Item.node?

theorem nodes_append (first second : Code) :
    (first ++ second).nodes = first.nodes ++ second.nodes :=
  List.filterMap_append

theorem nodes_statement (stmt : StmtId) (inner : Code) :
    (statement stmt inner).nodes = .entry stmt :: (inner.nodes ++ [.ending stmt]) := by
  rw [nodes, items, List.filterMap_cons, List.filterMap_append]
  rfl

/-- The nodes are those of the statements. -/
theorem mem_nodes {code : Code} {node : FlowNode} :
    node ∈ code.nodes ↔ ∃ stmt ∈ code.statements, node = .entry stmt ∨ node = .ending stmt := by
  induction code with
  | nothing | note | mark | instr => simp [nodes, items, statements, Item.node?]
  | append first second ihFirst ihSecond | handled head first second ihFirst ihSecond =>
    show node ∈ (first ++ second).nodes ↔ _
    rw [nodes_append, List.mem_append, ihFirst, ihSecond]
    simp only [statements, List.mem_append]
    constructor
    · rintro (⟨stmt, mem, h⟩ | ⟨stmt, mem, h⟩)
      · exact ⟨stmt, .inl mem, h⟩
      · exact ⟨stmt, .inr mem, h⟩
    · rintro ⟨stmt, mem | mem, h⟩
      · exact .inl ⟨stmt, mem, h⟩
      · exact .inr ⟨stmt, mem, h⟩
  | statement stmt inner ih =>
    rw [nodes_statement, List.mem_cons, List.mem_append, List.mem_singleton, ih]
    simp only [statements, List.mem_cons, exists_eq_or_imp]
    rw [or_assoc, @or_comm (node = .ending stmt)]
  | region head inner ih => exact ih

/-- Where each statement occurs once, so does each node. -/
theorem nodup_nodes {code : Code} (nodup : code.statements.Nodup) : code.nodes.Nodup := by
  induction code with
  | nothing | note | mark | instr => exact List.nodup_nil
  | append first second ihFirst ihSecond | handled head first second ihFirst ihSecond =>
    show (first ++ second).nodes.Nodup
    obtain ⟨left, right, apart⟩ := List.nodup_append.mp nodup
    rw [nodes_append, List.nodup_append]
    refine ⟨ihFirst left, ihSecond right, fun node mem node' mem' same ↦ ?_⟩
    subst same
    obtain ⟨stmt, listed, h⟩ := mem_nodes.mp mem
    obtain ⟨stmt', listed', h'⟩ := mem_nodes.mp mem'
    have same : stmt = stmt' := by
      rcases h with rfl | rfl <;> rcases h' with h' | h' <;> cases h' <;> rfl
    exact apart stmt listed stmt' listed' same
  | statement stmt inner ih =>
    obtain ⟨outside, nodup⟩ := List.nodup_cons.mp nodup
    have other {node : FlowNode} (mem : node ∈ inner.nodes) :
        node ≠ .entry stmt ∧ node ≠ .ending stmt := by
      obtain ⟨stmt', listed, h⟩ := mem_nodes.mp mem
      constructor
      all_goals
        rintro rfl
        rcases h with h | h <;> cases h
        exact outside listed
    rw [nodes_statement, List.nodup_cons, List.nodup_append]
    refine ⟨?_, ih nodup, List.nodup_singleton _, fun node mem node' mem' same ↦ ?_⟩
    · intro mem
      rcases List.mem_append.mp mem with mem | mem
      · exact (other mem).1 rfl
      · cases List.mem_singleton.mp mem
    · exact (other mem).2 (same.trans (List.mem_singleton.mp mem'))
  | region head inner ih => exact ih nodup

/-- The items of a statement directly inside stand among those of the code. -/
theorem placedItems_nested {code : Code} {place : Place} {part : CodePart}
    (mem : part ∈ code.nested place) :
    (statement part.stmt part.inner).placedItems part.place.offset <:+:
      code.placedItems place.offset := by
  induction code generalizing place with
  | nothing | note | mark | instr => cases mem
  | append first second ihFirst ihSecond =>
    rcases List.mem_append.mp mem with mem | mem
    · exact (ihFirst mem).trans (List.prefix_append _ _).isInfix
    · exact (ihSecond mem).trans (List.suffix_append _ _).isInfix
  | statement stmt inner ih =>
    cases List.mem_singleton.mp mem
    exact List.infix_rfl
  | region head inner ih =>
    have inside := ih mem
    exact inside
  | handled head inner handler ihInner ihHandler =>
    rcases List.mem_append.mp mem with mem | mem
    · have inside := ihInner mem
      exact inside.trans (List.prefix_append _ _).isInfix
    · have inside := ihHandler mem
      exact inside.trans (List.suffix_append _ _).isInfix

end Code

namespace Flow

/-- The item stands at the offset in the code of the method. -/
def Stands (flow : Flow) (config : Config) (root : StmtId) (item : Item) (offset : Nat) : Prop :=
  (item, offset) ∈ (flow.methodCode config root).placedItems 0

/-- The first node stands before the second one in the code of the method. -/
def Before (flow : Flow) (config : Config) (root : StmtId) (first second : FlowNode) : Prop :=
  (flow.methodCode config root).nodes.idxOf first <
    (flow.methodCode config root).nodes.idxOf second

variable {flow : Flow} {config : Config} {root : StmtId}

/-- The epilogue holds no nodes. -/
theorem nodes_methodCode :
    (flow.methodCode config root).nodes = (flow.emit config root []).nodes := by
  rw [methodCode, Code.nodes_append]
  rcases flow.epilogue_cases root (flow.emit config root []).layout with none | some
  · rw [none]
    exact List.append_nil _
  · rw [some]
    exact List.append_nil _

/-- A node stands in the code of a method once. -/
theorem nodup_nodes (config : Config) (tree : flow.body.IsTree)
    (rooted : flow.body.has root = true) : (flow.methodCode config root).nodes.Nodup := by
  rw [nodes_methodCode]
  exact Code.nodup_nodes (nodup_statements config tree rooted []).1

/-- What stands at an offset is an item. -/
theorem Stands.mem_items {item : Item} {offset : Nat}
    (stands : flow.Stands config root item offset) :
    item ∈ (flow.methodCode config root).items := by
  rw [← Code.map_fst_placedItems _ 0]
  exact List.mem_map_of_mem stands

/-- The nodes that stand in the code of a method are the starts and ends of its statements. -/
theorem Stands.mem_statements {node : FlowNode} {offset : Nat}
    (stands : flow.Stands config root (.node node) offset) :
    node.scope ∈ (flow.emit config root []).statements := by
  have mem : node ∈ (flow.methodCode config root).nodes :=
    List.mem_filterMap.mpr ⟨_, stands.mem_items, rfl⟩
  rw [nodes_methodCode] at mem
  obtain ⟨stmt, listed, rfl | rfl⟩ := Code.mem_nodes.mp mem <;> exact listed

/-- A node stands at one offset. -/
theorem Stands.unique (tree : flow.body.IsTree) (rooted : flow.body.has root = true)
    {node : FlowNode} {offset offset' : Nat} (stands : flow.Stands config root (.node node) offset)
    (stands' : flow.Stands config root (.node node) offset') : offset = offset' := by
  have nodup := nodup_nodes config tree rooted
  rw [Code.nodes, ← Code.map_fst_placedItems _ 0, List.filterMap_map] at nodup
  have := eq_of_nodup_filterMap nodup stands stands' rfl rfl
  cases this
  rfl

/-- The code of a method keeps the rule from each item to the next. -/
theorem Accepted.chain_methodCode (accepted : flow.Accepted) (config : Config)
    (member : root ∈ flow.body.methods) :
    (flow.methodCode config root).items.IsChain (flow.Link config) ∧
      (flow.emit config root []).items.getLast? = some (.node (.ending root)) ∧
      (flow.methodCode config root).items.head? = some (.node (.entry root)) := by
  have rooted := accepted.wellFormed.toIsTree.has_of_mem_methods member
  have segment := accepted.segment_emit config rooted []
  rw [methodCode]
  rcases flow.epilogue_cases root (flow.emit config root []).layout with none | some
  · rw [none, Code.items_append, Code.items, List.append_nil]
    exact ⟨segment.chain, segment.last, segment.first⟩
  · rw [some]
    have whole := segment.concat (.ret member)
    exact ⟨whole.chain, segment.last, whole.first⟩

/-- Where code goes on behind the root of a method there is an epilogue. -/
theorem epilogue_of_runsOn (layout : Layout) (runs : flow.runsOn root = true) :
    flow.epilogue root layout = .mark .methodExit ++ .instr root .ret := by
  rw [epilogue, runs, Bool.true_or, Bool.true_or, Code.onlyIf_true]

namespace Accepted

variable (accepted : flow.Accepted) (member : root ∈ flow.body.methods)

include accepted member

/-- Behind an entry of the placed items comes the one that stands next, unless it is the last of the
method. -/
theorem follows_entry {item : Item} {offset : Nat} {before after : List (Item × Nat)}
    (split : (flow.methodCode config root).placedItems 0 = before ++ (item, offset) :: after) :
    (∃ next rest, after = (next, offset + item.width) :: rest ∧ flow.Link config item next) ∨
      after = [] ∧
        (item = .instr root .ret ∨ item = .node (.ending root) ∧ flow.runsOn root = false) := by
  obtain ⟨chain, last, -⟩ := accepted.chain_methodCode config member
  have filled := Code.consecutive_placedItems (flow.methodCode config root) 0
  have items := Code.map_fst_placedItems (flow.methodCode config root) 0
  rw [split] at filled
  rw [split, List.map_append, List.map_cons] at items
  cases after with
  | nil =>
    refine .inr ⟨rfl, ?_⟩
    have final : (flow.methodCode config root).items.getLast? = some item := by
      rw [← items, List.map_nil, List.getLast?_append, List.getLast?_singleton]
      rfl
    have code := flow.epilogue_cases root (flow.emit config root []).layout
    cases runs : flow.runsOn root with
    | true =>
      rw [methodCode, epilogue_of_runsOn _ runs, Code.items_append] at final
      rw [List.getLast?_append] at final
      exact .inl (Option.some.inj final).symm
    | false =>
      rcases code with none | some
      · rw [methodCode, none, Code.items_append, Code.items, List.append_nil, last] at final
        exact .inr ⟨(Option.some.inj final).symm, rfl⟩
      · rw [methodCode, some, Code.items_append, List.getLast?_append] at final
        exact .inl (Option.some.inj final).symm
  | cons entry after =>
    obtain ⟨next, offset'⟩ := entry
    obtain rfl : offset' = offset + item.width := filled.split.2.head
    rw [← items, List.map_cons] at chain
    exact .inl ⟨next, after, rfl, (List.isChain_cons_cons.mp (chain.right_of_append)).1⟩

/-- Behind an item stands the next one, unless it is the last of the method. -/
theorem follows {item : Item} {offset : Nat} (stands : flow.Stands config root item offset) :
    (∃ next, flow.Stands config root next (offset + item.width) ∧ flow.Link config item next) ∨
      item = .instr root .ret ∨ item = .node (.ending root) ∧ flow.runsOn root = false := by
  obtain ⟨before, after, split⟩ := List.append_of_mem stands
  refine (accepted.follows_entry member split).imp (fun ⟨next, rest, same, link⟩ ↦ ?_) And.right
  refine ⟨next, ?_, link⟩
  rw [Stands, split, same]
  exact List.mem_append_right _ (List.mem_cons_of_mem _ List.mem_cons_self)

/-- Behind a live node stands what its link says. -/
theorem follows_node {node : FlowNode} (live : flow.Live node) {offset : Nat}
    (stands : flow.Stands config root (.node node) offset) :
    ∃ next, flow.Stands config root next offset ∧ flow.Link config (.node node) next := by
  rcases accepted.follows member stands with found | last | ⟨last, stops⟩
  · exact found
  · cases last
  · cases last
    have rooted := accepted.wellFormed.toIsTree.has_of_mem_methods member
    rw [(accepted.runsOn_iff rooted).mpr fun _ ↦ live] at stops
    cases stops

end Accepted

/-- Between two nodes stands no instruction, so that they abut, or the first ends a sealed scope. -/
theorem Link.between_nodes {first second : FlowNode}
    (link : flow.Link config (.node first) (.node second)) :
    flow.nextNode? first = some second ∨ ∃ scope, first = .ending scope ∧ flow.IsSealed scope := by
  cases link with
  | next follows => exact .inl follows
  | «sealed» closed => exact .inr ⟨_, rfl, closed⟩
  | @«first» stmt shape _ found silent performs =>
    cases shape with
    | jump =>
      obtain ⟨operation, same⟩ := performs
      cases same
    | expression | lambda | throwException | rethrow | conditional | loop | switch =>
      cases performs
    | _ => exact performs.elim
  | @«last» stmt child shape _ found mem runs performs =>
    cases shape with
    | conditional condition thenBranch elseBranch =>
      cases elseBranch with
      | none => exact performs.elim
      | some => cases performs.2
    | switch | loop | tryBlock | synthetic => cases performs
    | _ => exact performs.elim

/-- A node that control runs on from without an instruction is followed by the next one. -/
theorem Link.eq_next (tree : flow.body.IsTree) {first second : FlowNode} {item : Item}
    (link : flow.Link config (.node first) item) (follows : flow.nextNode? first = some second) :
    item = .node second := by
  cases link with
  | next follows' =>
    rw [follows] at follows'
    cases follows'
    rfl
  | «first» found silent =>
    rw [nextNode?_entry found, silent] at follows
    cases follows
  | @«last» stmt child shape _ found mem runs performs =>
    rw [nextNode?_ending tree found mem] at follows
    cases shape with
    | conditional condition thenBranch elseBranch =>
      cases elseBranch with
      | none => exact performs.elim
      | some =>
        rw [nodeAround?, if_neg (not_not_intro performs.1), if_pos runs] at follows
        cases follows
    | loop | switch =>
      rw [nodeAround?, if_pos runs] at follows
      cases follows
    | tryBlock | synthetic => cases follows
    | _ => exact performs.elim
  | «sealed» closed =>
    rcases scope_of_nextNode? tree follows with ⟨_, same, -⟩ | ⟨_, _, _, same, role, -⟩
    · cases same
    · cases same
      rw [closed.1] at role
      cases role
  | ret mem =>
    rw [nextNode?_root tree mem] at follows
    cases follows

/-- Nodes that abut stand at one offset. -/
theorem Accepted.stands_of_abuts (accepted : flow.Accepted) (member : root ∈ flow.body.methods)
    {first second : FlowNode} {offset : Nat} (stands : flow.Stands config root (.node first) offset)
    (abuts : flow.Abuts first second) : flow.Stands config root (.node second) offset := by
  have tree := accepted.wellFormed.toIsTree
  induction abuts with
  | refl => exact stands
  | step before follows ih =>
    rcases accepted.follows member ih with ⟨next, stands, link⟩ | last | ⟨last, -⟩
    · rw [link.eq_next tree follows] at stands
      exact stands
    · cases last
    · cases last
      rw [nextNode?_root tree member] at follows
      cases follows

/-- From a node code runs on to a node that no other one follows. -/
theorem Accepted.exists_final (accepted : flow.Accepted) (member : root ∈ flow.body.methods)
    {node : FlowNode} {offset : Nat} (stands : flow.Stands config root (.node node) offset) :
    ∃ last, flow.Abuts node last ∧ flow.nextNode? last = none := by
  have tree := accepted.wellFormed.toIsTree
  obtain ⟨before, after, split⟩ := List.append_of_mem stands
  clear stands
  -- By induction on the items that are still to come.
  induction after generalizing node before with
  | nil =>
    refine ⟨node, .refl, ?_⟩
    rcases accepted.follows_entry member split with ⟨_, _, same, -⟩ | ⟨-, last | ⟨last, -⟩⟩
    · cases same
    · cases last
    · cases last
      exact nextNode?_root tree member
  | cons entry after ih =>
    cases follows : flow.nextNode? node with
    | none => exact ⟨node, .refl, follows⟩
    | some next =>
      rcases accepted.follows_entry member split with ⟨item, rest, same, link⟩ | ⟨same, -⟩
      · cases same
        rw [link.eq_next tree follows, List.append_cons] at split
        obtain ⟨last, abuts, final⟩ := ih _ split
        exact ⟨last, (Abuts.step .refl follows).trans abuts, final⟩
      · cases same

/-- A chain of nodes leads from its first node to its last one, unless it meets the end of a
sealed scope. -/
private theorem walk_of_chain {first last : FlowNode} {middle : List FlowNode}
    (chain : ((first :: (middle ++ [last])).map Item.node).IsChain (flow.Link config)) :
    flow.Abuts first last ∨ ∃ scope, flow.IsSealed scope ∧ flow.Abuts first (.ending scope) ∧
      .ending scope ∈ first :: middle := by
  induction middle generalizing first with
  | nil =>
    rcases (List.isChain_cons_cons.mp chain).1.between_nodes with follows | ⟨scope, rfl, closed⟩
    · exact .inl (.step .refl follows)
    · exact .inr ⟨scope, closed, .refl, List.mem_cons_self⟩
  | cons next rest ih =>
    obtain ⟨link, chain⟩ := List.isChain_cons_cons.mp chain
    rcases link.between_nodes with follows | ⟨scope, rfl, closed⟩
    · have start : flow.Abuts first next := .step .refl follows
      rcases ih chain with abuts | ⟨scope, closed, abuts, mem⟩
      · exact .inl (start.trans abuts)
      · exact .inr ⟨scope, closed, start.trans abuts, List.mem_cons_of_mem _ mem⟩
    · exact .inr ⟨scope, closed, .refl, List.mem_cons_self⟩

/-- How the first of two nodes at one offset comes before the second: the two abut, or the code
from the first to the end of a sealed scope does, and that end comes before the second. -/
def Walks (flow : Flow) (config : Config) (root : StmtId) (offset : Nat)
    (first second : FlowNode) : Prop :=
  flow.Abuts first second ∨ ∃ scope, flow.IsSealed scope ∧ flow.Abuts first (.ending scope) ∧
    flow.Stands config root (.node (.ending scope)) offset ∧
    flow.Before config root (.ending scope) second

/-- Of two nodes at one offset the one that is listed first leads to the other. -/
private theorem walks_of_split (accepted : flow.Accepted) (member : root ∈ flow.body.methods)
    {first second : FlowNode} {offset : Nat} {before middle after : List (Item × Nat)}
    (split : (flow.methodCode config root).placedItems 0 =
      before ++ (.node first, offset) :: (middle ++ (.node second, offset) :: after)) :
    flow.Walks config root offset first second := by
  have filled := Code.consecutive_placedItems (flow.methodCode config root) 0
  have items := Code.map_fst_placedItems (flow.methodCode config root) 0
  have tree := accepted.wellFormed.toIsTree
  obtain ⟨chain, -⟩ := accepted.chain_methodCode config member
  rw [split] at filled
  -- What stands between the two nodes are nodes.
  obtain ⟨nodes, rfl⟩ := filled.split.2.split.1.nodes
  have items : (flow.methodCode config root).items = before.map Prod.fst ++
      ((first :: (nodes ++ [second])).map Item.node ++ after.map Prod.fst) := by
    rw [← items, split]
    simp
  rw [items] at chain
  rcases walk_of_chain chain.right_of_append.left_of_append with abuts | ⟨scope, closed, abuts, mem⟩
  · exact .inl abuts
  · refine .inr ⟨scope, closed, abuts, ?_, ?_⟩
    · rw [Stands, split]
      apply List.mem_append_right
      rcases List.mem_cons.mp mem with same | mem
      · rw [same]
        exact List.mem_cons_self
      · exact List.mem_cons_of_mem _ (List.mem_append_left _ (List.mem_map_of_mem mem))
    · obtain ⟨front, back, listed⟩ := List.append_of_mem mem
      have list : (flow.methodCode config root).nodes =
          ((before.map Prod.fst).filterMap Item.node? ++ front) ++ .ending scope ::
            (back ++ second :: (after.map Prod.fst).filterMap Item.node?) := by
        have same (nodes : List FlowNode) : (nodes.map Item.node).filterMap Item.node? = nodes := by
          rw [List.filterMap_map]
          exact List.filterMap_some
        rw [Code.nodes, items, List.filterMap_append, List.filterMap_append, same,
          ← List.cons_append, listed]
        simp
      have nodup := nodup_nodes config tree (tree.has_of_mem_methods member)
      rw [list] at nodup
      rw [Before, list]
      exact idxOf_lt_idxOf nodup

/-- Of two nodes at one offset one leads to the other. -/
theorem Accepted.walks (accepted : flow.Accepted) (member : root ∈ flow.body.methods)
    {first second : FlowNode} {offset : Nat}
    (stands : flow.Stands config root (.node first) offset)
    (stands' : flow.Stands config root (.node second) offset) :
    flow.Walks config root offset first second ∨ flow.Walks config root offset second first := by
  obtain ⟨before, after, split⟩ := List.append_of_mem stands
  rw [Stands, split, List.mem_append, List.mem_cons] at stands'
  rcases stands' with mem | same | mem
  · obtain ⟨front, back, rfl⟩ := List.append_of_mem mem
    rw [List.append_assoc, List.cons_append] at split
    exact .inr (walks_of_split accepted member split)
  · cases same
    exact .inl (.inl .refl)
  · obtain ⟨front, back, rfl⟩ := List.append_of_mem mem
    exact .inl (walks_of_split accepted member split)

end Flow
end ProtectedRegions
