import ProtectedRegions.Proofs.Code.Items
import ProtectedRegions.Proofs.Lowering.Abutting
import ProtectedRegions.Proofs.Lowering.Labels

/-!
# What stands behind what

The rule that the code of a method keeps from each of its nodes and instructions to the next.
Behind a node stands the node that abuts it, or the instruction that the statement performs
there; behind an instruction that control passes stands what the statement goes on with. Only
the end of a protected scope that code does not go on behind may have anything behind it.
-/

namespace ProtectedRegions
namespace Flow

/-- The instruction that a statement performs where it starts. -/
def PerformsFirst (stmt : StmtId) : Statement → Item → Prop
  | .expression _, item => item = .instr stmt (.code stmt)
  | .lambda _, item => item = .instr stmt (.closure stmt)
  | .throwException, item => item = .instr stmt .throwException
  | .rethrow, item => item = .instr stmt .rethrow
  | .jump _, item => ∃ operation, item = .instr stmt operation
  | .conditional _ _ elseBranch, item =>
    item = .instr stmt (.branchIf ((elseBranch.map LabelKey.elseOf).getD (.endOf stmt)))
  | .loop _ _, item => item = .instr stmt (.branchIf (.endOf stmt))
  | .switch sections _, item => item = .instr stmt (.switch (sections.map LabelKey.caseOf))
  | _, _ => False

/-- The instruction that a statement performs where one of its children ends. -/
def PerformsLast (flow : Flow) (config : Config) (stmt child : StmtId) :
    Statement → Item → Prop
  | .conditional _ thenBranch (some _), item =>
    child = thenBranch ∧ item = .instr stmt (.branch (.endOf stmt))
  | .switch .., item => item = .instr stmt (.branch (.endOf stmt))
  | .loop .., item => item = .instr stmt (.branch (.head stmt))
  | .tryBlock parts, item =>
    item = .instr stmt (if child ∈ parts.protectedParts then .leave (.endOf stmt) else .endFinally)
  | .synthetic kind _, item =>
    item = .instr stmt (if (flow.decideCleanup config kind stmt child).isProtected then
      .leave (.endOf stmt) else .cleanup stmt kind)
  | _, _ => False

/-- What a statement goes on with behind an instruction of its own. -/
def GoesOn (flow : Flow) (config : Config) (stmt : StmtId) :
    Statement → Instruction LabelKey → Item → Prop
  | .expression _, .code _, item | .lambda _, .closure _, item => item = .node (.ending stmt)
  | .conditional _ body _, .branchIf _, item | .loop _ body, .branchIf _, item =>
    item = .node (.entry body)
  | .switch sections default, .switch _, item =>
    item = .instr stmt (.branch
      (((default.bind (sections[·]?)).map LabelKey.caseOf).getD (.endOf stmt)))
  | .synthetic kind body, .cleanup _ _, item =>
    item = if (flow.decideCleanup config kind stmt body).isProtected then .instr stmt .endFinally
      else .node (.ending stmt)
  | .tryBlock _, .filter _ _, item => item = .instr stmt .endFilter
  | _, _, _ => False

/-- A protected scope that code does not go on behind. -/
def IsSealed (flow : Flow) (scope : StmtId) : Prop :=
  (flow.body.role? scope).any (·.isProtected) = true ∧ flow.runsOn scope = false

/-- The rule from an item to the next. -/
inductive Link (flow : Flow) (config : Config) : Item → Item → Prop
  | next {first second : FlowNode} (follows : flow.nextNode? first = some second) :
    Link flow config (.node first) (.node second)
  | first {stmt : StmtId} {shape : Statement} {item : Item}
      (found : flow.body.get? stmt = some shape) (silent : nodeInside? stmt shape = none)
      (performs : PerformsFirst stmt shape item) : Link flow config (.node (.entry stmt)) item
  | last {stmt child : StmtId} {shape : Statement} {item : Item}
      (found : flow.body.get? stmt = some shape) (mem : child ∈ shape.children)
      (runs : flow.runsOn child = true) (performs : flow.PerformsLast config stmt child shape item) :
      Link flow config (.node (.ending child)) item
  | sealed {scope : StmtId} {item : Item} (closed : flow.IsSealed scope) :
      Link flow config (.node (.ending scope)) item
  | ret {root : StmtId} (mem : root ∈ flow.body.methods) :
      Link flow config (.node (.ending root)) (.instr root .ret)
  | goesOn {stmt : StmtId} {shape : Statement} {operation : Instruction LabelKey} {item : Item}
      (found : flow.body.get? stmt = some shape)
      (goes : flow.GoesOn config stmt shape operation item) :
      Link flow config (.instr stmt operation) item
  | stops {source : StmtId} {operation : Instruction LabelKey} {item : Item}
      (ends : operation.isTerminator = true) : Link flow config (.instr source operation) item

/-- Items from a first to a last one, each linked to the next. -/
structure Segment (flow : Flow) (config : Config) (first last : Item) (items : List Item) :
    Prop where
  chain : items.IsChain (flow.Link config)
  first : items.head? = some first
  last : items.getLast? = some last

namespace Segment

variable {flow : Flow} {config : Config} {first last first' last' : Item}
  {items items' : List Item}

theorem single (item : Item) : flow.Segment config item item [item] := ⟨.singleton _, rfl, rfl⟩

/-- Segments in sequence. -/
theorem append (segment : flow.Segment config first last items)
    (segment' : flow.Segment config first' last' items') (link : flow.Link config last first') :
    flow.Segment config first last' (items ++ items') where
  chain := by
    refine segment.chain.append segment'.chain fun item ends item' starts ↦ ?_
    rw [segment.last] at ends
    rw [segment'.first] at starts
    cases ends
    cases starts
    exact link
  first := by rw [List.head?_append, segment.first]; rfl
  last := by rw [List.getLast?_append, segment'.last]; rfl

/-- An item in front of a segment. -/
theorem cons (segment : flow.Segment config first last items) {item : Item}
    (link : flow.Link config item first) : flow.Segment config item last (item :: items) :=
  (single item).append segment link

/-- An item behind a segment. -/
theorem concat (segment : flow.Segment config first last items) {item : Item}
    (link : flow.Link config last item) : flow.Segment config first item (items ++ [item]) :=
  segment.append (single item) link

/-- Statements in a list, each from its start to some last item. -/
theorem sequence {children : List StmtId} {code : StmtId → List Item} {leaves : StmtId → Item}
    {behind : FlowNode} (nodup : children.Nodup)
    (each : ∀ child ∈ children,
      flow.Segment config (.node (.entry child)) (leaves child) (code child))
    (links : ∀ child ∈ children,
      flow.Link config (leaves child) (.node (nodeBehind child behind children))) :
    flow.Segment config (.node (firstNode behind children)) (.node behind)
      (children.flatMap code ++ [.node behind]) := by
  induction children with
  | nil => exact single _
  | cons child rest ih =>
    rw [List.nodup_cons] at nodup
    have link := links child List.mem_cons_self
    rw [nodeBehind, if_pos rfl] at link
    rw [List.flatMap_cons, List.append_assoc]
    refine (each child List.mem_cons_self).append (ih nodup.2 (fun other mem ↦ ?_)
      fun other mem ↦ ?_) link
    · exact each other (List.mem_cons_of_mem _ mem)
    · have different : child ≠ other := by
        rintro rfl
        exact nodup.1 mem
      have link := links other (List.mem_cons_of_mem _ mem)
      rwa [nodeBehind, if_neg different] at link

end Segment

/-- The last item of a statement with the exit instruction that may follow it. -/
def exitItem (flow : Flow) (stmt child : StmtId) (operation : Instruction LabelKey) : Item :=
  if flow.runsOn child then .instr stmt operation else .node (.ending child)

namespace Link

variable {flow : Flow} {config : Config}

/-- The rule from a statement with the exit instruction that may follow it. -/
theorem exit {stmt child : StmtId} {operation : Instruction LabelKey} {item : Item}
    (runs : flow.Link config (.instr stmt operation) item)
    (stops : flow.runsOn child = false → flow.Link config (.node (.ending child)) item) :
    flow.Link config (flow.exitItem stmt child operation) item := by
  rw [exitItem]
  cases h : flow.runsOn child with
  | true => exact runs
  | false => exact stops h

end Link

/-- A statement with the exit instruction that may follow it. -/
theorem Segment.exit {flow : Flow} {config : Config} {first : Item} {code : Code}
    {stmt child : StmtId} {operation : Instruction LabelKey}
    (segment : flow.Segment config first (.node (.ending child)) code.items)
    (link : flow.runsOn child = true →
      flow.Link config (.node (.ending child)) (.instr stmt operation)) :
    flow.Segment config first (flow.exitItem stmt child operation)
      (code ++ Code.onlyIf (flow.runsOn child) (.instr stmt operation)).items := by
  rw [exitItem]
  show flow.Segment config first _ (code.items ++ Code.items _)
  cases h : flow.runsOn child with
  | true => exact segment.concat (link h)
  | false =>
    rw [Code.onlyIf_false, Code.items, List.append_nil]
    exact segment

end Flow

namespace Code

theorem items_append (first second : Code) : (first ++ second).items = first.items ++ second.items :=
  rfl

/-- The items of code in sequence. -/
theorem items_concat (parts : List Code) : (concat parts).items = parts.flatMap items := by
  induction parts with
  | nil => rfl
  | cons first rest ih => rw [concat_cons, items, ih, List.flatMap_cons]

/-- Events are no items. -/
theorem items_notes (events : List Event) : (notes events).items = [] := by
  rw [notes, items_concat, List.flatMap_map]
  exact List.flatMap_eq_nil_iff.mpr fun _ _ ↦ rfl

end Code

namespace Flow

variable {flow : Flow}

theorem items_template (config : Config) (scopes : List StmtId) (stmt : StmtId)
    (shape : Statement) : (flow.template config scopes stmt shape).items =
      (flow.shapeCode config (flow.emit config) scopes stmt shape).items :=
  flow.template_elim config scopes stmt shape (motive := fun code ↦ code.items = _) rfl fun _ ↦ rfl

/-- Items from a first one on, with a last one that anything may follow. -/
private structure Loose (flow : Flow) (config : Config) (first : Item) (items : List Item) :
    Prop where
  segment : ∃ last, flow.Segment config first last items ∧ ∀ item, flow.Link config last item

private theorem Loose.append {config : Config} {first first' : Item} {items items' : List Item}
    (loose : Loose flow config first items) (loose' : Loose flow config first' items') :
    Loose flow config first (items ++ items') := by
  obtain ⟨last, segment, free⟩ := loose
  obtain ⟨last', segment', free'⟩ := loose'
  exact ⟨last', segment.append segment' (free first'), free'⟩

private theorem Loose.concat {config : Config} {first : Item} {items : List Item}
    (loose : Loose flow config first items) {parts : List Code}
    (each : ∀ part ∈ parts, ∃ first', Loose flow config first' part.items) :
    Loose flow config first (items ++ (Code.concat parts).items) := by
  induction parts generalizing items with
  | nil =>
    rw [Code.concat_nil, Code.items, List.append_nil]
    exact loose
  | cons part rest ih =>
    obtain ⟨first', loose'⟩ := each part List.mem_cons_self
    rw [Code.concat_cons, Code.items, ← List.append_assoc]
    exact ih (loose.append loose') fun other mem ↦ each other (List.mem_cons_of_mem _ mem)

/-- The code of a scope with its exit instruction, in the code of its owner. -/
private theorem Loose.scope {config : Config} {owner child : StmtId} {shape : Statement}
    {operation : Instruction LabelKey} {scopes : List StmtId}
    (found : flow.body.get? owner = some shape) (mem : child ∈ shape.children)
    (segment : flow.Segment config (.node (.entry child)) (.node (.ending child))
      (flow.emit config child scopes).items)
    (role : (flow.body.role? child).any (·.isProtected) = true)
    (performs : flow.PerformsLast config owner child shape (.instr owner operation))
    (ends : operation.isTerminator = true) :
    Loose flow config (.node (.entry child)) (flow.emit config child scopes ++
      Code.onlyIf (flow.runsOn child) (.instr owner operation)).items where
  segment := ⟨_, segment.exit fun runs ↦ .last found mem runs performs, fun _ ↦
    Link.exit (.stops ends) fun stops ↦ .sealed ⟨role, stops⟩⟩

section Shapes

variable {config : Config} (tree : flow.body.IsTree) {stmt : StmtId} {scopes : List StmtId}

include tree

private theorem segment_conditional {condition : Condition} {thenBranch : StmtId}
    {elseBranch : Option StmtId}
    (found : flow.body.get? stmt = some (.conditional condition thenBranch elseBranch))
    (each : ∀ child ∈ (Statement.conditional condition thenBranch elseBranch).children,
      flow.Segment config (.node (.entry child)) (.node (.ending child))
        (flow.emit config child scopes).items) :
    flow.Segment config (.node (.entry stmt)) (.node (.ending stmt))
      (.node (.entry stmt) :: ((flow.conditionalCode (flow.emit config · scopes) stmt thenBranch
        elseBranch).items ++ [.node (.ending stmt)])) := by
  have first := each thenBranch List.mem_cons_self
  have behind {child : StmtId}
      (mem : child ∈ (Statement.conditional condition thenBranch elseBranch).children)
      {node : FlowNode} (around : flow.nodeAround? stmt child
        (.conditional condition thenBranch elseBranch) = some node) :
      flow.Link config (.node (.ending child)) (.node node) :=
    .next ((nextNode?_ending tree found mem).trans around)
  cases elseBranch with
  | none =>
    simp only [conditionalCode, Code.items_append, Code.items, List.append_nil]
    have tested : flow.Link config (.instr stmt (.branchIf (.endOf stmt)))
        (.node (.entry thenBranch)) := .goesOn found rfl
    exact ((first.cons tested).cons (.first found rfl rfl)).concat
      (behind List.mem_cons_self rfl)
  | some elseBranch =>
    have nodup := tree.nodup_children stmt
    rw [Body.children_of_get? found] at nodup
    have different : elseBranch ≠ thenBranch := by
      rintro rfl
      exact (List.nodup_cons.mp nodup).1 (List.mem_singleton_self _)
    have member : elseBranch ∈
        (Statement.conditional condition thenBranch (some elseBranch)).children :=
      List.mem_cons_of_mem _ (List.mem_singleton_self _)
    have tested : flow.Link config (.instr stmt (.branchIf (.elseOf elseBranch)))
        (.node (.entry thenBranch)) := .goesOn found rfl
    have leaves : flow.Segment config (.node (.entry thenBranch))
        (flow.exitItem stmt thenBranch (.branch (.endOf stmt))) (flow.emit config thenBranch scopes ++
          Code.onlyIf (flow.runsOn thenBranch) (.instr stmt (.branch (.endOf stmt)))).items :=
      first.exit fun runs ↦ .last found List.mem_cons_self runs ⟨rfl, rfl⟩
    have skips : flow.Link config (flow.exitItem stmt thenBranch (.branch (.endOf stmt)))
        (.node (.entry elseBranch)) :=
      .exit (.stops rfl) fun stops ↦ behind List.mem_cons_self (by simp [nodeAround?, stops])
    have last : flow.Link config (.node (.ending elseBranch)) (.node (.ending stmt)) :=
      behind member (by simp [nodeAround?, different])
    have segment := ((leaves.append (each elseBranch member) skips).concat last).cons tested
    simpa [conditionalCode, Code.items_append, Code.items] using
      segment.cons (.first found rfl rfl)

private theorem segment_loop {condition : Condition} {body : StmtId}
    (found : flow.body.get? stmt = some (.loop condition body))
    (segment : flow.Segment config (.node (.entry body)) (.node (.ending body))
      (flow.emit config body scopes).items) :
    flow.Segment config (.node (.entry stmt)) (.node (.ending stmt))
      (.node (.entry stmt) :: ((flow.loopCode (flow.emit config · scopes) stmt condition
        body).items ++ [.node (.ending stmt)])) := by
  have leaves : flow.Segment config (.node (.entry body))
      (flow.exitItem stmt body (.branch (.head stmt))) (flow.emit config body scopes ++
        Code.onlyIf (flow.runsOn body) (.instr stmt (.branch (.head stmt)))).items :=
    segment.exit fun runs ↦ .last found List.mem_cons_self runs rfl
  have last : flow.Link config (flow.exitItem stmt body (.branch (.head stmt)))
      (.node (.ending stmt)) :=
    .exit (.stops rfl) fun stops ↦
      .next ((nextNode?_ending tree found List.mem_cons_self).trans (by simp [nodeAround?, stops]))
  have segment := leaves.concat last
  cases condition with
  | always =>
    simpa [loopCode, Code.items_append, Code.items, Code.onlyIf_false] using
      segment.cons (.next (nextNode?_entry found))
  | never | unknown =>
    have tested : flow.Link config (.instr stmt (.branchIf (.endOf stmt)))
      (.node (.entry body)) := .goesOn found rfl
    simpa [loopCode, Code.items_append, Code.items, Code.onlyIf, bne] using
      (segment.cons tested).cons (.first found rfl rfl)

private theorem segment_switch {sections : List StmtId} {default : Option Nat}
    (found : flow.body.get? stmt = some (.switch sections default))
    (each : ∀ child ∈ sections, flow.Segment config (.node (.entry child))
      (.node (.ending child)) (flow.emit config child scopes).items) :
    flow.Segment config (.node (.entry stmt)) (.node (.ending stmt))
      (.node (.entry stmt) :: ((flow.switchCode (flow.emit config · scopes) stmt sections
        default).items ++ [.node (.ending stmt)])) := by
  have nodup : sections.Nodup := by
    have := tree.nodup_children stmt
    rwa [Body.children_of_get? found] at this
  have listed : flow.Segment config (.node (firstNode (.ending stmt) sections))
      (.node (.ending stmt)) (sections.flatMap (fun child ↦ (Code.mark (.caseOf child) ++
        flow.emit config child scopes ++ Code.onlyIf (flow.runsOn child)
          (.instr stmt (.branch (.endOf stmt)))).items) ++ [.node (.ending stmt)]) :=
    Segment.sequence nodup
      (fun child mem ↦ (each child mem).exit fun runs ↦ .last found mem runs rfl)
      fun child mem ↦ .exit (.stops rfl) fun stops ↦
        .next ((nextNode?_ending tree found mem).trans (by rw [nodeAround?, stops]; rfl))
  have tested : flow.Link config (.instr stmt (.switch (sections.map LabelKey.caseOf)))
      (.instr stmt (.branch (((default.bind (sections[·]?)).map LabelKey.caseOf).getD
        (.endOf stmt)))) := .goesOn found rfl
  have segment := ((listed.cons (.stops rfl)).cons tested).cons (.first found rfl rfl)
  simpa [switchCode, Code.items_append, Code.items, Code.items_concat, List.flatMap_map]
    using segment

private theorem segment_synthetic {kind : SyntheticKind} {body : StmtId}
    (found : flow.body.get? stmt = some (.synthetic kind body))
    (each : ∀ scopes, flow.Segment config (.node (.entry body)) (.node (.ending body))
      (flow.emit config body scopes).items) :
    flow.Segment config (.node (.entry stmt)) (.node (.ending stmt))
      (.node (.entry stmt) :: ((flow.syntheticCode config (flow.emit config) scopes stmt kind
        body).items ++ [.node (.ending stmt)])) := by
  have role : (flow.body.role? body).any (·.isProtected) = true := by
    rw [tree.role?_syntheticBody found]
    rfl
  have enter : flow.Link config (.node (.entry stmt)) (.node (.entry body)) :=
    .next (nextNode?_entry found)
  cases decision : (flow.decideCleanup config kind stmt body).isProtected with
  | true =>
    have scope : Loose flow config (.node (.entry body)) (flow.emit config body (body :: scopes) ++
        Code.onlyIf (flow.runsOn body) (.instr stmt (.leave (.endOf stmt)))).items :=
      .scope found List.mem_cons_self (each _) role (by simp [PerformsLast, decision]) rfl
    obtain ⟨last, leaves, free⟩ := scope
    have cleans : flow.Link config (.instr stmt (.cleanup stmt kind)) (.instr stmt .endFinally) :=
      .goesOn found (by simp [GoesOn, decision])
    have closes : flow.Link config (.instr stmt .endFinally) (.node (.ending stmt)) := .stops rfl
    have segment := (((leaves.concat (free _)).concat cleans).concat closes).cons enter
    simpa [syntheticCode, decision, protectedCode, Code.items_append, Code.items] using segment
  | false =>
    have leaves : flow.Segment config (.node (.entry body))
        (flow.exitItem stmt body (.cleanup stmt kind)) (flow.emit config body scopes ++
          Code.onlyIf (flow.runsOn body) (.instr stmt (.cleanup stmt kind))).items :=
      (each scopes).exit fun runs ↦ .last found List.mem_cons_self runs
        (by simp [PerformsLast, decision])
    have last : flow.Link config (flow.exitItem stmt body (.cleanup stmt kind))
        (.node (.ending stmt)) :=
      .exit (.goesOn found (by simp [GoesOn, decision])) fun stops ↦ .sealed ⟨role, stops⟩
    simpa [syntheticCode, decision, Code.items_append, Code.items] using
      (leaves.concat last).cons enter

section Try

variable {parts : TryStatement} (found : flow.body.get? stmt = some (.tryBlock parts))
  (each : ∀ child ∈ (Statement.tryBlock parts).children, ∀ scopes,
    flow.Segment config (.node (.entry child)) (.node (.ending child))
      (flow.emit config child scopes).items)

include found each

private theorem loose_protectedPart {part : StmtId} (mem : part ∈ parts.protectedParts) :
    Loose flow config (.node (.entry part))
      (flow.protectedCode (flow.emit config) scopes stmt part).items := by
  have listed : part ∈ (Statement.tryBlock parts).children := List.mem_append_left _ mem
  refine .scope found listed (each part listed _) ?_ (by simp [PerformsLast, mem]) rfl
  rcases (tree.role?_protectedPart found mem).1 with role | ⟨place, role⟩
  · rw [role]
    rfl
  · rw [role]
    rfl

private theorem loose_catchCode {clause : CatchClause} {place : Nat}
    (entry : (clause, place) ∈ parts.catches.zipIdx) : ∃ first, Loose flow config first
      (flow.catchCode (flow.emit config) scopes stmt place clause).items := by
  have handler := @loose_protectedPart flow config tree stmt scopes parts found each clause.body
    (List.mem_cons_of_mem _ (List.mem_map_of_mem (List.fst_mem_of_mem_zipIdx entry)))
  simp only [catchCode, Code.items_append, Code.items_notes, List.append_nil]
  cases clause.isFiltered with
  | false => exact ⟨_, handler⟩
  | true =>
    have tests : flow.Link config (.instr stmt (.filter stmt place))
        (.instr stmt .endFilter) := .goesOn found rfl
    have filter : Loose flow config (.instr stmt (.filter stmt place))
        [.instr stmt (.filter stmt place), .instr stmt .endFilter] :=
      ⟨_, (Segment.single _).cons tests, fun _ ↦ .stops rfl⟩
    exact ⟨_, filter.append handler⟩

private theorem loose_groupCode : Loose flow config (.node (.entry parts.body))
    (flow.groupCode (flow.emit config) scopes stmt parts).items := by
  have body : Loose flow config (.node (.entry parts.body))
      (flow.tryBodyCode (flow.emit config) scopes stmt parts.body).items := by
    rw [tryBodyCode, Code.items_append, Code.items_notes, List.append_nil]
    exact loose_protectedPart tree found each List.mem_cons_self
  unfold groupCode
  split
  · exact body
  · rw [Code.items_append, Code.items_notes, List.append_nil]
    refine body.concat fun part mem ↦ ?_
    obtain ⟨⟨clause, place⟩, entry, rfl⟩ := List.mem_map.mp mem
    exact loose_catchCode tree found each entry

private theorem loose_handlerCode {clause : HandlerClause}
    (handler : parts.handler = some clause) : Loose flow config (.node (.entry clause.body))
      (flow.handlerCode (flow.emit config) scopes stmt clause.body).items := by
  have listed : clause.body ∈ (Statement.tryBlock parts).children := by
    simp [Statement.children, handler]
  have role := tree.role?_handlerBody found handler
  have apart : clause.body ∉ parts.protectedParts := by
    intro mem
    rcases (tree.role?_protectedPart found mem).1 with role' | ⟨place, role'⟩ <;>
      rw [role] at role' <;> cases role'
  exact .scope found listed (each _ listed _) (by rw [role]; rfl)
    (by simp [PerformsLast, apart]) rfl

private theorem segment_try :
    flow.Segment config (.node (.entry stmt)) (.node (.ending stmt))
      (.node (.entry stmt) :: ((flow.tryCode (flow.emit config) scopes stmt parts).items ++
        [.node (.ending stmt)])) := by
  have group := @loose_groupCode flow config tree stmt scopes parts found each
  have all : Loose flow config (.node (.entry parts.body))
      (flow.tryCode (flow.emit config) scopes stmt parts).items := by
    rw [tryCode]
    cases handler : parts.handler with
    | none =>
      rw [Code.items_append, Code.items, List.append_nil]
      exact group
    | some clause =>
      have last := @loose_handlerCode flow config tree stmt scopes parts found each clause handler
      simpa [Code.items_append, Code.items, Code.items_notes] using group.append last
  obtain ⟨last, segment, free⟩ := all
  exact (segment.concat (free _)).cons (.next (nextNode?_entry found))

end Try

end Shapes

/-- The code of a statement keeps the rule. -/
theorem Accepted.segment_emit (accepted : flow.Accepted) (config : Config) {stmt : StmtId}
    (has : flow.body.has stmt = true) (scopes : List StmtId) :
    flow.Segment config (.node (.entry stmt)) (.node (.ending stmt))
      (flow.emit config stmt scopes).items := by
  have tree := accepted.wellFormed.toIsTree
  revert scopes
  refine tree.inductionUp (motive := fun stmt ↦ ∀ scopes, flow.Segment config
    (.node (.entry stmt)) (.node (.ending stmt)) (flow.emit config stmt scopes).items)
    (fun stmt shape found ih scopes ↦ ?_) has
  rw [emit_eq config tree found, Code.items, items_template]
  cases shape with
  | block children =>
    have nodup := tree.nodup_children stmt
    rw [Body.children_of_get? found] at nodup
    rw [shapeCode, Code.items_concat, List.flatMap_map]
    exact (Segment.sequence nodup (fun child mem ↦ ih child mem scopes) fun child mem ↦
      .next (nextNode?_ending tree found mem)).cons (.next (nextNode?_entry found))
  | conditional condition thenBranch elseBranch =>
    exact segment_conditional tree found fun child mem ↦ ih child mem scopes
  | tryBlock parts => exact segment_try tree found ih
  | labeled label body =>
    have inner := (ih body List.mem_cons_self scopes).concat
      (.next (nextNode?_ending tree found List.mem_cons_self))
    exact inner.cons (.next (nextNode?_entry found))
  | loop condition body => exact segment_loop tree found (ih body List.mem_cons_self scopes)
  | switch sections default =>
    exact segment_switch tree found fun child mem ↦ ih child mem scopes
  | synthetic kind body => exact segment_synthetic tree found (ih body List.mem_cons_self)
  | expression uses =>
    have last : flow.Link config (.instr stmt (.code stmt)) (.node (.ending stmt)) :=
      .goesOn found rfl
    exact ((Segment.single _).cons last).cons (.first found rfl rfl)
  | lambda body =>
    have last : flow.Link config (.instr stmt (.closure stmt)) (.node (.ending stmt)) :=
      .goesOn found rfl
    exact ((Segment.single _).cons last).cons (.first found rfl rfl)
  | throwException | rethrow =>
    exact ((Segment.single _).cons (.stops rfl)).cons (.first found rfl rfl)
  | jump form =>
    obtain ⟨route, routed⟩ := accepted.exists_routed found
    have resolved := accepted.target?_eq_some.mpr ⟨form, route, found, routed, rfl⟩
    rcases @jumpCode_eq flow stmt scopes with ⟨unresolved, -⟩ | ⟨_, operation, _, by', code⟩
    · rw [resolved] at unresolved
      cases unresolved
    · rw [shapeCode, code]
      have ends : operation.isTerminator = true := by
        cases by' <;> rfl
      exact ((Segment.single _).cons (.stops ends)).cons (.first found rfl ⟨_, rfl⟩)

end Flow
end ProtectedRegions
