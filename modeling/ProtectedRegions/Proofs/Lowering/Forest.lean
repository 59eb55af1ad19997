import ProtectedRegions.Proofs.Flow.Search
import ProtectedRegions.Proofs.Lowering.Built
import ProtectedRegions.Proofs.Region.Forest

/-!
# The forest of a method

The regions of a laid out method as a recursion over the tree of its statements: a `try` or a
protected cleanup nests what its parts are lowered to in regions of its own, a lambda has no
regions, and every other statement has those of its children.
-/

namespace ProtectedRegions

namespace Flow

variable {flow : Flow} {config : Config}

section Shapes

variable (flow) (config) (below : StmtId → RegionForest)

/-- A catch clause: the filter in front of the handler, if there is one, and the handler. -/
def lowerCatch (stmt : StmtId) (clause : CatchClause) (place : Nat) : RegionForest :=
  let info : CatchInfo := ⟨place, clause.exceptionType, clause.binder, clause.isFiltered⟩
  (if clause.isFiltered then .tree ⟨.filterBlock, .user, clause.body, some info, []⟩ .empty
    else .empty) ++
  .tree ⟨.catchBlock, .user, clause.body, some info,
      flow.exits ((ExitQuery.ofScope clause.body stmt).owning clause.body)⟩
    (below clause.body)

/-- The body of a `try`, in a group with the catch clauses if there are any. -/
def lowerGroup (stmt : StmtId) (parts : TryStatement) : RegionForest :=
  let body := .tree ⟨.tryBlock, .user, parts.body, none, flow.exits (.ofScope parts.body stmt)⟩
    (below parts.body)
  if parts.catches.isEmpty then body
  else
    .tree ⟨.tryBlock, .user, stmt, none,
        flow.exits (.ofParts (parts.body :: parts.catches.map (·.body)) stmt stmt)⟩
      (body ++ .concat (parts.catches.zipIdx.map fun (clause, place) ↦
        flow.lowerCatch below stmt clause place))

/-- The forest of a statement of the given shape, from those of its children. -/
def lowerShape (stmt : StmtId) : Statement → RegionForest
  | .tryBlock parts =>
    match parts.handler with
    | none => flow.lowerGroup below stmt parts
    | some clause =>
      .tree ⟨clause.kind.regionKind, .user, stmt, none,
          flow.exits (.ofParts (parts.body :: parts.catches.map (·.body)) stmt stmt)⟩
        (flow.lowerGroup below stmt parts ++ below clause.body)
  | .synthetic kind body =>
    if (flow.decideCleanup config kind stmt body).isProtected then
      .tree ⟨.finallyBlock, .synthetic kind, stmt, none, flow.exits (.ofScope body stmt)⟩
        (.tree ⟨.tryBlock, .synthetic kind, body, none, flow.exits (.ofScope body stmt)⟩
          (below body))
    else below body
  | .lambda _ => .empty
  | shape => .concat (shape.children.map below)

/-- The forest of a statement. -/
def lower : StmtId → RegionForest :=
  flow.body.recurse
    (fun stmt below ↦
      match flow.body.get? stmt with
      | none => .empty
      | some shape => flow.lowerShape config below stmt shape)
    .empty

end Shapes

/-- A forest depends only on those of the children. -/
theorem lowerShape_congr {below below' : StmtId → RegionForest} {stmt : StmtId}
    {shape : Statement} (same : ∀ child ∈ shape.children, below child = below' child) :
    flow.lowerShape config below stmt shape = flow.lowerShape config below' stmt shape := by
  have children : shape.children.map below = shape.children.map below' :=
    List.map_congr_left same
  cases shape with
  | tryBlock parts =>
    have body : below parts.body = below' parts.body := by
      apply same
      simp [Statement.children, TryStatement.protectedParts]
    have clauses : (parts.catches.zipIdx.map fun (clause, place) ↦
        flow.lowerCatch below stmt clause place) =
        parts.catches.zipIdx.map fun (clause, place) ↦
          flow.lowerCatch below' stmt clause place := by
      apply List.map_congr_left
      intro entry mem
      have handler : below entry.1.body = below' entry.1.body := by
        apply same
        apply List.mem_append_left
        exact List.mem_cons_of_mem _ (List.mem_map_of_mem (List.fst_mem_of_mem_zipIdx mem))
      simp only [lowerCatch, handler]
    have group : flow.lowerGroup below stmt parts = flow.lowerGroup below' stmt parts := by
      simp only [lowerGroup, body, clauses]
    cases found : parts.handler with
    | none => simp only [lowerShape, found, group]
    | some clause =>
      have handler : below clause.body = below' clause.body := by
        apply same
        simp [Statement.children, found]
      simp only [lowerShape, found, group, handler]
  | synthetic kind body => simp only [lowerShape, same body List.mem_cons_self]
  | lambda body => rfl
  | block | conditional | labeled | loop | switch | expression | jump | throwException
  | rethrow => exact congrArg RegionForest.concat children

/-- The forest of a statement is that of its shape over the forests of its children. -/
theorem lower_eq (config : Config) (tree : flow.body.IsTree) {stmt : StmtId} {shape : Statement}
    (found : flow.body.get? stmt = some shape) :
    flow.lower config stmt = flow.lowerShape config (flow.lower config) stmt shape := by
  have has := Body.has_iff_get?.mpr ⟨shape, found⟩
  rw [lower, tree.recurse_eq _ has]
  · simp only [found]
  · intro stmt below below' same
    cases found : flow.body.get? stmt with
    | none => rfl
    | some shape =>
      simp only
      apply lowerShape_congr
      intro child mem
      exact same child (Body.mem_children_of_get? found mem)

section Templates

variable {below : StmtId → RegionForest} {emit : Emitter} {scopes : List StmtId} {stmt : StmtId}

private theorem forest_protectedCode {owner part : StmtId}
    (inner : ∀ scopes, (emit part scopes).forest = below part) :
    (flow.protectedCode emit scopes owner part).forest = below part := by
  simp [protectedCode, inner]

private theorem forest_catchCode {clause : CatchClause} {place : Nat}
    (inner : ∀ scopes, (emit clause.body scopes).forest = below clause.body) :
    (flow.catchCode emit scopes stmt place clause).forest =
      flow.lowerCatch below stmt clause place := by
  simp [catchCode, lowerCatch, forest_protectedCode inner]

private theorem forest_groupCode {parts : TryStatement}
    (inner : ∀ part ∈ parts.protectedParts, ∀ scopes, (emit part scopes).forest = below part) :
    (flow.groupCode emit scopes stmt parts).forest = flow.lowerGroup below stmt parts := by
  have body : (flow.tryBodyCode emit scopes stmt parts.body).forest =
      .tree ⟨.tryBlock, .user, parts.body, none, flow.exits (.ofScope parts.body stmt)⟩
        (below parts.body) := by
    simp [tryBodyCode, forest_protectedCode (inner parts.body List.mem_cons_self)]
  have clauses : (Code.concat (parts.catches.zipIdx.map fun (clause, place) ↦
      flow.catchCode emit scopes stmt place clause)).forest =
      .concat (parts.catches.zipIdx.map fun (clause, place) ↦
        flow.lowerCatch below stmt clause place) := by
    rw [Code.forest_concat, List.map_map]
    apply congrArg RegionForest.concat
    apply List.map_congr_left
    intro entry mem
    apply forest_catchCode
    apply inner
    exact List.mem_cons_of_mem _ (List.mem_map_of_mem (List.fst_mem_of_mem_zipIdx mem))
  by_cases none : parts.catches.isEmpty = true
  · simp only [groupCode, lowerGroup, none, if_true, body]
  · simp [groupCode, lowerGroup, none, body, clauses, TryStatement.protectedParts]

/-- The forest of the code of a statement, if its children are laid out to theirs. -/
theorem forest_shapeCode {shape : Statement}
    (inner : ∀ child ∈ shape.children, ∀ scopes, (emit child scopes).forest = below child) :
    (flow.shapeCode config emit scopes stmt shape).forest =
      flow.lowerShape config below stmt shape := by
  cases shape with
  | block children =>
    simp only [shapeCode, lowerShape, Code.forest_concat, List.map_map]
    exact congrArg RegionForest.concat (List.map_congr_left fun child mem ↦ inner child mem scopes)
  | conditional condition thenBranch elseBranch =>
    have first := inner thenBranch List.mem_cons_self scopes
    cases elseBranch with
    | none => simp [shapeCode, conditionalCode, lowerShape, Statement.children, first]
    | some elseBranch =>
      have second := inner elseBranch (by simp [Statement.children]) scopes
      simp [shapeCode, conditionalCode, lowerShape, Statement.children, first, second]
  | tryBlock parts =>
    have group : (flow.groupCode emit scopes stmt parts).forest =
        flow.lowerGroup below stmt parts := by
      apply forest_groupCode
      intro part mem
      exact inner part (List.mem_append_left _ mem)
    cases found : parts.handler with
    | none => simp [shapeCode, tryCode, lowerShape, found, group]
    | some clause =>
      have handler := inner clause.body (by simp [Statement.children, found])
      simp [shapeCode, tryCode, lowerShape, handlerCode, found, group, handler,
        TryStatement.protectedParts]
  | labeled label body =>
    simp [shapeCode, lowerShape, Statement.children, inner body List.mem_cons_self]
  | loop condition body =>
    simp [shapeCode, loopCode, lowerShape, Statement.children, inner body List.mem_cons_self]
  | switch sections default =>
    have sections : (sections.map fun part ↦ (emit part scopes).forest) = sections.map below :=
      List.map_congr_left fun part mem ↦ inner part mem scopes
    simp [shapeCode, switchCode, lowerShape, Statement.children, Function.comp_def, sections]
  | synthetic kind body =>
    have part := inner body List.mem_cons_self
    by_cases guarded : (flow.decideCleanup config kind stmt body).isProtected = true
    · simp [shapeCode, syntheticCode, lowerShape, guarded, forest_protectedCode part]
      rfl
    · simp [shapeCode, syntheticCode, lowerShape, guarded, part]
  | jump form =>
    obtain ⟨-, code⟩ | ⟨_, _, -, -, code⟩ := flow.jumpCode_eq stmt scopes
    · rw [shapeCode, code]
      rfl
    · rw [shapeCode, code]
      rfl
  | expression | throwException | rethrow | lambda => rfl

end Templates

/-- The code of a statement has the regions that the statement is lowered to, whatever scopes it
lies in. -/
theorem forest_emit (config : Config) (tree : flow.body.IsTree) {stmt : StmtId}
    (has : flow.body.has stmt = true) (scopes : List StmtId) :
    (flow.emit config stmt scopes).forest = flow.lower config stmt := by
  revert scopes
  apply tree.inductionUp (motive := fun stmt ↦ ∀ scopes,
    (flow.emit config stmt scopes).forest = flow.lower config stmt) ?_ has
  intro stmt shape found ih scopes
  have template : (flow.template config scopes stmt shape).forest =
      flow.lowerShape config (flow.lower config) stmt shape := by
    simp [Flow.template, deadNote, forest_shapeCode ih]
  rw [emit_eq config tree found, lower_eq config tree found]
  exact template

/-- The regions made for a statement itself, and not for the statements inside it. -/
def ownHeads (flow : Flow) (config : Config) (stmt : StmtId) (shape : Statement) :
    List RegionHead :=
  (flow.lowerShape config (fun _ ↦ .empty) stmt shape).heads

section Heads

variable {below : StmtId → RegionForest} {stmt : StmtId}

private theorem heads_lowerCatch (below : StmtId → RegionForest) {clause : CatchClause}
    {place : Nat} : (flow.lowerCatch below stmt clause place).heads =
      (flow.lowerCatch (fun _ ↦ .empty) stmt clause place).heads ++ (below clause.body).heads := by
  by_cases filtered : clause.isFiltered = true
  · simp [lowerCatch, filtered, RegionForest.heads]
  · simp [lowerCatch, filtered, RegionForest.heads]

private theorem perm_heads_lowerGroup (below : StmtId → RegionForest) {parts : TryStatement} :
    (flow.lowerGroup below stmt parts).heads.Perm
      ((flow.lowerGroup (fun _ ↦ .empty) stmt parts).heads ++
        parts.protectedParts.flatMap fun part ↦ (below part).heads) := by
  by_cases none : parts.catches.isEmpty = true
  · have empty := List.isEmpty_iff.mp none
    simp [lowerGroup, empty, TryStatement.protectedParts, RegionForest.heads]
  · have bodies : (parts.catches.zipIdx.flatMap fun entry ↦ (below entry.1.body).heads) =
        parts.catches.flatMap fun clause ↦ (below clause.body).heads := by
      conv_rhs => rw [← List.zipIdx_map_fst 0 parts.catches, List.flatMap_map]
    -- The regions inside the body come before those of the clauses.
    simp only [lowerGroup, none, Bool.false_eq_true, if_false, RegionForest.heads_tree,
      RegionForest.heads_append, RegionForest.heads_concat, RegionForest.heads, List.flatMap_map,
      heads_lowerCatch below, TryStatement.protectedParts, List.flatMap_cons, List.cons_append,
      List.nil_append, ← bodies]
    refine .cons _ (.cons _ (((List.flatMap_append_perm _ _ _).symm.append_left _).trans ?_))
    rw [← List.append_assoc, ← List.append_assoc]
    exact List.perm_append_comm.append_right _

/-- The regions of a statement are its own and those of the statements right inside it. -/
theorem perm_heads_lowerShape {shape : Statement} :
    (flow.lowerShape config below stmt shape).heads.Perm
      (flow.ownHeads config stmt shape ++
        shape.laidOut.flatMap fun child ↦ (below child).heads) := by
  cases shape with
  | tryBlock parts =>
    cases found : parts.handler with
    | none =>
      simp only [ownHeads, lowerShape, found, Statement.laidOut, Statement.children,
        Option.map_none, Option.toList_none, List.append_nil]
      exact perm_heads_lowerGroup below
    | some clause =>
      simp only [ownHeads, lowerShape, found, Statement.laidOut, Statement.children,
        Option.map_some, Option.toList_some, List.flatMap_append, List.flatMap_singleton,
        RegionForest.heads_tree, RegionForest.heads_append, RegionForest.heads, List.append_nil,
        List.cons_append]
      rw [← List.append_assoc]
      exact .cons _ ((perm_heads_lowerGroup below).append_right _)
  | synthetic kind body =>
    by_cases guarded : (flow.decideCleanup config kind stmt body).isProtected = true
    · simp [ownHeads, lowerShape, guarded, Statement.laidOut, Statement.children,
        RegionForest.heads]
    · simp [ownHeads, lowerShape, guarded, Statement.laidOut, Statement.children,
        RegionForest.heads]
  | lambda body => simp [ownHeads, lowerShape, Statement.laidOut, RegionForest.heads]
  | block | conditional | labeled | loop | switch | expression | jump | throwException
  | rethrow =>
    simp only [ownHeads, lowerShape, Statement.laidOut, RegionForest.heads_concat,
      List.flatMap_map, RegionForest.heads]
    rw [List.flatMap_eq_nil_iff.mpr fun _ _ ↦ rfl]
    exact .refl _

end Heads

/-- The regions made for a statement of the body itself. -/
def statementHeads (flow : Flow) (config : Config) (stmt : StmtId) : List RegionHead :=
  match flow.body.get? stmt with
  | some shape => flow.ownHeads config stmt shape
  | none => []

/-- The regions of a scope are those of the statements in it that run in its method. -/
theorem perm_heads_lower (config : Config) (tree : flow.body.IsTree) {scope : StmtId}
    (has : flow.body.has scope = true) : (flow.lower config scope).heads.Perm
      ((flow.body.inMethod scope).flatMap (flow.statementHeads config)) := by
  apply tree.inductionUp (motive := fun scope ↦ (flow.lower config scope).heads.Perm
    ((flow.body.inMethod scope).flatMap (flow.statementHeads config))) ?_ has
  intro scope shape found ih
  have own : flow.statementHeads config scope = flow.ownHeads config scope shape := by
    rw [statementHeads, found]
  rw [lower_eq config tree found, tree.inMethod_eq (Body.has_iff_get?.mpr ⟨shape, found⟩),
    Body.children_of_get? found]
  refine perm_heads_lowerShape.trans ?_
  by_cases lambda : flow.body.isLambda scope = true
  · obtain ⟨inner, shaped⟩ := Body.isLambda_iff.mp lambda
    rw [found] at shaped
    cases shaped
    rw [if_pos lambda]
    exact .nil
  · have open' : shape.laidOut = shape.children := by
      cases shape with
      | lambda inner => exact absurd (Body.isLambda_iff.mpr ⟨inner, found⟩) lambda
      | _ => rfl
    rw [if_neg lambda, open', List.flatMap_cons, own, List.flatMap_assoc]
    exact (List.Perm.flatMap_left _ ih).append_left _

/-- A region of a scope is one of a statement in it that runs in its method. -/
theorem mem_heads_lower (config : Config) (tree : flow.body.IsTree) {head : RegionHead}
    {scope : StmtId} (has : flow.body.has scope = true) :
    head ∈ (flow.lower config scope).heads ↔
      ∃ stmt ∈ flow.body.inMethod scope, ∃ shape, flow.body.get? stmt = some shape ∧
        head ∈ flow.ownHeads config stmt shape := by
  rw [(flow.perm_heads_lower config tree has).mem_iff, List.mem_flatMap]
  refine exists_congr fun stmt ↦ and_congr_right fun _ ↦ ?_
  rw [statementHeads]
  cases flow.body.get? stmt <;> simp

/-- The regions that a statement of the given shape is lowered to besides those of its parts. -/
inductive OwnHead (flow : Flow) (config : Config) (stmt : StmtId) : Statement → RegionHead → Prop
  | body (parts : TryStatement) :
    OwnHead flow config stmt (.tryBlock parts)
      ⟨.tryBlock, .user, parts.body, none, flow.exits (.ofScope parts.body stmt)⟩
  | filter {parts : TryStatement} {clause : CatchClause} (mem : clause ∈ parts.catches)
    (info : CatchInfo) :
    OwnHead flow config stmt (.tryBlock parts)
      ⟨.filterBlock, .user, clause.body, some info, []⟩
  | caught {parts : TryStatement} {clause : CatchClause} (mem : clause ∈ parts.catches)
    (info : CatchInfo) :
    OwnHead flow config stmt (.tryBlock parts)
      ⟨.catchBlock, .user, clause.body, some info,
        flow.exits ((ExitQuery.ofScope clause.body stmt).owning clause.body)⟩
  | group (parts : TryStatement) :
    OwnHead flow config stmt (.tryBlock parts)
      ⟨.tryBlock, .user, stmt, none, flow.exits (.ofParts parts.protectedParts stmt stmt)⟩
  | handler {parts : TryStatement} {clause : HandlerClause} (found : parts.handler = some clause) :
    OwnHead flow config stmt (.tryBlock parts)
      ⟨clause.kind.regionKind, .user, stmt, none,
        flow.exits (.ofParts parts.protectedParts stmt stmt)⟩
  | cleanup {kind : SyntheticKind} {inner : StmtId}
    (guarded : (flow.decideCleanup config kind stmt inner).isProtected = true) :
    OwnHead flow config stmt (.synthetic kind inner)
      ⟨.finallyBlock, .synthetic kind, stmt, none, flow.exits (.ofScope inner stmt)⟩
  | guarded {kind : SyntheticKind} {inner : StmtId}
    (guarded : (flow.decideCleanup config kind stmt inner).isProtected = true) :
    OwnHead flow config stmt (.synthetic kind inner)
      ⟨.tryBlock, .synthetic kind, inner, none, flow.exits (.ofScope inner stmt)⟩

section OwnHeads

variable {stmt : StmtId} {head : RegionHead} {parts : TryStatement}

private theorem ownHead_lowerCatch {clause : CatchClause} {place : Nat}
    (mem : clause ∈ parts.catches)
    (own : head ∈ (flow.lowerCatch (fun _ ↦ .empty) stmt clause place).heads) :
    flow.OwnHead config stmt (.tryBlock parts) head := by
  by_cases filtered : clause.isFiltered = true
  · simp only [lowerCatch, filtered, if_true, RegionForest.heads_append,
      RegionForest.heads_tree, RegionForest.heads, List.mem_append, List.mem_singleton] at own
    rcases own with rfl | rfl
    · exact .filter mem _
    · exact .caught mem _
  · simp only [lowerCatch, filtered, Bool.false_eq_true, if_false, RegionForest.empty_append,
      RegionForest.heads_tree, RegionForest.heads, List.mem_singleton] at own
    subst own
    exact .caught mem _

private theorem ownHead_lowerGroup
    (own : head ∈ (flow.lowerGroup (fun _ ↦ .empty) stmt parts).heads) :
    flow.OwnHead config stmt (.tryBlock parts) head := by
  by_cases none : parts.catches.isEmpty = true
  · simp only [lowerGroup, none, if_true, RegionForest.heads_tree, RegionForest.heads,
      List.mem_singleton] at own
    subst own
    exact .body parts
  · simp only [lowerGroup, none, Bool.false_eq_true, if_false, RegionForest.heads_tree,
      RegionForest.heads_append, RegionForest.heads, RegionForest.heads_concat,
      List.mem_cons, List.mem_append, List.not_mem_nil, or_false, List.mem_flatMap,
      List.mem_map] at own
    rcases own with rfl | rfl | ⟨_, ⟨entry, mem, rfl⟩, own⟩
    · exact .group parts
    · exact .body parts
    · exact ownHead_lowerCatch (List.fst_mem_of_mem_zipIdx mem) own

/-- The regions of a statement of the given shape. -/
theorem ownHead_of_mem {shape : Statement} (own : head ∈ flow.ownHeads config stmt shape) :
    flow.OwnHead config stmt shape head := by
  cases shape with
  | tryBlock parts =>
    cases found : parts.handler with
    | none =>
      simp only [ownHeads, lowerShape, found] at own
      exact ownHead_lowerGroup own
    | some clause =>
      simp only [ownHeads, lowerShape, found, RegionForest.heads_tree,
        RegionForest.heads_append, RegionForest.heads, List.append_nil, List.mem_cons] at own
      rcases own with rfl | own
      · exact .handler found
      · exact ownHead_lowerGroup own
  | synthetic kind body =>
    by_cases guarded : (flow.decideCleanup config kind stmt body).isProtected = true
    · simp only [ownHeads, lowerShape, guarded, if_true, RegionForest.heads_tree,
        RegionForest.heads, List.mem_cons, List.not_mem_nil, or_false] at own
      rcases own with rfl | rfl
      · exact .cleanup guarded
      · exact .guarded guarded
    · simp [ownHeads, lowerShape, guarded, RegionForest.heads] at own
  | lambda body => simp [ownHeads, lowerShape, RegionForest.heads] at own
  | block | conditional | labeled | loop | switch | expression | jump | throwException
  | rethrow => simp [ownHeads, lowerShape, RegionForest.heads] at own

end OwnHeads

/-- The exits of a region are what the analysis answers to a query. A filter has none. -/
def AnswersQuery (flow : Flow) (head : RegionHead) : Prop :=
  head.kind = .filterBlock ∧ head.exits = [] ∨
    ∃ query, flow.exits? query = .ok head.exits

/-- A query over statements of the body has an answer. -/
theorem AnswersQuery.of_query (tree : flow.body.IsTree) {query : ExitQuery}
    (named : ∀ stmt ∈ query.named, flow.body.has stmt = true) {head : RegionHead}
    (exits : head.exits = flow.exits query) : flow.AnswersQuery head :=
  .inr ⟨query, exits ▸ exits?_of_named tree named⟩

/-- The exits of each region of a statement are answers to a query. -/
theorem answers_of_ownHeads (tree : flow.body.IsTree) {stmt : StmtId} {shape : Statement}
    (found : flow.body.get? stmt = some shape) {head : RegionHead}
    (own : head ∈ flow.ownHeads config stmt shape) : flow.AnswersQuery head := by
  have has := Body.has_iff_get?.mpr ⟨shape, found⟩
  have child (inner : StmtId) (mem : inner ∈ shape.children) : flow.body.has inner = true :=
    tree.has_child (Body.mem_children_of_get? found mem)
  have scope {part : StmtId} (mem : part ∈ shape.children) :=
    ExitQuery.named_ofScope has (child part mem)
  have whole {parts : List StmtId} (children : ∀ part ∈ parts, part ∈ shape.children) :=
    ExitQuery.named_ofParts has fun part mem ↦ child part (children part mem)
  cases ownHead_of_mem own with
  | body parts =>
    exact .of_query tree (scope (List.mem_append_left _ List.mem_cons_self)) rfl
  | filter mem info => exact .inl ⟨rfl, rfl⟩
  | @caught parts clause mem info =>
    have part := child clause.body
      (List.mem_append_left _ (List.mem_cons_of_mem _ (List.mem_map_of_mem mem)))
    exact .of_query tree (ExitQuery.named_owning has part) rfl
  | group parts =>
    exact .of_query tree (whole fun part mem ↦ List.mem_append_left _ mem) rfl
  | handler found =>
    exact .of_query tree (whole fun part mem ↦ List.mem_append_left _ mem) rfl
  | cleanup guarded => exact .of_query tree (scope List.mem_cons_self) rfl
  | guarded guarded => exact .of_query tree (scope List.mem_cons_self) rfl

section Methods

variable {root : StmtId} (config) (tree : flow.body.IsTree)
  (rooted : flow.body.has root = true)

include tree rooted

/-- The regions of a method are listed as the nodes of a tree: the method over the forest of its
root. -/
theorem map_seat_methodTree : (flow.methodTree config root).regions.map Region.seat =
    (RegionForest.tree (flow.methodHead root) (flow.lower config root)).listing 0 none := by
  have inside : (flow.methodCode config root).forest = flow.lower config root := by
    rw [methodCode, Code.forest_append, forest_emit config tree rooted]
    obtain none | epilogue := flow.epilogue_cases root (flow.emit config root []).layout
    · rw [none]
      exact RegionForest.append_empty
    · rw [epilogue]
      exact RegionForest.append_empty
  rw [methodTree, Code.map_seat_regions, Code.forest_region, inside]

/-- The regions of a method are the method and those of its root, in pre-order. -/
theorem map_toRegionHead_methodTree :
    (flow.methodTree config root).regions.map (·.toRegionHead) =
      flow.methodHead root :: (flow.lower config root).heads := by
  have seats := congrArg (List.map (·.toRegionHead)) (map_seat_methodTree config tree rooted)
  rw [List.map_map, RegionForest.map_toRegionHead_listing, RegionForest.heads_tree] at seats
  exact seats

/-- A region of a method is that of the method or one of a statement in it. -/
theorem toRegionHead_methodTree {region : Region}
    (listed : region ∈ (flow.methodTree config root).regions) :
    region.toRegionHead = flow.methodHead root ∨
      ∃ stmt ∈ flow.body.inMethod root, ∃ shape, flow.body.get? stmt = some shape ∧
        region.toRegionHead ∈ flow.ownHeads config stmt shape := by
  have head := List.mem_map_of_mem (f := (·.toRegionHead)) listed
  rwa [map_toRegionHead_methodTree config tree rooted, List.mem_cons,
    mem_heads_lower config tree rooted] at head

end Methods

end Flow

/-- The regions of a laid out method, listed in the order of their ids, are a method region over
the forest that its root is lowered to: ids count the regions in pre-order, and the links between
parents and children follow the nesting. The exits of each region are answers of the analysis. -/
theorem Config.regions_eq_lower {draft : Draft} {body : Body} (made : draft.toBody = .ok body)
    {flow : Flow} (analysed : Flow.ofBody body = .ok flow) {config : Config} {tree : RegionTree}
    (builds : config.Builds body tree) :
    tree.regions.map Region.seat =
        (RegionForest.tree ⟨.method, .method, tree.method, none,
            flow.exits (.ofScope tree.method tree.method)⟩
          (flow.lower config tree.method)).listing 0 none ∧
      ∀ region ∈ tree.regions, flow.AnswersQuery region.toRegionHead := by
  obtain ⟨accepted, rfl, root, member, rfl⟩ := builds.exists_root made analysed
  have isTree := accepted.wellFormed.toIsTree
  have rooted := isTree.has_of_mem_methods member
  refine ⟨flow.map_seat_methodTree config isTree rooted, ?_⟩
  intro region listed
  rcases flow.toRegionHead_methodTree config isTree rooted listed with
    same | ⟨stmt, -, shape, found, own⟩
  · rw [same]
    exact .of_query isTree (ExitQuery.named_ofScope rooted rooted) rfl
  · exact Flow.answers_of_ownHeads isTree found own

/-- A lock that a `return` leaves, in a `try` with a filtered catch clause and a `finally`. -/
def Draft.layered : Draft where
  statements := #[.jump .returnOut, .synthetic .lock ⟨0⟩, .throwException, .expression [],
    .tryBlock ⟨⟨1⟩, [⟨none, some [], none, ⟨2⟩⟩], some ⟨.finallyBlock, ⟨3⟩⟩⟩]
  labelCount := 0
  localCount := 0
  root := ⟨4⟩

/-- Its regions are a `finally` over a group of the body, in which the lock has its own `finally`,
the filter and the handler. -/
theorem Config.regions_eq_lower_layered :
    ∃ body flow tree, Draft.layered.toBody = .ok body ∧ Flow.ofBody body = .ok flow ∧
      Config.default.build body = .ok tree ∧
      (flow.lower .default tree.method).heads.map (·.kind) =
        [.finallyBlock, .tryBlock, .tryBlock, .finallyBlock, .tryBlock, .filterBlock,
          .catchBlock] ∧
      tree.regions.map Region.seat =
        (RegionForest.tree ⟨.method, .method, tree.method, none,
            flow.exits (.ofScope tree.method tree.method)⟩
          (flow.lower .default tree.method)).listing 0 none := by
  have nests : Config.default.tests .layered (fun flow tree ↦ decide
      ((flow.lower .default tree.method).heads.map (·.kind) =
        [.finallyBlock, .tryBlock, .tryBlock, .finallyBlock, .tryBlock, .filterBlock,
          .catchBlock])) = true := by
    decide +kernel
  obtain ⟨body, flow, tree, made, analysed, built, holds⟩ := exists_built nests
  exact ⟨body, flow, tree, made, analysed, built, of_decide_eq_true holds,
    (regions_eq_lower made analysed (.outer built)).1⟩

end ProtectedRegions
