import ProtectedRegions.Flow.Role
import ProtectedRegions.Proofs.Body.Tree

/-!
# Lineages and recursion over a tree

In a tree the bounded definitions have their plain equations: the lineage of a child is the
child before the lineage of its parent, and recursion over the body sees at each statement what
it computes for the children. Searching a lineage is therefore a search step by step outward.
-/

namespace ProtectedRegions

/-- The role that a shape gives to one of its children. -/
def Statement.childRole? (stmt : StmtId) : Statement → Option Role
  | .tryBlock parts => parts.role? stmt
  | .synthetic kind _ => some (.syntheticBody kind)
  | .lambda _ => some .lambdaBody
  | _ => none

namespace Body

variable {body : Body}

/-- Nothing is around a statement without a parent. -/
theorem lineage_of_orphan {stmt : StmtId} (orphan : body.parent? stmt = none) :
    body.lineage stmt = [stmt] := by
  unfold lineage
  cases body.size <;> simp [lineageTo, orphan]

/-- A statement without a parent has no role. -/
theorem role?_of_orphan {stmt : StmtId} (orphan : body.parent? stmt = none) :
    body.role? stmt = none := by
  rw [role?, parentShape?, orphan]
  rfl

/-- A statement without a parent is counted as part of the outer method. -/
theorem methodOf_of_orphan {stmt : StmtId} (orphan : body.parent? stmt = none) :
    body.methodOf stmt = body.root := by
  rw [methodOf, lineage_of_orphan orphan, List.find?_singleton, role?_of_orphan orphan]
  rfl

namespace IsTree

variable (tree : body.IsTree)

include tree

/-- Enough steps out reach the root, and further ones change nothing. -/
theorem lineageTo_stable {depth first second : Nat} {stmt : StmtId}
    (at_depth : body.AtDepth depth stmt) (le : depth ≤ first) (le' : depth ≤ second) :
    body.lineageTo first stmt = body.lineageTo second stmt := by
  induction at_depth generalizing first second with
  | root =>
    cases first <;> cases second <;> simp [lineageTo, tree.parent?_root]
  | @child depth parent stmt outer mem ih =>
    obtain ⟨first, rfl⟩ := Nat.exists_eq_add_of_le' (Nat.le_trans (Nat.le_add_left 1 depth) le)
    obtain ⟨second, rfl⟩ :=
      Nat.exists_eq_add_of_le' (Nat.le_trans (Nat.le_add_left 1 depth) le')
    simp only [lineageTo, tree.parent?_eq_some.mpr mem]
    rw [ih (Nat.le_of_succ_le_succ le) (Nat.le_of_succ_le_succ le')]

/-- Nothing is around the root. -/
theorem lineage_root : body.lineage body.root = [body.root] :=
  lineage_of_orphan tree.parent?_root

/-- A child and its parent with what is around it. -/
theorem lineage_child {parent stmt : StmtId} (mem : stmt ∈ body.children parent) :
    body.lineage stmt = stmt :: body.lineage parent := by
  obtain ⟨depth, lt, at_depth⟩ := tree.attached (has_of_mem_children mem)
  have stable := tree.lineageTo_stable (.child at_depth mem) (Nat.le_of_lt_succ
    (Nat.succ_lt_succ lt)) (Nat.le_refl (depth + 1))
  have stable' := tree.lineageTo_stable at_depth (Nat.le_of_lt lt) (Nat.le_refl depth)
  rw [lineage, stable, lineage, stable']
  simp [lineageTo, tree.parent?_eq_some.mpr mem]

/-- The ancestors of a child are its parent and what is around that. -/
theorem ancestors_child {parent stmt : StmtId} (mem : stmt ∈ body.children parent) :
    body.ancestors stmt = body.lineage parent := by
  rw [ancestors, tree.lineage_child mem, List.tail_cons]

/-- The lineage of a statement holds the statements it is inside of. -/
theorem mem_lineage {outer stmt : StmtId} (has : body.has stmt = true) :
    outer ∈ body.lineage stmt ↔ body.Inside outer stmt := by
  refine tree.inductionDown (motive := fun stmt ↦ outer ∈ body.lineage stmt ↔
    body.Inside outer stmt) ?_ (fun parent stmt mem ih ↦ ?_) has
  · rw [tree.lineage_root, List.mem_singleton]
    constructor
    · rintro rfl
      exact .refl
    · exact tree.eq_root_of_inside
  · rw [tree.lineage_child mem, List.mem_cons, tree.inside_child_iff mem, ih]

/-- Recursion sees the same results at every depth that is enough. -/
theorem descend_stable {α : Type} {step : StmtId → (StmtId → α) → α} {cut : α}
    (local_step : ∀ stmt below below',
      (∀ child ∈ body.children stmt, below child = below' child) → step stmt below = step stmt below')
    {depth first second : Nat} {stmt : StmtId} (at_depth : body.AtDepth depth stmt)
    (le : body.size ≤ depth + first) (le' : body.size ≤ depth + second) :
    StatementTable.descend step cut first stmt = StatementTable.descend step cut second stmt := by
  induction first generalizing depth second stmt with
  | zero => exact absurd (tree.depth_lt at_depth) (by omega)
  | succ first ih =>
    cases second with
    | zero => exact absurd (tree.depth_lt at_depth) (by omega)
    | succ second =>
      exact local_step _ _ _ fun child mem ↦
        ih (.child at_depth mem) (by omega) (by omega)

/-- Recursion over the body follows its equation. The step must look at children only. -/
theorem recurse_eq {α : Type} {step : StmtId → (StmtId → α) → α} {cut : α}
    (local_step : ∀ stmt below below',
      (∀ child ∈ body.children stmt, below child = below' child) → step stmt below = step stmt below')
    {stmt : StmtId} (has : body.has stmt = true) :
    body.recurse step cut stmt = step stmt (body.recurse step cut) := by
  obtain ⟨depth, lt, at_depth⟩ := tree.attached has
  have enough : body.size ≤ depth + (body.size + 1) := by omega
  calc body.recurse step cut stmt
      = StatementTable.descend step cut (body.size + 1) stmt :=
        tree.descend_stable local_step at_depth (Nat.le_add_left ..) enough
    _ = step stmt (body.recurse step cut) := rfl

end IsTree

/-! ### Roles and methods -/

/-- A lambda is told by its shape. -/
theorem isLambda_iff {stmt : StmtId} :
    body.isLambda stmt = true ↔ ∃ inner, body.get? stmt = some (.lambda inner) := by
  unfold isLambda
  cases found : body.get? stmt with
  | none => simp
  | some shape => cases shape <;> simp [Statement.isLambda]

/-- A root of a method is the outer root or the body of a lambda. -/
theorem mem_methods {root : StmtId} :
    root ∈ body.methods ↔ root = body.root ∨ ∃ stmt, body.get? stmt = some (.lambda root) := by
  rw [methods, List.mem_cons, lambdaBodies, List.mem_filterMap]
  refine or_congr Iff.rfl ⟨?_, ?_⟩
  · rintro ⟨shape, mem, h⟩
    obtain ⟨index, found⟩ := List.mem_iff_getElem?.mp mem
    cases shape <;> simp only [Option.some.injEq, reduceCtorEq] at h
    subst h
    exact ⟨⟨index⟩, by simpa [get?, StatementTable.shape?] using found⟩
  · rintro ⟨stmt, found⟩
    have listed : body.statements.toList[stmt.index]? = some (.lambda root) := by
      simpa [get?, StatementTable.shape?] using found
    exact ⟨_, List.mem_iff_getElem?.mpr ⟨stmt.index, listed⟩, rfl⟩

namespace IsTree

variable (tree : body.IsTree)

include tree

/-- The role of a child is the one that the shape of its parent gives it. -/
theorem role?_child {parent stmt : StmtId} {shape : Statement} (mem : stmt ∈ shape.children)
    (found : body.get? parent = some shape) : body.role? stmt = shape.childRole? stmt := by
  have outer := tree.parent?_eq_some.mpr (mem_children_of_get? found mem)
  simp only [role?, parentShape?, outer, Option.bind_some, found]
  cases shape <;> rfl

/-- The root has no role. -/
theorem role?_root : body.role? body.root = none := role?_of_orphan tree.parent?_root

/-- The bodies of lambdas and nothing else have the role of one. -/
theorem role?_eq_lambdaBody {parent stmt : StmtId} (mem : stmt ∈ body.children parent) :
    body.role? stmt = some .lambdaBody ↔ body.isLambda parent = true := by
  obtain ⟨shape, found, mem⟩ := get?_of_mem_children mem
  rw [tree.role?_child mem found, isLambda, found]
  cases shape with
  | tryBlock parts =>
    simp only [Option.any_some, Statement.isLambda, Bool.false_eq_true, iff_false,
      Statement.childRole?, TryStatement.role?]
    split
    · simp
    · split
      · simp
      · cases parts.handler.filter (·.body == stmt) <;> simp
  | _ => simp [Statement.isLambda, Statement.childRole?]

/-- The outer method is that of the root. -/
theorem methodOf_root : body.methodOf body.root = body.root :=
  methodOf_of_orphan tree.parent?_root

/-- The body of a lambda is the root of its own method; other children run in the method of
their parent. -/
theorem methodOf_child {parent stmt : StmtId} (mem : stmt ∈ body.children parent) :
    body.methodOf stmt = if body.isLambda parent then stmt else body.methodOf parent := by
  unfold methodOf
  rw [tree.lineage_child mem, List.find?_cons]
  have role := tree.role?_eq_lambdaBody mem
  by_cases lambda : body.isLambda parent = true
  · simp [lambda, role.mpr lambda]
  · rw [if_neg lambda]
    have : (body.role? stmt == some .lambdaBody) = false := by
      simpa using fun h ↦ lambda (role.mp h)
    rw [this]

/-- A root of a method is a statement. -/
theorem has_of_mem_methods {root : StmtId} (h : root ∈ body.methods) : body.has root = true := by
  rcases mem_methods.mp h with rfl | ⟨stmt, found⟩
  · exact tree.has_root
  · exact tree.has_child (mem_children_of_get? found (List.mem_singleton_self _))

omit tree in
/-- What a table entry gives as the body of a lambda is a child of the entry. -/
private theorem mem_children_of_lambda {index : Nat} {inner : StmtId}
    (lt : index < body.statements.toList.length)
    (h : (match body.statements.toList[index] with
      | .lambda inner => some inner
      | _ => none) = some inner) : inner ∈ body.children ⟨index⟩ := by
  have found : body.get? ⟨index⟩ = some body.statements.toList[index] := by
    simp [get?, StatementTable.shape?]
  cases shape : body.statements.toList[index] <;>
    simp only [shape, Option.some.injEq, reduceCtorEq] at h
  rw [shape] at found
  exact mem_children_of_get? found (h ▸ List.mem_singleton_self _)

/-- No method is listed twice. -/
theorem nodup_methods : body.methods.Nodup := by
  refine List.nodup_cons.mpr ⟨fun mem ↦ ?_, ?_⟩
  · obtain ⟨shape, mem, h⟩ := List.mem_filterMap.mp mem
    obtain ⟨index, found⟩ := List.mem_iff_getElem?.mp mem
    cases shape <;> simp only [Option.some.injEq, reduceCtorEq] at h
    subst h
    have found : body.get? ⟨index⟩ = some (.lambda body.root) := by
      simpa [get?, StatementTable.shape?] using found
    exact tree.root_not_mem _ (mem_children_of_get? found (List.mem_singleton_self _))
  · rw [lambdaBodies, List.Nodup, List.pairwise_filterMap, List.pairwise_iff_getElem]
    intro first second lt lt' before inner h inner' h' same
    subst same
    -- Two lambdas with one body would both be its parent.
    have := tree.parent_unique (mem_children_of_lambda lt h) (mem_children_of_lambda lt' h')
    simp only [StmtId.mk.injEq] at this
    omega

/-- A root of a method runs in its own method. -/
theorem methodOf_of_mem_methods {root : StmtId} (h : root ∈ body.methods) :
    body.methodOf root = root := by
  rcases mem_methods.mp h with rfl | ⟨stmt, found⟩
  · exact tree.methodOf_root
  · rw [tree.methodOf_child (mem_children_of_get? found (List.mem_singleton_self _)),
      if_pos (isLambda_iff.mpr ⟨_, found⟩)]

/-- The method of a statement is one of the methods, and the statement is inside it. -/
theorem methodOf_spec {stmt : StmtId} (has : body.has stmt = true) :
    body.methodOf stmt ∈ body.methods ∧ body.Inside (body.methodOf stmt) stmt := by
  refine tree.inductionDown (motive := fun stmt ↦ body.methodOf stmt ∈ body.methods ∧
    body.Inside (body.methodOf stmt) stmt) ?_ (fun parent stmt mem ih ↦ ?_) has
  · rw [tree.methodOf_root]
    exact ⟨List.mem_cons_self, .refl⟩
  · rw [tree.methodOf_child mem]
    split
    · next lambda =>
      obtain ⟨inner, found⟩ := isLambda_iff.mp lambda
      rw [children_of_get? found] at mem
      obtain rfl := List.mem_singleton.mp mem
      exact ⟨mem_methods.mpr (.inr ⟨_, found⟩), .refl⟩
    · exact ⟨ih.1, .child ih.2 mem⟩

/-- The method of a method root is that root. -/
theorem methodOf_methodOf {stmt : StmtId} (has : body.has stmt = true) :
    body.methodOf (body.methodOf stmt) = body.methodOf stmt :=
  tree.methodOf_of_mem_methods (tree.methodOf_spec has).1

/-- Inside a statement, what does not run in the method of the statement is inside one of the
lambda bodies below it. -/
theorem methodOf_of_inside {outer inner : StmtId} (h : body.Inside outer inner)
    (has : body.has inner = true) :
    body.methodOf inner = body.methodOf outer ∨
      (body.Inside outer (body.methodOf inner) ∧ body.methodOf inner ≠ outer) := by
  induction h with
  | refl => exact .inl rfl
  | @child parent stmt outside mem ih =>
    rw [tree.methodOf_child mem]
    split
    · refine .inr ⟨.child outside mem, fun same ↦ ?_⟩
      exact tree.not_inside_parent mem (same ▸ outside)
    · exact ih (has_of_mem_children mem)

/-- What runs in the method of an inner statement, and is inside an outer one of the same method,
is separated from it by no lambda. -/
theorem methodOf_between {outer middle inner : StmtId} (first : body.Inside outer middle)
    (second : body.Inside middle inner) (has : body.has inner = true)
    (same : body.methodOf inner = body.methodOf outer) :
    body.methodOf middle = body.methodOf outer := by
  have has' := has_of_inside second has
  rcases tree.methodOf_of_inside first has' with h | ⟨below, different⟩
  · exact h
  · rcases tree.methodOf_of_inside second has with h | ⟨below', different'⟩
    · exact h ▸ same
    · -- The method of `inner` would start below `middle`, yet hold `outer` above it.
      rw [same] at below' different'
      have around := (tree.methodOf_spec (has_of_inside first has')).2
      have loop := tree.inside_antisymm has' (around.trans first) below'
      exact absurd loop different'

end IsTree
end Body

namespace TryStatement

variable {parts : TryStatement}

/-- The body of a `try` has the role of one. -/
theorem role?_body : parts.role? parts.body = some .tryBody := if_pos rfl

/-- A catch body has the role of one. -/
theorem role?_catch (nodup : (Statement.tryBlock parts).children.Nodup) {clause : CatchClause}
    (mem : clause ∈ parts.catches) :
    ∃ place, parts.role? clause.body = some (.catchBody place) := by
  have different : parts.body ≠ clause.body := by
    intro same
    rw [Statement.children, protectedParts, List.cons_append, List.nodup_cons] at nodup
    exact nodup.1 (List.mem_append_left _ (same ▸ List.mem_map_of_mem mem))
  rw [role?, if_neg different]
  cases found : parts.catches.findIdx? (·.body == clause.body) with
  | none =>
    have := List.findIdx?_eq_none_iff.mp found clause mem
    simp at this
  | some place => exact ⟨place, rfl⟩

/-- The body of a handler has the role of one. -/
theorem role?_handler (nodup : (Statement.tryBlock parts).children.Nodup) {clause : HandlerClause}
    (found : parts.handler = some clause) :
    parts.role? clause.body = some (.handler clause.kind) := by
  have apart : clause.body ∉ parts.protectedParts := by
    intro mem
    rw [Statement.children, found] at nodup
    exact (List.nodup_append.mp nodup).2.2 _ mem _ (List.mem_singleton_self _) rfl
  have different : parts.body ≠ clause.body := fun same ↦ apart (same ▸ List.mem_cons_self)
  have none' : parts.catches.findIdx? (·.body == clause.body) = none := by
    rw [List.findIdx?_eq_none_iff]
    intro other mem
    rw [beq_eq_false_iff_ne]
    intro same
    exact apart (List.mem_cons_of_mem _ (same ▸ List.mem_map_of_mem mem))
  rw [role?, if_neg different, none', found]
  simp only [Option.filter_some, beq_self_eq_true, if_true, Option.map_some]

end TryStatement

namespace Body.IsTree

variable {body : Body} (tree : body.IsTree)

include tree

/-- A protected part of a `try` has the role of one, and its `finally` is that of the `try`. -/
theorem role?_protectedPart {stmt part : StmtId} {parts : TryStatement}
    (found : body.get? stmt = some (.tryBlock parts)) (mem : part ∈ parts.protectedParts) :
    (body.role? part = some .tryBody ∨ ∃ place, body.role? part = some (.catchBody place)) ∧
      body.finallyOf? part = parts.finallyBody? := by
  have nodup : (Statement.tryBlock parts).children.Nodup := by
    rw [← children_of_get? found]
    exact tree.nodup_children stmt
  have child : part ∈ (Statement.tryBlock parts).children := List.mem_append_left _ mem
  have outer : body.parentShape? part = some (.tryBlock parts) := by
    rw [parentShape?, tree.parent?_eq_some.mpr (mem_children_of_get? found child)]
    exact found
  have role := tree.role?_child child found
  rw [finallyOf?, outer, role, Statement.childRole?]
  rcases List.mem_cons.mp mem with rfl | mem
  · rw [TryStatement.role?_body]
    exact ⟨.inl rfl, rfl⟩
  · obtain ⟨clause, listed, rfl⟩ := List.mem_map.mp mem
    obtain ⟨place, role⟩ := TryStatement.role?_catch nodup listed
    rw [role]
    exact ⟨.inr ⟨place, rfl⟩, rfl⟩

/-- The handler body of a `try` has the role of one. -/
theorem role?_handlerBody {stmt : StmtId} {parts : TryStatement} {clause : HandlerClause}
    (found : body.get? stmt = some (.tryBlock parts)) (handler : parts.handler = some clause) :
    body.role? clause.body = some (.handler clause.kind) := by
  have nodup : (Statement.tryBlock parts).children.Nodup := by
    rw [← children_of_get? found]
    exact tree.nodup_children stmt
  rw [tree.role?_child (by simp [Statement.children, handler]) found, Statement.childRole?,
    TryStatement.role?_handler nodup handler]

/-- The body of a synthetic statement has the role of one. -/
theorem role?_syntheticBody {stmt inner : StmtId} {kind : SyntheticKind}
    (found : body.get? stmt = some (.synthetic kind inner)) :
    body.role? inner = some (.syntheticBody kind) :=
  tree.role?_child (List.mem_singleton_self _) found

/-- The root of a method is no protected scope. -/
theorem not_protected_of_mem_methods {root : StmtId} (mem : root ∈ body.methods) :
    (body.role? root).any (·.isProtected) = false := by
  rcases mem_methods.mp mem with rfl | ⟨stmt, found⟩
  · rw [tree.role?_root]
    rfl
  · rw [tree.role?_child (List.mem_singleton_self _) found]
    rfl

/-- Only the body of a synthetic statement has the role of one. -/
theorem get?_of_syntheticBody {stmt inner : StmtId} {kind : SyntheticKind}
    (role : body.role? inner = some (.syntheticBody kind)) (outer : body.parent? inner = some stmt) :
    body.get? stmt = some (.synthetic kind inner) := by
  obtain ⟨shape, found, mem⟩ := get?_of_mem_children (tree.parent?_eq_some.mp outer)
  rw [tree.role?_child mem found] at role
  cases shape with
  | synthetic kind' body' =>
    cases role
    rw [List.mem_singleton.mp mem]
    exact found
  | tryBlock parts =>
    rw [Statement.childRole?, TryStatement.role?] at role
    split at role
    · cases role
    · split at role
      · cases role
      · obtain ⟨clause, -, same⟩ := Option.map_eq_some_iff.mp role
        cases same
  | _ => cases role

end Body.IsTree
end ProtectedRegions
