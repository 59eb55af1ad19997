import ProtectedRegions.Body.Basic

/-!
# Bodies as trees

The laws under which a body is a tree, and what follows from them: each statement has one
depth and one lineage, statements can be reasoned about from the root down and from the leaves
up, and recursion over the body follows its equation. `Inside` is lexical containment.
-/

namespace ProtectedRegions

namespace Statement

/-- The locals that the catch clauses of a shape bind. -/
def binders : Statement → List LocalId
  | .tryBlock parts => parts.catches.filterMap (·.binder)
  | _ => []

/-- A `try` has a handler of some kind, and a default section is one of the sections. -/
def IsComplete : Statement → Prop
  | .tryBlock parts => parts.catches ≠ [] ∨ parts.handler.isSome = true
  | .switch sections (some default) => default < sections.length
  | _ => True

end Statement

/-- The locals that the entries of a table bind. -/
def bindersOf (entries : List (StmtId × Statement)) : List LocalId :=
  entries.flatMap fun (_, shape) ↦ shape.binders

namespace Body

/-- The statement hangs `depth` steps below the root. -/
inductive AtDepth (body : Body) : Nat → StmtId → Prop
  | root : AtDepth body 0 body.root
  | child {depth : Nat} {parent stmt : StmtId} (outer : AtDepth body depth parent)
      (mem : stmt ∈ body.children parent) : AtDepth body (depth + 1) stmt

/-- The laws of a tree: parents and children agree, the root has no parent, and each statement
hangs off the root at a depth below the number of statements. -/
structure IsTree (body : Body) : Prop where
  has_root : body.has body.root = true
  has_child {parent stmt : StmtId} : stmt ∈ body.children parent → body.has stmt = true
  parent?_eq_some {parent stmt : StmtId} :
    body.parent? stmt = some parent ↔ stmt ∈ body.children parent
  parent?_root : body.parent? body.root = none
  nodup_children (parent : StmtId) : (body.children parent).Nodup
  attached {stmt : StmtId} : body.has stmt = true → ∃ depth < body.size, body.AtDepth depth stmt

/-- What the checks of a draft establish of its body: it is a tree, labels and catch locals are
defined once, and each shape is complete. -/
structure WellFormed (body : Body) : Prop extends IsTree body where
  labelTarget?_eq_some {label : LabelId} {stmt : StmtId} :
    body.labelTarget? label = some stmt ↔ ∃ inner, body.get? stmt = some (.labeled label inner)
  complete {stmt : StmtId} {shape : Statement} : body.get? stmt = some shape → shape.IsComplete
  nodup_binders : (bindersOf body.entries).Nodup

/-- Lexical containment: `inner` is `outer` or hangs somewhere below it. -/
inductive Inside (body : Body) (outer : StmtId) : StmtId → Prop
  | refl : Inside body outer outer
  | child {parent stmt : StmtId} (outside : Inside body outer parent)
      (mem : stmt ∈ body.children parent) : Inside body outer stmt

variable {body : Body}

/-- An id with a shape names a statement. -/
theorem has_iff_get? {stmt : StmtId} :
    body.has stmt = true ↔ ∃ shape, body.get? stmt = some shape := by
  constructor
  · intro h
    exact ⟨_, Array.getElem?_eq_getElem (of_decide_eq_true h)⟩
  · rintro ⟨shape, h⟩
    exact decide_eq_true (Array.getElem?_eq_some_iff.mp h).1

/-- The children of a statement are those of its shape. -/
theorem children_of_get? {stmt : StmtId} {shape : Statement} (h : body.get? stmt = some shape) :
    body.children stmt = shape.children := by
  simp only [children, StatementTable.childrenOf]
  rw [show body.statements.shape? stmt = some shape from h]

/-- A child that the shape of a statement names is a child of the statement. -/
theorem mem_children_of_get? {stmt child : StmtId} {shape : Statement}
    (h : body.get? stmt = some shape) (mem : child ∈ shape.children) :
    child ∈ body.children stmt := by
  rw [children_of_get? h]
  exact mem

/-- What has a child is a statement of a shape that names the child. -/
theorem get?_of_mem_children {parent stmt : StmtId} (h : stmt ∈ body.children parent) :
    ∃ shape, body.get? parent = some shape ∧ stmt ∈ shape.children := by
  cases found : body.get? parent with
  | none =>
    simp only [children, StatementTable.childrenOf] at h
    rw [show body.statements.shape? parent = none from found] at h
    cases h
  | some shape => exact ⟨shape, rfl, children_of_get? found ▸ h⟩

/-- What has a child is a statement. -/
theorem has_of_mem_children {parent stmt : StmtId} (h : stmt ∈ body.children parent) :
    body.has parent = true := by
  obtain ⟨shape, found, -⟩ := get?_of_mem_children h
  exact has_iff_get?.mpr ⟨shape, found⟩

/-- A child is inside its parent. -/
theorem Inside.of_child {parent stmt : StmtId} (h : stmt ∈ body.children parent) :
    body.Inside parent stmt := .child .refl h

/-- Containment is transitive. -/
theorem Inside.trans {outer middle inner : StmtId} (first : body.Inside outer middle)
    (second : body.Inside middle inner) : body.Inside outer inner := by
  induction second with
  | refl => exact first
  | child _ mem ih => exact .child ih mem

/-- What a statement lies inside of is a statement. -/
theorem has_of_inside {outer inner : StmtId} (h : body.Inside outer inner)
    (has : body.has inner = true) : body.has outer = true := by
  induction h with
  | refl => exact has
  | child _ mem ih => exact ih (has_of_mem_children mem)

/-- Containment seen from the outer end: below a statement comes one of its children. -/
theorem exists_child_of_inside {outer inner : StmtId} (h : body.Inside outer inner) :
    inner = outer ∨ ∃ child ∈ body.children outer, body.Inside child inner := by
  induction h with
  | refl => exact .inl rfl
  | child _ mem ih =>
    rcases ih with rfl | ⟨child, mem', inside⟩
    · exact .inr ⟨_, mem, .refl⟩
    · exact .inr ⟨child, mem', .child inside mem⟩

namespace IsTree

variable (tree : body.IsTree)

include tree

/-- A child has one parent. -/
theorem parent_unique {first second stmt : StmtId} (h : stmt ∈ body.children first)
    (h' : stmt ∈ body.children second) : first = second := by
  have e := tree.parent?_eq_some.mpr h
  rw [tree.parent?_eq_some.mpr h'] at e
  exact (Option.some.inj e).symm

/-- The root is no child. -/
theorem root_not_mem (parent : StmtId) : body.root ∉ body.children parent := by
  intro h
  have e := tree.parent?_eq_some.mpr h
  rw [tree.parent?_root] at e
  cases e

/-- A statement other than the root is a child. -/
theorem exists_parent {stmt : StmtId} (h : body.has stmt = true) :
    stmt = body.root ∨ ∃ parent, stmt ∈ body.children parent := by
  obtain ⟨depth, -, at_depth⟩ := tree.attached h
  cases at_depth with
  | root => exact .inl rfl
  | child _ mem => exact .inr ⟨_, mem⟩

/-- A statement has one depth. -/
theorem depth_unique {first second : Nat} {stmt : StmtId} (h : body.AtDepth first stmt)
    (h' : body.AtDepth second stmt) : first = second := by
  induction h generalizing second with
  | root =>
    cases h' with
    | root => rfl
    | child _ mem => exact absurd mem (tree.root_not_mem _)
  | child _ mem ih =>
    cases h' with
    | root => exact absurd mem (tree.root_not_mem _)
    | child outer mem' =>
      obtain rfl := tree.parent_unique mem mem'
      rw [ih outer]

/-- Statements hang at depths below their number. -/
theorem depth_lt {depth : Nat} {stmt : StmtId} (h : body.AtDepth depth stmt) :
    depth < body.size := by
  have has : body.has stmt = true := by
    cases h with
    | root => exact tree.has_root
    | child _ mem => exact tree.has_child mem
  obtain ⟨depth', lt, h'⟩ := tree.attached has
  exact tree.depth_unique h h' ▸ lt

/-- Induction from the root down. -/
theorem inductionDown {motive : StmtId → Prop} (root : motive body.root)
    (child : ∀ parent stmt, stmt ∈ body.children parent → motive parent → motive stmt)
    {stmt : StmtId} (h : body.has stmt = true) : motive stmt := by
  obtain ⟨depth, -, at_depth⟩ := tree.attached h
  clear h
  induction at_depth with
  | root => exact root
  | child _ mem ih => exact child _ _ mem ih

/-- Induction from the leaves up. -/
theorem inductionUp {motive : StmtId → Prop}
    (step : ∀ stmt shape, body.get? stmt = some shape →
      (∀ child ∈ shape.children, motive child) → motive stmt)
    {stmt : StmtId} (h : body.has stmt = true) : motive stmt := by
  obtain ⟨depth, -, at_depth⟩ := tree.attached h
  -- The height that is left below a statement shrinks with its depth.
  generalize left : body.size - depth = height
  induction height generalizing depth stmt with
  | zero => exact absurd (tree.depth_lt at_depth) (by omega)
  | succ height ih =>
    obtain ⟨shape, found⟩ := has_iff_get?.mp h
    refine step stmt shape found fun child mem ↦ ?_
    rw [← children_of_get? found] at mem
    exact ih (tree.has_child mem) _ (.child at_depth mem) (by omega)

/-- Induction from the leaves up where the shapes of the statements do not matter. -/
theorem inductionBelow {motive : StmtId → Prop}
    (step : ∀ stmt, body.has stmt = true → (∀ child ∈ body.children stmt, motive child) →
      motive stmt)
    {stmt : StmtId} (h : body.has stmt = true) : motive stmt := by
  refine tree.inductionUp (fun stmt shape found ih ↦ ?_) h
  rw [← children_of_get? found] at ih
  exact step stmt (has_iff_get?.mpr ⟨shape, found⟩) ih

/-- The root lies inside nothing but itself. -/
theorem eq_root_of_inside {outer : StmtId} (h : body.Inside outer body.root) :
    outer = body.root := by
  cases h with
  | refl => rfl
  | child _ mem => exact absurd mem (tree.root_not_mem _)

/-- What is inside a child is the child or below it: containment seen from the outer end. -/
theorem inside_child_iff {parent stmt outer : StmtId} (mem : stmt ∈ body.children parent) :
    body.Inside outer stmt ↔ outer = stmt ∨ body.Inside outer parent := by
  constructor
  · intro h
    cases h with
    | refl => exact .inl rfl
    | child outside mem' =>
      obtain rfl := tree.parent_unique mem mem'
      exact .inr outside
  · rintro (rfl | h)
    · exact .refl
    · exact .child h mem

/-- A statement lies deeper than what it is inside of. -/
theorem depth_le_of_inside {outer inner : StmtId} {first second : Nat}
    (h : body.Inside outer inner) (outside : body.AtDepth first outer)
    (within : body.AtDepth second inner) : first ≤ second := by
  induction h generalizing second with
  | refl => exact Nat.le_of_eq (tree.depth_unique outside within)
  | child _ mem ih =>
    cases within with
    | root => exact absurd mem (tree.root_not_mem _)
    | child deeper mem' =>
      obtain rfl := tree.parent_unique mem mem'
      have := ih deeper
      omega

/-- A child does not contain its parent. -/
theorem not_inside_parent {parent stmt : StmtId} (mem : stmt ∈ body.children parent) :
    ¬ body.Inside stmt parent := by
  intro h
  obtain ⟨depth, -, at_depth⟩ := tree.attached (has_of_mem_children mem)
  have := tree.depth_le_of_inside h (.child at_depth mem) at_depth
  omega

/-- Containment is antisymmetric. -/
theorem inside_antisymm {first second : StmtId} (has : body.has second = true)
    (h : body.Inside first second) (h' : body.Inside second first) : first = second := by
  cases h with
  | refl => rfl
  | child outside mem => exact absurd (h'.trans outside) (tree.not_inside_parent mem)

/-- Of two statements around a third one, one contains the other. -/
theorem inside_total {first second inner : StmtId} (h : body.Inside first inner)
    (h' : body.Inside second inner) : body.Inside first second ∨ body.Inside second first := by
  induction h with
  | refl => exact .inr h'
  | child outside mem ih =>
    rcases (tree.inside_child_iff mem).mp h' with rfl | h'
    · exact .inl (.child outside mem)
    · exact ih h'

/-- Two children that hold a common statement are the same. -/
theorem child_unique {parent first second inner : StmtId} (mem : first ∈ body.children parent)
    (mem' : second ∈ body.children parent) (h : body.Inside first inner)
    (h' : body.Inside second inner) : first = second := by
  rcases tree.inside_total h h' with h | h
  · rcases (tree.inside_child_iff mem').mp h with rfl | h
    · rfl
    · exact absurd h (tree.not_inside_parent mem)
  · rcases (tree.inside_child_iff mem).mp h with rfl | h
    · rfl
    · exact absurd h (tree.not_inside_parent mem')

/-- What lies inside a statement is a statement. -/
theorem has_inside {outer inner : StmtId} (has : body.has outer = true)
    (inside : body.Inside outer inner) : body.has inner = true := by
  cases inside with
  | refl => exact has
  | child _ mem => exact tree.has_child mem

/-- Everything is inside the root. -/
theorem inside_root {stmt : StmtId} (h : body.has stmt = true) : body.Inside body.root stmt :=
  tree.inductionDown .refl (fun _ _ mem outside ↦ .child outside mem) h

end IsTree

end Body
end ProtectedRegions
