import ProtectedRegions.Proofs.Body.Nearest
import ProtectedRegions.Flow.Jump

/-!
# Searches outward

The constructs that jumps belong to, the methods of statements and the owners of rethrows are found
by a search outward, which stops at the first lambda or handler. Here each is said of the tree of
statements alone, and the searches are shown to find it.
-/

namespace ProtectedRegions

/-- A search in the first part of a list stops where that part ends. -/
private theorem find?_takeWhile {α : Type} {p q : α → Bool} (list : List α) :
    (list.takeWhile q).find? p = (list.find? fun x ↦ p x || !q x).filter q := by
  induction list with
  | nil => rfl
  | cons x rest ih =>
    rw [List.takeWhile_cons, List.find?_cons]
    cases stays : q x with
    | true =>
      rw [if_pos rfl, List.find?_cons, ih]
      cases p x with
      | true =>
        show some x = Option.filter q (some x)
        rw [Option.filter_some, if_pos stays]
      | false => rfl
    | false =>
      rw [if_neg Bool.false_ne_true, Bool.not_false, Bool.or_true]
      show none = Option.filter q (some x)
      rw [Option.filter_some, stays, if_neg Bool.false_ne_true]

namespace Body

variable {body : Body}

section Constructs

/-- A statement of an accepted shape around another one, with no lambda in between. -/
structure Encloses (body : Body) (accepts : Statement → Bool) (stmt construct : StmtId) :
    Prop where
  around : body.Inside construct stmt
  different : construct ≠ stmt
  shape : (body.get? construct).any accepts = true
  open' {other : StmtId} : body.Inside construct other → body.Inside other stmt → other ≠ stmt →
    body.isLambda other = false

/-- The innermost statement of an accepted shape around another one, with no lambda in between. -/
structure EnclosesFirst (body : Body) (accepts : Statement → Bool) (stmt construct : StmtId) :
    Prop extends body.Encloses accepts stmt construct where
  first {other : StmtId} : body.Encloses accepts stmt other → body.Inside other construct

variable (tree : body.IsTree) {accepts : Statement → Bool} {stmt construct : StmtId}

include tree

/-- What encloses a child, said of its parent. -/
private theorem encloses_child {parent : StmtId} (mem : stmt ∈ body.children parent) :
    body.Encloses accepts stmt construct ↔ body.Inside construct parent ∧
      (body.get? construct).any accepts = true ∧ ∀ other, body.Inside construct other →
        body.Inside other parent → body.isLambda other = false := by
  have below {other : StmtId} (around : body.Inside other parent) : other ≠ stmt := by
    rintro rfl
    exact tree.not_inside_parent mem around
  constructor
  · intro encloses
    refine ⟨?_, encloses.shape, ?_⟩
    · exact ((tree.inside_child_iff mem).mp encloses.around).resolve_left encloses.different
    · intro other within around
      exact encloses.open' within (.child around mem) (below around)
  · rintro ⟨around, shape, opens⟩
    refine ⟨.child around mem, below around, shape, ?_⟩
    intro other within around different
    exact opens other within (((tree.inside_child_iff mem).mp around).resolve_left different)

/-- The search for a construct around a child. -/
private theorem enclosing?_child {parent : StmtId} (mem : stmt ∈ body.children parent) :
    body.enclosing? accepts stmt = some construct ↔
      body.Nearest (fun scope ↦ ((body.get? scope).any accepts || body.isLambda scope) = true)
        parent construct ∧ body.isLambda construct = false := by
  rw [enclosing?, tree.ancestors_child mem, find?_takeWhile, Option.filter_eq_some_iff]
  simp only [Bool.not_not, Bool.not_eq_true']
  rw [tree.find?_lineage (has_of_mem_children mem)]

/-- The search for a construct around a statement finds the innermost one. -/
theorem IsTree.enclosing?_eq_some (has : body.has stmt = true) :
    body.enclosing? accepts stmt = some construct ↔
      body.EnclosesFirst accepts stmt construct := by
  rcases tree.exists_parent has with rfl | ⟨parent, mem⟩
  · rw [enclosing?, ancestors, tree.lineage_root]
    constructor
    · intro found
      cases found
    · intro encloses
      exact (encloses.different (tree.eq_root_of_inside encloses.around)).elim
  · rw [enclosing?_child tree mem]
    constructor
    · rintro ⟨nearest, plain⟩
      have shape : (body.get? construct).any accepts = true := by
        have holds := nearest.holds
        rwa [plain, Bool.or_false] at holds
      refine ⟨(encloses_child tree mem).mpr ⟨nearest.around, shape, ?_⟩, ?_⟩
      · intro other within around
        rw [← Bool.not_eq_true]
        intro lambda
        have outer := nearest.first around (by rw [lambda, Bool.or_true])
        have same := tree.inside_antisymm (has_of_inside around (has_of_mem_children mem))
          within outer
        rw [← same, plain] at lambda
        cases lambda
      · intro other encloses
        obtain ⟨around, shape, -⟩ := (encloses_child tree mem).mp encloses
        exact nearest.first around (by rw [shape, Bool.true_or])
    · intro encloses
      obtain ⟨around, shape, opens⟩ := (encloses_child tree mem).mp encloses.toEncloses
      refine ⟨⟨around, by rw [shape, Bool.true_or], ?_⟩, opens construct .refl around⟩
      intro other around' holds
      rcases tree.inside_total around' around with outer | inner
      · exact outer
      rcases (Bool.or_eq_true _ _).mp holds with shape' | lambda
      · apply encloses.first
        apply (encloses_child tree mem).mpr
        exact ⟨around', shape', fun between within ↦ opens between (inner.trans within)⟩
      · rw [opens other inner around'] at lambda
        cases lambda

/-- The search for a construct succeeds if there is one. -/
theorem IsTree.exists_enclosing? (has : body.has stmt = true) :
    (∃ construct, body.enclosing? accepts stmt = some construct) ↔
      ∃ construct, body.Encloses accepts stmt construct := by
  constructor
  · rintro ⟨construct, found⟩
    exact ⟨construct, ((tree.enclosing?_eq_some has).mp found).toEncloses⟩
  · rintro ⟨construct, encloses⟩
    rcases tree.exists_parent has with rfl | ⟨parent, mem⟩
    · exact (encloses.different (tree.eq_root_of_inside encloses.around)).elim
    obtain ⟨around, shape, opens⟩ := (encloses_child tree mem).mp encloses
    have has' := has_of_mem_children mem
    cases found : (body.lineage parent).find? fun scope ↦
        (body.get? scope).any accepts || body.isLambda scope with
    | none =>
      have none := (tree.find?_lineage_eq_none has').mp found construct around
      rw [shape, Bool.true_or] at none
      cases none
    | some scope =>
      have nearest := (tree.find?_lineage has').mp found
      refine ⟨scope, (enclosing?_child tree mem).mpr ⟨nearest, ?_⟩⟩
      exact opens scope (nearest.first around (by rw [shape, Bool.true_or])) nearest.around

end Constructs

section Methods

variable (tree : body.IsTree) {stmt : StmtId} (has : body.has stmt = true)

/-- The root of the method of a statement: the innermost lambda body around it, or the root of the
body if there is none. -/
def IsMethodOf (body : Body) (stmt root : StmtId) : Prop :=
  body.Nearest (body.Plays · .lambdaBody) stmt root ∨
    root = body.root ∧ ∀ scope, body.Inside scope stmt → ¬ body.Plays scope .lambdaBody

/-- A catch body, a handler of a `finally` or `fault`, or a lambda body: a rethrow looks no further
out. -/
def EndsRethrow (body : Body) (scope : StmtId) : Prop :=
  (∃ place, body.Plays scope (.catchBody place)) ∨ (∃ kind, body.Plays scope (.handler kind)) ∨
    body.Plays scope .lambdaBody

/-- The first catch body, handler or lambda body from a statement outward is a catch body. -/
def IsInCatch (body : Body) (stmt : StmtId) : Prop :=
  ∃ scope place, body.Plays scope (.catchBody place) ∧ body.Nearest body.EndsRethrow stmt scope

/-- Two statements are in the same innermost lambda body, or in none. -/
def SharesLambda (body : Body) (stmt other : StmtId) : Prop :=
  ∀ scope, body.Nearest (body.Plays · .lambdaBody) stmt scope ↔
    body.Nearest (body.Plays · .lambdaBody) other scope

include tree

/-- The search for a lambda body outward. -/
private theorem find?_lambdaBody {scope : StmtId} (has : body.has stmt = true) :
    (body.lineage stmt).find? (body.role? · == some .lambdaBody) = some scope ↔
      body.Nearest (body.Plays · .lambdaBody) stmt scope := by
  rw [tree.find?_lineage has]
  simp only [beq_iff_eq, tree.role?_eq_some]

/-- The root of a body is no lambda body. -/
private theorem not_plays_root {role : Role} : ¬ body.Plays body.root role := by
  intro plays
  have found := tree.role?_eq_some.mpr plays
  rw [tree.role?_root] at found
  cases found

include has

/-- The method of a statement. -/
theorem IsTree.methodOf_eq_iff {root : StmtId} :
    body.methodOf stmt = root ↔ body.IsMethodOf stmt root := by
  rw [methodOf, IsMethodOf]
  cases found : (body.lineage stmt).find? (body.role? · == some .lambdaBody) with
  | some scope =>
    have nearest := (find?_lambdaBody tree has).mp found
    rw [Option.getD_some]
    constructor
    · rintro rfl
      exact .inl nearest
    · rintro (nearest' | ⟨-, none⟩)
      · exact tree.nearest_unique has nearest nearest'
      · exact (none scope nearest.around nearest.holds).elim
  | none =>
    have none := (tree.find?_lineage_eq_none has).mp found
    simp only [beq_eq_false_iff_ne, ne_eq, tree.role?_eq_some] at none
    rw [Option.getD_none]
    constructor
    · rintro rfl
      exact .inr ⟨rfl, none⟩
    · rintro (nearest | ⟨same, -⟩)
      · exact (none root nearest.around nearest.holds).elim
      · exact same.symm

/-- Two statements are in one method if the same lambda body, or none, is innermost around them. -/
theorem IsTree.methodOf_eq_methodOf_iff {other : StmtId} (has' : body.has other = true) :
    body.methodOf other = body.methodOf stmt ↔ body.SharesLambda stmt other := by
  -- The root of the body stands for no lambda body at all, so no lambda body may be the root.
  have never {stmt : StmtId} (has : body.has stmt = true) :
      (body.lineage stmt).find? (body.role? · == some .lambdaBody) ≠ some body.root := by
    intro found
    exact not_plays_root tree ((find?_lambdaBody tree has).mp found).holds
  simp only [SharesLambda, ← find?_lambdaBody tree has, ← find?_lambdaBody tree has']
  rw [methodOf, methodOf]
  have first := never has
  have second := never has'
  revert first second
  generalize (body.lineage stmt).find? (body.role? · == some .lambdaBody) = found
  generalize (body.lineage other).find? (body.role? · == some .lambdaBody) = found'
  intro first second
  rw [← Option.ext_iff, eq_comm (a := found)]
  cases found with
  | none =>
    cases found' with
    | none => simp
    | some scope => simpa using second
  | some scope =>
    cases found' with
    | none => simpa [eq_comm] using first
    | some scope' => simp

/-- The owner of a rethrow is the first catch body, handler or lambda body outward, if that is a
catch body. -/
theorem IsTree.rethrowOwner?_eq_some {owner : StmtId} :
    body.rethrowOwner? stmt = some owner ↔
      (∃ place, body.Plays owner (.catchBody place)) ∧ body.Nearest body.EndsRethrow stmt owner := by
  have ends (scope : StmtId) : (body.role? scope).any (·.endsRethrow) = true ↔
      body.EndsRethrow scope := by
    simp only [EndsRethrow, ← tree.role?_eq_some]
    cases body.role? scope with
    | none => simp
    | some role => cases role <;> simp [Role.endsRethrow]
  have catches (scope : StmtId) : (body.role? scope).any (·.isCatch) = true ↔
      ∃ place, body.Plays scope (.catchBody place) := by
    simp only [← tree.role?_eq_some]
    cases body.role? scope with
    | none => simp
    | some role => cases role <;> simp [Role.isCatch]
  rw [rethrowOwner?]
  simp only [Option.filter_eq_some_iff, tree.find?_lineage has, ends, catches]
  exact and_comm

/-- A scope that ends the search for the owner of a rethrow is in the method of the rethrow. -/
theorem IsTree.methodOf_of_endsRethrow {scope : StmtId}
    (nearest : body.Nearest body.EndsRethrow stmt scope) :
    body.methodOf stmt = body.methodOf scope := by
  have outward {other : StmtId} (around : body.Inside other stmt)
      (plays : body.Plays other .lambdaBody) : body.Inside other scope :=
    nearest.first around (.inr (.inr plays))
  refine (tree.methodOf_eq_iff has).mpr ?_
  rcases (tree.methodOf_eq_iff (has_of_inside nearest.around has)).mp rfl with own | ⟨top, none⟩
  · exact .inl ⟨own.around.trans nearest.around, own.holds,
      fun around plays ↦ own.first (outward around plays) plays⟩
  · exact .inr ⟨top, fun other around plays ↦ none other (outward around plays) plays⟩

/-- A rethrow has an owner if the first catch body, handler or lambda body outward is a catch
body. -/
theorem IsTree.isSome_rethrowOwner? :
    (body.rethrowOwner? stmt).isSome = true ↔ body.IsInCatch stmt := by
  simp only [Option.isSome_iff_exists, tree.rethrowOwner?_eq_some has, IsInCatch, exists_and_right]

end Methods

end Body
end ProtectedRegions
