import Mathlib.Data.List.Infix
import Mathlib.Data.List.Nodup
import ProtectedRegions.Body.Traversal
import ProtectedRegions.Proofs.Body.Methods

/-!
# Traversals in document order

A walk that keeps a stack does its tasks in an order that can be said by recursion: a task comes
before all that it leads to, and what is pushed last comes first. For the walks over a body this
is the order of the tree. So what such a walk gathers is gathered along a list of visits, and two
steps for each statement are enough to end it.
-/

namespace ProtectedRegions

/-- A walk acts along the order of its tasks, in which each comes before what it leads to, provided
that it is given a step for each of them. -/
theorem workOff_eq_foldlM {m : Type → Type} [Monad m] [LawfulMonad m] {τ σ : Type}
    {act : τ → σ → m σ} {pushes order : τ → List τ} {known : τ → Prop}
    (closed : ∀ task, known task → ∀ next ∈ pushes task, known next)
    (unfolds : ∀ task, known task → order task = task :: (pushes task).reverse.flatMap order)
    {stack : List τ} (all : ∀ task ∈ stack, known task) {steps : Nat}
    (enough : (stack.flatMap order).length ≤ steps) (state : σ) :
    workOff act pushes steps stack state =
      (stack.flatMap order).foldlM (fun state task ↦ act task state) state := by
  induction steps generalizing stack state with
  | zero =>
    rw [List.eq_nil_of_length_eq_zero (Nat.le_zero.mp enough)]
    rfl
  | succ steps ih =>
    cases stack with
    | nil => rfl
    | cons task rest =>
      obtain ⟨first, later⟩ := List.forall_mem_cons.mp all
      have next : ((pushes task).reverse ++ rest).flatMap order =
          (pushes task).reverse.flatMap order ++ rest.flatMap order := List.flatMap_append
      rw [List.flatMap_cons, unfolds task first, List.cons_append, List.length_cons, ← next]
        at enough
      rw [List.flatMap_cons, unfolds task first, List.cons_append, ← next, List.foldlM_cons]
      refine bind_congr fun state ↦ ih ?_ (Nat.le_of_succ_le_succ enough) state
      intro other mem
      rcases List.mem_append.mp mem with pushed | waiting
      · exact closed task first other (List.mem_reverse.mp pushed)
      · exact later other waiting

/-- What every task keeps is kept by a walk, wherever it ends. -/
theorem workOff_keeps {τ σ : Type} {act : τ → σ → σ} {pushes : τ → List τ} {motive : σ → Prop}
    (keeps : ∀ task state, motive state → motive (act task state)) (steps : Nat) (stack : List τ)
    {state : σ} (holds : motive state) :
    motive (workOff (fun task state ↦ pure (act task state)) pushes steps stack state : Id σ).run := by
  induction steps generalizing stack state with
  | zero => exact holds
  | succ steps ih =>
    cases stack with
    | nil => exact holds
    | cons task rest => exact ih _ (keeps task state holds)

namespace Body

/-- The walk around one statement. -/
def tourOf (body : Body) : StmtId → List Visit :=
  body.recurse
    (fun stmt below ↦ .enter stmt :: (body.children stmt).flatMap below ++ [.leave stmt]) []

/-- The walk around the tree of a body. -/
def tour (body : Body) : List Visit := body.tourOf body.root

/-- The walk around one statement that goes into no lambda and does not come back to it. -/
def tourInMethod (body : Body) : StmtId → List Visit :=
  body.recurse
    (fun stmt below ↦
      if body.isLambda stmt then [.enter stmt]
      else .enter stmt :: (body.children stmt).flatMap below ++ [.leave stmt]) []

/-- The statements at and below one, with nothing that is in a lambda. -/
def preorderInMethod (body : Body) : StmtId → List StmtId :=
  body.recurse
    (fun stmt below ↦
      stmt :: if body.isLambda stmt then [] else (body.children stmt).flatMap below) []

variable {body : Body}

namespace IsTree

variable (tree : body.IsTree)

include tree

/-- The tour around a statement goes around its children in between. -/
theorem tourOf_eq {stmt : StmtId} (has : body.has stmt = true) :
    body.tourOf stmt =
      .enter stmt :: (body.children stmt).flatMap body.tourOf ++ [.leave stmt] := by
  refine tree.recurse_eq (fun stmt below below' same ↦ ?_) has
  rw [List.flatMap_congr same]

/-- The tour around a statement visits what is inside it. -/
theorem mem_tourOf {stmt : StmtId} (has : body.has stmt = true) (inner : StmtId) :
    (.enter inner ∈ body.tourOf stmt ↔ body.Inside stmt inner) ∧
      (.leave inner ∈ body.tourOf stmt ↔ body.Inside stmt inner) := by
  refine tree.inductionBelow (motive := fun stmt ↦
    (.enter inner ∈ body.tourOf stmt ↔ body.Inside stmt inner) ∧
      (.leave inner ∈ body.tourOf stmt ↔ body.Inside stmt inner)) (fun stmt has ih ↦ ?_) has
  have below : (∃ child ∈ body.children stmt, body.Inside child inner) ∨ inner = stmt ↔
      body.Inside stmt inner := by
    constructor
    · rintro (⟨child, mem, inside⟩ | rfl)
      · exact (Inside.of_child mem).trans inside
      · exact .refl
    · exact fun inside ↦ (exists_child_of_inside inside).symm
  rw [tree.tourOf_eq has, ← below]
  constructor
  · simp only [List.mem_append, List.mem_cons, List.mem_flatMap, Visit.enter.injEq, reduceCtorEq,
      List.not_mem_nil, or_false]
    rw [or_comm]
    exact or_congr (exists_congr fun child ↦ and_congr_right fun mem ↦ (ih child mem).1) Iff.rfl
  · simp only [List.mem_append, List.mem_cons, List.mem_flatMap, Visit.leave.injEq, reduceCtorEq,
      List.not_mem_nil, or_false, false_or]
    exact or_congr (exists_congr fun child ↦ and_congr_right fun mem ↦ (ih child mem).2) Iff.rfl

/-- The tour makes each visit once. -/
theorem nodup_tourOf {stmt : StmtId} (has : body.has stmt = true) :
    (body.tourOf stmt).Nodup := by
  refine tree.inductionBelow (motive := fun stmt ↦ (body.tourOf stmt).Nodup)
    (fun stmt has ih ↦ ?_) has
  have outside (child : StmtId) (mem : child ∈ body.children stmt) :
      .enter stmt ∉ body.tourOf child ∧ .leave stmt ∉ body.tourOf child := by
    obtain ⟨entered, left⟩ := tree.mem_tourOf (tree.has_child mem) stmt
    rw [entered, left, and_self]
    exact tree.not_inside_parent mem
  have apart : (body.children stmt).Pairwise fun first second ↦
      (body.tourOf first).Disjoint (body.tourOf second) := by
    refine (tree.nodup_children stmt).imp_of_mem fun {first second} mem mem' different ↦ ?_
    intro visit inFirst inSecond
    cases visit with
    | enter inner =>
      exact different (tree.child_unique mem mem'
        ((tree.mem_tourOf (tree.has_child mem) inner).1.mp inFirst)
        ((tree.mem_tourOf (tree.has_child mem') inner).1.mp inSecond))
    | leave inner =>
      exact different (tree.child_unique mem mem'
        ((tree.mem_tourOf (tree.has_child mem) inner).2.mp inFirst)
        ((tree.mem_tourOf (tree.has_child mem') inner).2.mp inSecond))
  rw [tree.tourOf_eq has, List.cons_append, List.nodup_cons, List.nodup_append]
  refine ⟨?_, List.nodup_flatMap.mpr ⟨ih, apart⟩, List.nodup_singleton _, ?_⟩
  · simp only [List.mem_append, List.mem_flatMap, List.mem_singleton, reduceCtorEq, or_false]
    rintro ⟨child, mem, visit⟩
    exact (outside child mem).1 visit
  · rintro visit mem last isLast rfl
    rw [List.mem_singleton.mp isLast] at mem
    obtain ⟨child, mem, visit⟩ := List.mem_flatMap.mp mem
    exact (outside child mem).2 visit

/-- The tour around a statement is one piece of the whole tour. -/
theorem tourOf_infix {stmt : StmtId} (has : body.has stmt = true) :
    body.tourOf stmt <:+: body.tour := by
  refine tree.inductionDown (motive := fun stmt ↦ body.tourOf stmt <:+: body.tour)
    (List.infix_refl _) (fun parent stmt mem ih ↦ ?_) has
  refine List.IsInfix.trans ?_ ih
  rw [tree.tourOf_eq (has_of_mem_children mem)]
  obtain ⟨before, after, split⟩ := List.append_of_mem mem
  exact ⟨.enter parent :: before.flatMap body.tourOf,
    after.flatMap body.tourOf ++ [.leave parent], by simp [split]⟩

/-- Around the whole body there are two visits for each statement at most. -/
theorem length_tour_le : body.tour.length ≤ body.walkSteps := by
  have inside : body.tour ⊆ body.ids.map Visit.enter ++ body.ids.map Visit.leave := by
    have listed {stmt : StmtId} (around : body.Inside body.root stmt) : stmt ∈ body.ids :=
      StatementTable.mem_ids.mpr (of_decide_eq_true (tree.has_inside tree.has_root around))
    intro visit mem
    cases visit with
    | enter stmt =>
      have around := (tree.mem_tourOf tree.has_root stmt).1.mp mem
      exact List.mem_append_left _ (List.mem_map_of_mem (listed around))
    | leave stmt =>
      have around := (tree.mem_tourOf tree.has_root stmt).2.mp mem
      exact List.mem_append_right _ (List.mem_map_of_mem (listed around))
  have le := (tree.nodup_tourOf tree.has_root).length_le_of_subset inside
  simpa [tour, ids, StatementTable.ids, walkSteps, size, Nat.two_mul] using le

/-- No walk around a statement is longer than the whole walk. -/
theorem length_tourOf_le {stmt : StmtId} (has : body.has stmt = true) :
    (body.tourOf stmt).length ≤ body.walkSteps :=
  (tree.tourOf_infix has).length_le.trans tree.length_tour_le

/-- The walk that leaves lambdas out, one step into a statement. -/
theorem tourInMethod_eq {stmt : StmtId} (has : body.has stmt = true) : body.tourInMethod stmt =
    if body.isLambda stmt then [.enter stmt]
    else .enter stmt :: (body.children stmt).flatMap body.tourInMethod ++ [.leave stmt] := by
  refine tree.recurse_eq (fun stmt below below' same ↦ ?_) has
  rw [List.flatMap_congr same]

/-- The statements that such a walk enters, one step into a statement. -/
theorem preorderInMethod_eq {stmt : StmtId} (has : body.has stmt = true) :
    body.preorderInMethod stmt = stmt :: if body.isLambda stmt then []
      else (body.children stmt).flatMap body.preorderInMethod := by
  refine tree.recurse_eq (fun stmt below below' same ↦ ?_) has
  rw [List.flatMap_congr same]

omit tree in
private theorem length_flatMap_le {α β γ : Type} {list : List α} {part : α → List β}
    {whole : α → List γ} (le : ∀ x ∈ list, (part x).length ≤ (whole x).length) :
    (list.flatMap part).length ≤ (list.flatMap whole).length := by
  induction list with
  | nil => exact Nat.le_refl 0
  | cons x rest ih =>
    obtain ⟨first, later⟩ := List.forall_mem_cons.mp le
    rw [List.flatMap_cons, List.flatMap_cons, List.length_append, List.length_append]
    exact Nat.add_le_add first (ih later)

/-- Leaving lambdas out makes no walk longer. -/
theorem length_inMethod_le {stmt : StmtId} (has : body.has stmt = true) :
    (body.tourInMethod stmt).length ≤ (body.tourOf stmt).length ∧
      (body.preorderInMethod stmt).length ≤ (body.tourOf stmt).length := by
  refine tree.inductionBelow (motive := fun stmt ↦
    (body.tourInMethod stmt).length ≤ (body.tourOf stmt).length ∧
      (body.preorderInMethod stmt).length ≤ (body.tourOf stmt).length)
    (fun stmt has ih ↦ ?_) has
  have visits := length_flatMap_le fun child mem ↦ (ih child mem).1
  have statements := length_flatMap_le fun child mem ↦ (ih child mem).2
  rw [tree.tourInMethod_eq has, tree.preorderInMethod_eq has, tree.tourOf_eq has]
  cases body.isLambda stmt with
  | true => simp
  | false =>
    simp only [Bool.false_eq_true, if_false, List.length_append, List.length_cons,
      List.length_nil]
    omega

/-- The walk that leaves lambdas out comes back to the statements of the method. -/
theorem leave_mem_tourInMethod {scope stmt : StmtId} (has : body.has scope = true) :
    .leave stmt ∈ body.tourInMethod scope ↔ stmt ∈ body.inMethod scope := by
  refine tree.inductionBelow (motive := fun scope ↦
    .leave stmt ∈ body.tourInMethod scope ↔ stmt ∈ body.inMethod scope)
    (fun scope has ih ↦ ?_) has
  rw [tree.tourInMethod_eq has, tree.mem_inMethod_step has]
  cases body.isLambda scope with
  | true => simp
  | false =>
    simp only [Bool.false_eq_true, if_false, List.mem_append, List.mem_cons, reduceCtorEq,
      List.mem_flatMap, Visit.leave.injEq, List.not_mem_nil, false_or, or_false, true_and]
    rw [or_comm]
    exact or_congr_right (exists_congr fun child ↦ and_congr_right (ih child))

/-- The statements of the method are those that such a walk enters, but for the lambdas. -/
theorem filter_preorderInMethod {scope : StmtId} (has : body.has scope = true) :
    (body.preorderInMethod scope).filter (!body.isLambda ·) = body.inMethod scope := by
  refine tree.inductionBelow (motive := fun scope ↦
    (body.preorderInMethod scope).filter (!body.isLambda ·) = body.inMethod scope)
    (fun scope has ih ↦ ?_) has
  rw [tree.preorderInMethod_eq has, tree.inMethod_eq has]
  cases lambda : body.isLambda scope with
  | true => simp [lambda]
  | false => simp [lambda, List.filter_flatMap, List.flatMap_congr ih]

/-! ### The walks -/

section Walks

variable {m : Type → Type} [Monad m] [LawfulMonad m] {σ : Type} {scope : StmtId}

omit tree in
/-- A walk of visits makes them in the order in which `around` lists those around a statement. -/
private theorem workOff_enter {pushes : Visit → List Visit} {around : StmtId → List Visit}
    (closed : ∀ stmt child, body.has stmt = true → .enter child ∈ pushes (.enter stmt) →
      body.has child = true)
    (around_eq : ∀ stmt, body.has stmt = true → around stmt = .enter stmt ::
      (pushes (.enter stmt)).reverse.flatMap fun
        | .enter child => around child
        | .leave stmt => [.leave stmt])
    (leave_eq : ∀ stmt, pushes (.leave stmt) = []) (has : body.has scope = true)
    (enough : (around scope).length ≤ body.walkSteps) (act : Visit → σ → m σ) (state : σ) :
    workOff act pushes body.walkSteps [.enter scope] state =
      (around scope).foldlM (fun state visit ↦ act visit state) state := by
  let order : Visit → List Visit
    | .enter stmt => around stmt
    | .leave stmt => [.leave stmt]
  let known : Visit → Prop
    | .enter stmt => body.has stmt = true
    | .leave _ => True
  have walk := @workOff_eq_foldlM m _ _ _ _ act pushes order known ?_ ?_ [.enter scope] ?_
    body.walkSteps ?_ state
  · rwa [List.flatMap_singleton] at walk
  · rintro (stmt | stmt) holds (child | child) mem
    · exact closed stmt child holds mem
    · trivial
    · rw [leave_eq] at mem
      cases mem
    · trivial
  · rintro (stmt | stmt) holds
    · exact around_eq stmt holds
    · rw [leave_eq]
      rfl
  · rintro _ mem
    rw [List.mem_singleton.mp mem]
    exact has
  · rwa [List.flatMap_singleton]

/-- The walk around a body makes its visits in document order. -/
theorem workOff_visits (act : Visit → σ → m σ) (state : σ) :
    workOff act body.visits body.walkSteps [.enter body.root] state =
      body.tour.foldlM (fun state visit ↦ act visit state) state := by
  refine workOff_enter ?closed ?order (fun _ ↦ rfl) tree.has_root tree.length_tour_le act state
  case closed =>
    intro stmt child has mem
    simp only [visits, List.mem_cons, reduceCtorEq, false_or, List.mem_map, List.mem_reverse,
      Visit.enter.injEq, exists_eq_right] at mem
    exact tree.has_child mem
  case order =>
    intro stmt has
    rw [tree.tourOf_eq has]
    simp [visits, List.flatMap_map]

/-- A walk that leaves lambdas out makes its visits in document order. -/
theorem workOff_visitsInMethod (has : body.has scope = true) (act : Visit → σ → m σ) (state : σ) :
    workOff act body.visitsInMethod body.walkSteps [.enter scope] state =
      (body.tourInMethod scope).foldlM (fun state visit ↦ act visit state) state := by
  have enough := (tree.length_inMethod_le has).1.trans (tree.length_tourOf_le has)
  refine workOff_enter ?closed ?order (fun _ ↦ rfl) has enough act state
  case closed =>
    intro stmt child has mem
    rw [visitsInMethod] at mem
    split at mem
    · cases mem
    · simp only [visits, List.mem_cons, reduceCtorEq, false_or, List.mem_map, List.mem_reverse,
        Visit.enter.injEq, exists_eq_right] at mem
      exact tree.has_child mem
  case order =>
    intro stmt has
    rw [tree.tourInMethod_eq has, visitsInMethod]
    split
    · rfl
    · simp [visits, List.flatMap_map]

/-- A walk that comes to each statement once does so in document order. -/
theorem workOff_belowInMethod (has : body.has scope = true) (act : StmtId → σ → m σ) (state : σ) :
    workOff act body.belowInMethod body.walkSteps [scope] state =
      (body.preorderInMethod scope).foldlM (fun state stmt ↦ act stmt state) state := by
  have enough := (tree.length_inMethod_le has).2.trans (tree.length_tourOf_le has)
  have walk := @workOff_eq_foldlM m _ _ _ _ act body.belowInMethod body.preorderInMethod
    (body.has · = true) ?closed ?order [scope] ?all body.walkSteps ?enough state
  case closed =>
    intro stmt has child mem
    rw [belowInMethod] at mem
    split at mem
    · cases mem
    · exact tree.has_child (List.mem_reverse.mp mem)
  case order =>
    intro stmt has
    rw [tree.preorderInMethod_eq has, belowInMethod]
    split
    · rfl
    · rw [List.reverse_reverse]
  case all => exact List.forall_mem_singleton.mpr has
  case enough => rwa [List.flatMap_singleton]
  · rwa [List.flatMap_singleton] at walk

end Walks

end IsTree
end Body
end ProtectedRegions
