import ProtectedRegions.Flow.Jump
import ProtectedRegions.Proofs.Flow.Containment

/-!
# Where the walks of a jump meet

The check of a jump walks outward twice: from the jump to the first scope that holds where it
lands, and from there back out to that scope. In a tree this is the innermost scope that holds
both, so the walks pass exactly the scopes that hold one of the two places and not the other.
-/

namespace ProtectedRegions
namespace Body

/-- The scopes around `stmt`, itself included, that do not contain `other`; innermost first. -/
def apart (body : Body) (numbering : Numbering) (stmt other : StmtId) : List StmtId :=
  (body.lineage stmt).takeWhile (!numbering.contains · other)

/-- The first scope around `stmt` that contains `other`. -/
def meeting (body : Body) (numbering : Numbering) (stmt other : StmtId) : StmtId :=
  ((body.lineage stmt).find? (numbering.contains · other)).getD body.root

/-- The first protected scope around the target of a `goto` that does not hold the jump. -/
def enteredScope? (body : Body) (numbering : Numbering) (stmt : StmtId) :
    JumpTarget → Option StmtId
  | .atLabel _ target =>
    (body.apart numbering target stmt).find? fun scope ↦
      (body.role? scope).any (·.isProtected)
  | _ => none

variable {body : Body}

namespace IsTree

variable (tree : body.IsTree) {stmt other : StmtId}

include tree

/-- The scopes around the root all contain everything. -/
private theorem outermost (has' : body.has other = true) :
    body.apart (Numbering.ofBody body) body.root other = [] ∧
      body.meeting (Numbering.ofBody body) body.root other = body.root := by
  have holds := (Numbering.contains_iff tree tree.has_root has').mpr (tree.inside_root has')
  rw [apart, meeting, tree.lineage_root, List.takeWhile_cons, List.find?_cons, holds]
  exact ⟨rfl, rfl⟩

/-- A child that contains a statement is where the walk stops. -/
private theorem stops_at {parent : StmtId} (mem : stmt ∈ body.children parent)
    (holds : (Numbering.ofBody body).contains stmt other = true) :
    body.apart (Numbering.ofBody body) stmt other = [] ∧
      body.meeting (Numbering.ofBody body) stmt other = stmt := by
  rw [apart, meeting, tree.lineage_child mem, List.takeWhile_cons, List.find?_cons, holds]
  exact ⟨rfl, rfl⟩

/-- A child that does not contain a statement is passed on the way out. -/
private theorem passes {parent : StmtId} (mem : stmt ∈ body.children parent)
    (outside : (Numbering.ofBody body).contains stmt other = false) :
    body.apart (Numbering.ofBody body) stmt other =
        stmt :: body.apart (Numbering.ofBody body) parent other ∧
      body.meeting (Numbering.ofBody body) stmt other =
        body.meeting (Numbering.ofBody body) parent other := by
  rw [apart, meeting, tree.lineage_child mem, List.takeWhile_cons, List.find?_cons, outside]
  exact ⟨rfl, rfl⟩

/-- The scopes that a statement is in and another is not. -/
theorem mem_apart {scope : StmtId} (has : body.has stmt = true) (has' : body.has other = true) :
    scope ∈ body.apart (Numbering.ofBody body) stmt other ↔
      body.Inside scope stmt ∧ ¬ body.Inside scope other := by
  refine tree.inductionDown (motive := fun stmt ↦
    scope ∈ body.apart (Numbering.ofBody body) stmt other ↔
      body.Inside scope stmt ∧ ¬ body.Inside scope other) ?_ (fun parent stmt mem ih ↦ ?_) has
  · rw [(tree.outermost has').1]
    simp only [List.not_mem_nil, false_iff, not_and, not_not]
    intro inside
    rw [tree.eq_root_of_inside inside]
    exact tree.inside_root has'
  · have decided := Numbering.contains_iff tree (tree.has_child mem) has'
    cases holds : (Numbering.ofBody body).contains stmt other with
    | true =>
      rw [(tree.stops_at mem holds).1]
      simp only [List.not_mem_nil, false_iff, not_and, not_not]
      exact fun inside ↦ inside.trans (decided.mp holds)
    | false =>
      rw [← Bool.not_eq_true, decided] at holds
      rw [(tree.passes mem (by rwa [← Bool.not_eq_true, decided])).1, List.mem_cons, ih,
        tree.inside_child_iff mem]
      constructor
      · rintro (rfl | ⟨inside, apart⟩)
        · exact ⟨.inl rfl, holds⟩
        · exact ⟨.inr inside, apart⟩
      · rintro ⟨rfl | inside, apart⟩
        · exact .inl rfl
        · exact .inr ⟨inside, apart⟩

/-- The walk out of a statement stops at the innermost scope that holds another one too: every scope
that holds both holds this one. -/
theorem meeting_spec (has : body.has stmt = true) (has' : body.has other = true) :
    body.Inside (body.meeting (Numbering.ofBody body) stmt other) stmt ∧
      body.Inside (body.meeting (Numbering.ofBody body) stmt other) other ∧
      ∀ scope, body.Inside scope stmt → body.Inside scope other →
        body.Inside scope (body.meeting (Numbering.ofBody body) stmt other) := by
  refine tree.inductionDown (motive := fun stmt ↦
    body.Inside (body.meeting (Numbering.ofBody body) stmt other) stmt ∧
      body.Inside (body.meeting (Numbering.ofBody body) stmt other) other ∧
      ∀ scope, body.Inside scope stmt → body.Inside scope other →
        body.Inside scope (body.meeting (Numbering.ofBody body) stmt other))
    ?_ (fun parent stmt mem ih ↦ ?_) has
  · rw [(tree.outermost has').2]
    exact ⟨.refl, tree.inside_root has', fun _ inside _ ↦ inside⟩
  · have decided := Numbering.contains_iff tree (tree.has_child mem) has'
    cases holds : (Numbering.ofBody body).contains stmt other with
    | true =>
      rw [(tree.stops_at mem holds).2]
      exact ⟨.refl, decided.mp holds, fun _ inside _ ↦ inside⟩
    | false =>
      rw [(tree.passes mem holds).2]
      obtain ⟨around, around', innermost⟩ := ih
      refine ⟨.child around mem, around', fun scope inside inside' ↦ ?_⟩
      rcases (tree.inside_child_iff mem).mp inside with rfl | inside
      · rw [decided.mpr inside'] at holds
        cases holds
      · exact innermost scope inside inside'

/-- Going out to the innermost scope that holds another statement too passes the scopes that do not
hold that statement. -/
private theorem takeWhile_ne_eq {common : StmtId} (has' : body.has other = true)
    (around : body.Inside common stmt) (around' : body.Inside common other)
    (has : body.has stmt = true)
    (innermost : ∀ scope, body.Inside scope stmt → body.Inside scope other →
      body.Inside scope common) :
    (body.lineage stmt).takeWhile (· ≠ common) =
      body.apart (Numbering.ofBody body) stmt other := by
  induction around with
  | refl =>
    have holds := (Numbering.contains_iff tree has has').mpr around'
    rw [apart, lineage_eq_cons, List.takeWhile_cons, List.takeWhile_cons, holds]
    simp
  | @child parent stmt outside mem ih =>
    have different : stmt ≠ common := by
      rintro rfl
      exact tree.not_inside_parent mem outside
    have apart' : (Numbering.ofBody body).contains stmt other = false := by
      rw [← Bool.not_eq_true, Numbering.contains_iff tree has has']
      intro inside
      exact tree.not_inside_parent mem ((innermost stmt .refl inside).trans outside)
    rw [(tree.passes mem apart').1, tree.lineage_child mem, List.takeWhile_cons,
      ← ih (has_of_mem_children mem) fun scope inside ↦ innermost scope (.child inside mem)]
    simp [different]

/-- The walk from a jump outward refuses the first handler that it leaves. Otherwise it stops where
the scopes of the jump begin to hold where it lands, with the `finally` bodies on the way. -/
theorem leaveScopes_eq {form : Jump} (has' : body.has other = true) {depth steps : Nat}
    {current : StmtId} (at_depth : body.AtDepth depth current) (enough : depth < steps)
    (requires : List StmtId) :
    body.leaveScopes (Numbering.ofBody body) stmt form other steps current requires =
      match (body.apart (Numbering.ofBody body) current other).findSome? body.handlerKind? with
      | some kind => .error (.malformed (.leavesHandler form stmt kind))
      | none => .ok (body.meeting (Numbering.ofBody body) current other, requires ++
          (body.apart (Numbering.ofBody body) current other).filterMap body.finallyOf?) := by
  induction at_depth generalizing steps requires with
  | root =>
    obtain ⟨steps, rfl⟩ := Nat.exists_eq_add_of_lt enough
    have holds := (Numbering.contains_iff tree tree.has_root has').mpr (tree.inside_root has')
    obtain ⟨left, stop⟩ := tree.outermost has'
    simp [leaveScopes, holds, left, stop]
  | @child depth parent current outer mem ih =>
    obtain ⟨steps, rfl⟩ := Nat.exists_eq_add_of_le' (Nat.zero_lt_of_lt enough)
    rw [leaveScopes]
    cases holds : (Numbering.ofBody body).contains current other with
    | true =>
      obtain ⟨left, stop⟩ := tree.stops_at mem holds
      simp [left, stop]
    | false =>
      obtain ⟨left, stop⟩ := tree.passes mem holds
      rw [left, stop, List.findSome?_cons, if_neg Bool.false_ne_true]
      cases body.handlerKind? current with
      | some kind => rfl
      | none =>
        simp only [tree.parent?_eq_some.mpr mem]
        rw [ih (by omega)]
        cases found : body.finallyOf? current <;> simp [found]

/-- The walk from where a `goto` lands refuses the first protected scope before its end. -/
theorem enterScopes_eq {common : StmtId} {depth steps : Nat} {entered : StmtId}
    (at_depth : body.AtDepth depth entered) (enough : depth < steps) :
    body.enterScopes stmt common steps entered =
      match ((body.lineage entered).takeWhile (· ≠ common)).find? fun scope ↦
          (body.role? scope).any (·.isProtected) with
      | some scope => .error (.malformed (.entersProtected stmt scope))
      | none => .ok () := by
  induction at_depth generalizing steps with
  | root =>
    obtain ⟨steps, rfl⟩ := Nat.exists_eq_add_of_lt enough
    rw [tree.lineage_root, List.takeWhile_cons]
    by_cases same : body.root = common
    · simp [enterScopes, same]
    · simp [enterScopes, same, tree.role?_root, tree.parent?_root]
  | @child depth parent entered outer mem ih =>
    obtain ⟨steps, rfl⟩ := Nat.exists_eq_add_of_le' (Nat.zero_lt_of_lt enough)
    rw [enterScopes, tree.lineage_child mem, List.takeWhile_cons]
    by_cases same : entered = common
    · simp [same]
    · simp only [same, if_false, not_false_eq_true, decide_true, if_true, List.find?_cons, ne_eq,
        tree.parent?_eq_some.mpr mem]
      cases (body.role? entered).any (·.isProtected) with
      | true => rfl
      | false => exact ih (by omega)

/-- The check of a jump looks at the scopes that hold the jump and not where it lands and, for a
`goto`, at those that hold where it lands and not the jump. -/
theorem checkJump_eq {form : Jump} {target : JumpTarget} (has : body.has stmt = true)
    (has' : body.has target.scope = true) :
    body.checkJump (Numbering.ofBody body) stmt form target =
      match (body.apart (Numbering.ofBody body) stmt target.scope).findSome?
          body.handlerKind? with
      | some kind => .error (.malformed (.leavesHandler form stmt kind))
      | none =>
        match body.enteredScope? (Numbering.ofBody body) stmt target with
        | some scope => .error (.malformed (.entersProtected stmt scope))
        | none => .ok ((body.apart (Numbering.ofBody body) stmt target.scope).filterMap
            body.finallyOf?) := by
  obtain ⟨depth, lt, at_depth⟩ := tree.attached has
  rw [checkJump, tree.leaveScopes_eq has' at_depth lt, List.nil_append]
  cases (body.apart (Numbering.ofBody body) stmt target.scope).findSome? body.handlerKind? with
  | some kind => rfl
  | none =>
    cases target with
    | atLabel label dest =>
      have labeled : body.has dest = true := has'
      obtain ⟨depth', lt', at_depth'⟩ := tree.attached labeled
      obtain ⟨around, around', innermost⟩ := tree.meeting_spec has labeled
      have passed := tree.takeWhile_ne_eq has around' around labeled fun scope inside inside' ↦
        innermost scope inside' inside
      show ((body.enterScopes stmt _ body.size dest).bind fun _ ↦ _) = _
      rw [tree.enterScopes_eq at_depth' lt', JumpTarget.scope, passed, enteredScope?]
      split <;> rfl
    | _ => rfl

end IsTree
end Body
end ProtectedRegions
