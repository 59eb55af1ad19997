import ProtectedRegions.Proofs.Body.Lineage

/-!
# Looking outward

The search from a statement outward, along its lineage, finds the nearest statement around it with
some property. Roles, methods and the constructs that jumps belong to are found in this way.
-/

namespace ProtectedRegions
namespace Body

variable {body : Body}

/-- The first statement with a property on the way from a statement outward, itself included. -/
structure Nearest (body : Body) (p : StmtId → Prop) (stmt scope : StmtId) : Prop where
  around : body.Inside scope stmt
  holds : p scope
  first {other : StmtId} : body.Inside other stmt → p other → body.Inside other scope

namespace IsTree

variable (tree : body.IsTree)

include tree

/-- There is one nearest statement at most. -/
theorem nearest_unique {p : StmtId → Prop} {stmt first second : StmtId}
    (has : body.has stmt = true) (nearest : body.Nearest p stmt first)
    (nearest' : body.Nearest p stmt second) : first = second := by
  apply tree.inside_antisymm (has_of_inside nearest'.around has)
  · exact nearest'.first nearest.around nearest.holds
  · exact nearest.first nearest'.around nearest'.holds

/-- What is nearest to a child is the child itself or what is nearest to its parent. -/
theorem nearest_child {p : StmtId → Prop} {parent stmt scope : StmtId}
    (mem : stmt ∈ body.children parent) :
    body.Nearest p stmt scope ↔ p stmt ∧ scope = stmt ∨ ¬ p stmt ∧ body.Nearest p parent scope := by
  have has := tree.has_child mem
  constructor
  · intro nearest
    by_cases holds : p stmt
    · have outer := nearest.first .refl holds
      exact .inl ⟨holds, tree.inside_antisymm has nearest.around outer⟩
    · refine .inr ⟨holds, ?_⟩
      rcases (tree.inside_child_iff mem).mp nearest.around with rfl | around
      · exact (holds nearest.holds).elim
      · exact ⟨around, nearest.holds, fun around' ↦ nearest.first (.child around' mem)⟩
  · rintro (⟨holds, rfl⟩ | ⟨fails, nearest⟩)
    · exact ⟨.refl, holds, fun around _ ↦ around⟩
    · refine ⟨.child nearest.around mem, nearest.holds, ?_⟩
      intro other around holds
      rcases (tree.inside_child_iff mem).mp around with rfl | around
      · exact (fails holds).elim
      · exact nearest.first around holds

/-- A search along the lineage finds what is nearest. -/
theorem find?_lineage {p : StmtId → Bool} {stmt scope : StmtId} (has : body.has stmt = true) :
    (body.lineage stmt).find? p = some scope ↔ body.Nearest (p · = true) stmt scope := by
  apply tree.inductionDown (motive := fun stmt ↦
    (body.lineage stmt).find? p = some scope ↔ body.Nearest (p · = true) stmt scope) _ _ has
  · rw [tree.lineage_root, List.find?_singleton]
    constructor
    · intro found
      split at found
      · next holds =>
        cases found
        exact ⟨.refl, holds, fun around _ ↦ around⟩
      · cases found
    · intro nearest
      have same := tree.eq_root_of_inside nearest.around
      subst same
      rw [if_pos nearest.holds]
  · intro parent stmt mem ih
    rw [tree.lineage_child mem, List.find?_cons, tree.nearest_child mem, ← ih]
    cases p stmt with
    | true => simp [eq_comm]
    | false => simp

/-- A search along the lineage finds nothing if nothing around has the property. -/
theorem find?_lineage_eq_none {p : StmtId → Bool} {stmt : StmtId} (has : body.has stmt = true) :
    (body.lineage stmt).find? p = none ↔ ∀ scope, body.Inside scope stmt → p scope = false := by
  simp only [List.find?_eq_none, tree.mem_lineage has, Bool.not_eq_true]

end IsTree

section Roles

/-- The part that a statement plays for its parent, read off the shape of the parent. -/
inductive Plays (body : Body) (stmt : StmtId) : Role → Prop
  | tryBody {owner : StmtId} {parts : TryStatement}
    (shaped : body.get? owner = some (.tryBlock parts)) (own : parts.body = stmt) :
    Plays body stmt .tryBody
  | catchBody {owner : StmtId} {parts : TryStatement} {place : Nat} {clause : CatchClause}
    (shaped : body.get? owner = some (.tryBlock parts))
    (found : parts.catches[place]? = some clause) (own : clause.body = stmt) :
    Plays body stmt (.catchBody place)
  | handler {owner : StmtId} {parts : TryStatement} {clause : HandlerClause}
    (shaped : body.get? owner = some (.tryBlock parts)) (found : parts.handler = some clause)
    (own : clause.body = stmt) : Plays body stmt (.handler clause.kind)
  | syntheticBody {owner : StmtId} {kind : SyntheticKind}
    (shaped : body.get? owner = some (.synthetic kind stmt)) : Plays body stmt (.syntheticBody kind)
  | lambdaBody {owner : StmtId} (shaped : body.get? owner = some (.lambda stmt)) :
    Plays body stmt .lambdaBody

variable (tree : body.IsTree) {stmt : StmtId} {role : Role}

/-- The role of a part of a `try`. -/
private theorem plays_of_try {owner : StmtId} {parts : TryStatement}
    (shaped : body.get? owner = some (.tryBlock parts)) (found : parts.role? stmt = some role) :
    body.Plays stmt role := by
  rw [TryStatement.role?] at found
  split at found
  · next own =>
    cases found
    exact .tryBody shaped own
  · split at found
    · next place index =>
      cases found
      obtain ⟨lt, own, -⟩ := List.findIdx?_eq_some_iff_getElem.mp index
      exact .catchBody shaped (List.getElem?_eq_getElem lt) (beq_iff_eq.mp own)
    · obtain ⟨clause, listed, rfl⟩ := Option.map_eq_some_iff.mp found
      obtain ⟨listed, own⟩ := Option.filter_eq_some_iff.mp listed
      exact .handler shaped listed (beq_iff_eq.mp own)

include tree

/-- The place of a catch clause is the one that its body has as a role. -/
private theorem role?_catchBody {owner : StmtId} {parts : TryStatement} {place : Nat}
    {clause : CatchClause} (shaped : body.get? owner = some (.tryBlock parts))
    (found : parts.catches[place]? = some clause) :
    body.role? clause.body = some (.catchBody place) := by
  have mem := List.mem_of_getElem? found
  have child : clause.body ∈ (Statement.tryBlock parts).children :=
    List.mem_append_left _ (List.mem_cons_of_mem _ (List.mem_map_of_mem mem))
  have nodup := tree.nodup_children owner
  rw [children_of_get? shaped] at nodup
  obtain ⟨place', role⟩ := TryStatement.role?_catch nodup mem
  have same : place' = place := by
    have index : parts.catches.findIdx? (·.body == clause.body) = some place' := by
      rw [TryStatement.role?] at role
      split at role
      · cases role
      · split at role
        · next found =>
          cases role
          exact found
        · obtain ⟨_, -, same⟩ := Option.map_eq_some_iff.mp role
          cases same
    obtain ⟨lt, own, -⟩ := List.findIdx?_eq_some_iff_getElem.mp index
    have bodies : (parts.catches.map (·.body)).Nodup :=
      (List.nodup_cons.mp (List.nodup_append.mp nodup).1).2
    apply (List.getElem?_inj (by simpa using lt) bodies).mp
    rw [List.getElem?_map, List.getElem?_map, found, List.getElem?_eq_getElem lt, Option.map_some,
      beq_iff_eq.mp own, Option.map_some]
  rw [tree.role?_child child shaped, ← same]
  exact role

/-- The role of a statement is the part that it plays. -/
theorem IsTree.role?_eq_some : body.role? stmt = some role ↔ body.Plays stmt role := by
  constructor
  · intro found
    rw [role?] at found
    split at found
    · next parts outer =>
      obtain ⟨owner, -, shaped⟩ := Option.bind_eq_some_iff.mp outer
      exact plays_of_try shaped found
    · next kind inner outer =>
      cases found
      obtain ⟨owner, parent, shaped⟩ := Option.bind_eq_some_iff.mp outer
      have child := tree.parent?_eq_some.mp parent
      rw [children_of_get? shaped] at child
      cases List.mem_singleton.mp child
      exact .syntheticBody shaped
    · next inner outer =>
      cases found
      obtain ⟨owner, parent, shaped⟩ := Option.bind_eq_some_iff.mp outer
      have child := tree.parent?_eq_some.mp parent
      rw [children_of_get? shaped] at child
      cases List.mem_singleton.mp child
      exact .lambdaBody shaped
    · cases found
  · intro plays
    cases plays with
    | @tryBody owner parts shaped own =>
      subst own
      rw [tree.role?_child (List.mem_append_left _ List.mem_cons_self) shaped]
      exact TryStatement.role?_body
    | catchBody shaped found own =>
      subst own
      exact role?_catchBody tree shaped found
    | handler shaped found own =>
      subst own
      exact tree.role?_handlerBody shaped found
    | syntheticBody shaped => exact tree.role?_syntheticBody shaped
    | lambdaBody shaped =>
      have child := mem_children_of_get? shaped (List.mem_singleton_self stmt)
      exact (tree.role?_eq_lambdaBody child).mpr (isLambda_iff.mpr ⟨_, shaped⟩)

end Roles

end Body
end ProtectedRegions
