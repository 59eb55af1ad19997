import ProtectedRegions.Proofs.Flow.Live

/-!
# The `try` statements that a jump leaves

The `finally` bodies on the way of a jump belong to the `try` statements with a protected part that
the jump leaves. They come in the order of their nesting, from the inside out.
-/

namespace ProtectedRegions

namespace Body

variable {body : Body}

/-- Each statement of a lineage lies inside those behind it. -/
theorem IsTree.pairwise_lineage (tree : body.IsTree) {stmt : StmtId} (has : body.has stmt = true) :
    (body.lineage stmt).Pairwise fun inner outer ↦ inner ≠ outer ∧ body.Inside outer inner := by
  apply tree.inductionDown (motive := fun stmt ↦ (body.lineage stmt).Pairwise
    fun inner outer ↦ inner ≠ outer ∧ body.Inside outer inner) _ _ has
  · rw [tree.lineage_root]
    exact List.pairwise_singleton ..
  · intro parent stmt mem ih
    rw [tree.lineage_child mem, List.pairwise_cons]
    refine ⟨?_, ih⟩
    intro outer listed
    have around := (tree.mem_lineage (has_of_mem_children mem)).mp listed
    refine ⟨?_, .child around mem⟩
    rintro rfl
    exact tree.not_inside_parent mem around

/-- The parts of a `try` are protected scopes. -/
theorem IsTree.isProtected_of_try (tree : body.IsTree) {owner part : StmtId} {parts : TryStatement}
    (shaped : body.get? owner = some (.tryBlock parts)) (child : part ∈ body.children owner) :
    (body.role? part).any (·.isProtected) = true := by
  rw [children_of_get? shaped, Statement.children, List.mem_append] at child
  rcases child with mem | mem
  · rcases (tree.role?_protectedPart shaped mem).1 with role | ⟨place, role⟩ <;>
    · rw [role]
      rfl
  · obtain ⟨clause, handler, rfl⟩ := Option.map_eq_some_iff.mp (Option.mem_toList.mp mem)
    rw [tree.role?_handlerBody shaped handler]
    rfl

/-- The body of the `finally` of a statement. -/
def finallyBody? (body : Body) (stmt : StmtId) : Option StmtId :=
  match body.get? stmt with
  | some (.tryBlock parts) => parts.finallyBody?
  | _ => none

/-- The `try` whose `finally` runs when the given part is left. -/
def tryOf? (body : Body) (part : StmtId) : Option StmtId :=
  if (body.finallyOf? part).isSome then body.parent? part else none

/-- The `try` statements with a `finally` that are left on the way from one statement to another,
innermost first. -/
def triesLeft (body : Body) (numbering : Numbering) (stmt other : StmtId) : List StmtId :=
  (body.apart numbering stmt other).filterMap body.tryOf?

/-- The `finally` of a `try` protects a part that holds one statement but not the other. -/
def LeavesTry (body : Body) (stmt other owner : StmtId) : Prop :=
  ∃ parts part, body.get? owner = some (.tryBlock parts) ∧ parts.finallyBody?.isSome = true ∧
    part ∈ parts.protectedParts ∧ body.Inside part stmt ∧ ¬ body.Inside part other

end Body

namespace Flow.Accepted

variable {flow : Flow} (accepted : flow.Accepted)

include accepted

/-- The parts of a `try` that its `finally` protects. -/
theorem tryOf?_eq_some {owner part : StmtId} :
    flow.body.tryOf? part = some owner ↔ ∃ parts, flow.body.get? owner = some (.tryBlock parts) ∧
      parts.finallyBody?.isSome = true ∧ part ∈ parts.protectedParts := by
  have tree := accepted.wellFormed.toIsTree
  rw [Body.tryOf?]
  constructor
  · intro found
    split at found
    · next some =>
      obtain ⟨handler, some⟩ := Option.isSome_iff_exists.mp some
      obtain ⟨stmt, parts, shaped, mem, handled, child⟩ := accepted.finallyOf?_spec some
      cases tree.parent_unique child (tree.parent?_eq_some.mp found)
      refine ⟨parts, shaped, ?_, mem⟩
      rw [handled]
      rfl
    · cases found
  · rintro ⟨parts, shaped, handled, mem⟩
    rw [(tree.role?_protectedPart shaped mem).2, if_pos handled]
    exact tree.parent?_eq_some.mpr (Body.mem_children_of_get? shaped (List.mem_append_left _ mem))

/-- The `finally` of a protected part is that of its `try`. -/
theorem finallyOf?_eq (part : StmtId) :
    flow.body.finallyOf? part = (flow.body.tryOf? part).bind flow.body.finallyBody? := by
  have tree := accepted.wellFormed.toIsTree
  cases handled : flow.body.tryOf? part with
  | none =>
    cases found : flow.body.finallyOf? part with
    | none => rfl
    | some handler =>
      obtain ⟨stmt, parts, -, -, -, child⟩ := accepted.finallyOf?_spec found
      rw [Body.tryOf?, found, tree.parent?_eq_some.mpr child] at handled
      cases handled
  | some owner =>
    obtain ⟨parts, shaped, -, mem⟩ := accepted.tryOf?_eq_some.mp handled
    rw [(tree.role?_protectedPart shaped mem).2, Option.bind_some, Body.finallyBody?, shaped]

section Left

variable {stmt other : StmtId} (has : flow.body.has stmt = true)
  (has' : flow.body.has other = true)

include has

/-- The `try` statements left come from the inside out. -/
theorem pairwise_triesLeft (other : StmtId) :
    (flow.body.triesLeft flow.numbering stmt other).Pairwise fun inner outer ↦
      inner ≠ outer ∧ flow.body.Inside outer inner := by
  have tree := accepted.wellFormed.toIsTree
  have chain := (tree.pairwise_lineage has).sublist
    (List.takeWhile_sublist (!flow.numbering.contains · other))
  apply chain.filterMap
  intro part part' nested owner found owner' found'
  obtain ⟨parts, shaped, -, mem⟩ := accepted.tryOf?_eq_some.mp found
  obtain ⟨parts', shaped', -, mem'⟩ := accepted.tryOf?_eq_some.mp found'
  have child := Body.mem_children_of_get? shaped (List.mem_append_left _ mem)
  have child' := Body.mem_children_of_get? shaped' (List.mem_append_left _ mem')
  have around : flow.body.Inside part' owner := by
    rcases (tree.inside_child_iff child).mp nested.2 with same | around
    · exact (nested.1 same.symm).elim
    · exact around
  refine ⟨?_, (Body.Inside.of_child child').trans around⟩
  rintro rfl
  exact tree.not_inside_parent child' around

include has'

/-- The `try` statements left are those with a `finally` and a protected part that holds the one
statement but not the other. -/
theorem mem_triesLeft {owner : StmtId} :
    owner ∈ flow.body.triesLeft flow.numbering stmt other ↔
      flow.body.LeavesTry stmt other owner := by
  rw [Body.triesLeft, List.mem_filterMap]
  constructor
  · rintro ⟨part, left, found⟩
    obtain ⟨parts, shaped, handled, mem⟩ := accepted.tryOf?_eq_some.mp found
    obtain ⟨inside, outside⟩ := (accepted.mem_apart has has').mp left
    exact ⟨parts, part, shaped, handled, mem, inside, outside⟩
  · rintro ⟨parts, part, shaped, handled, mem, inside, outside⟩
    exact ⟨part, (accepted.mem_apart has has').mpr ⟨inside, outside⟩,
      accepted.tryOf?_eq_some.mpr ⟨parts, shaped, handled, mem⟩⟩

/-- The `finally` bodies of the `try` statements left are those of the parts left. -/
theorem map_triesLeft :
    (flow.body.triesLeft flow.numbering stmt other).map flow.body.finallyBody? =
      ((flow.body.apart flow.numbering stmt other).filterMap flow.body.finallyOf?).map some := by
  have bodies : flow.body.finallyOf? =
      fun part ↦ (flow.body.tryOf? part).bind flow.body.finallyBody? :=
    funext accepted.finallyOf?_eq
  have found : ∀ handler? ∈
      (flow.body.triesLeft flow.numbering stmt other).map flow.body.finallyBody?,
      handler?.isSome = true := by
    intro handler? mem
    obtain ⟨owner, listed, rfl⟩ := List.mem_map.mp mem
    obtain ⟨parts, part, shaped, handled, -⟩ := (accepted.mem_triesLeft has has').mp listed
    rw [Body.finallyBody?, shaped]
    exact handled
  rw [bodies, ← List.filterMap_filterMap, List.map_filterMap_some_eq_filter_map_isSome]
  exact (List.filter_eq_self.mpr found).symm

/-- No `finally` body is on the way twice. -/
theorem nodup_finallyOf? :
    ((flow.body.apart flow.numbering stmt other).filterMap flow.body.finallyOf?).Nodup := by
  have tree := accepted.wellFormed.toIsTree
  apply List.Nodup.of_map some
  rw [← accepted.map_triesLeft has has']
  have distinct := (accepted.pairwise_triesLeft has other).imp fun nested ↦ nested.1
  apply List.Nodup.map_on _ distinct
  intro owner listed owner' listed' same
  obtain ⟨parts, -, shaped, handled, -⟩ := (accepted.mem_triesLeft has has').mp listed
  obtain ⟨parts', -, shaped', -⟩ := (accepted.mem_triesLeft has has').mp listed'
  obtain ⟨handler, handled⟩ := Option.isSome_iff_exists.mp handled
  simp only [Body.finallyBody?, shaped, shaped', handled] at same
  exact tree.parent_unique (Body.mem_children_of_finallyBody? shaped handled)
    (Body.mem_children_of_finallyBody? shaped' same.symm)

end Left

end Flow.Accepted
end ProtectedRegions
