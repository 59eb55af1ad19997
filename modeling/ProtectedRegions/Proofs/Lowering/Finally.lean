import ProtectedRegions.Proofs.Code.Guards
import ProtectedRegions.Proofs.Lowering.Crossing

/-!
# Regions of `finally` handlers

A `finally` region of a method belongs to one `try` or synthetic statement, and what it protects
lies around the parts of that statement and around nothing else.
-/

namespace ProtectedRegions

/-- The guard is what a `finally` region of the statement protects. -/
theorem Guard.owner?_eq_some {guard : Guard} {stmt : StmtId} :
    guard.owner? = some stmt ↔
      guard.part = .body ∧ guard.region.kind = .finallyBlock ∧ guard.region.stmt = stmt := by
  rw [owner?]
  by_cases body : guard.part = .body ∧ guard.region.kind = .finallyBlock
  · simp [body]
  · rw [if_neg body]
    constructor
    · intro h
      cases h
    · rintro ⟨part, kind, -⟩
      exact (body ⟨part, kind⟩).elim

namespace Flow

variable {flow : Flow} {config : Config} {root : StmtId} {start : Place}

/-- The statement of a `finally` region. -/
theorem OwnFinally.kind {scopes : List StmtId} {stmt : StmtId} {place : Place} {shape : Statement}
    {region : Region} (own : flow.OwnFinally config scopes stmt place shape region) :
    region.kind = .finallyBlock ∧ region.stmt = stmt ∧ region.span.start = place.offset := by
  cases own <;> exact ⟨rfl, rfl, rfl⟩

/-- A statement has one `finally` region at most. -/
theorem OwnFinally.unique {scopes : List StmtId} {stmt : StmtId} {place : Place}
    {shape : Statement} {region region' : Region}
    (own : flow.OwnFinally config scopes stmt place shape region)
    (own' : flow.OwnFinally config scopes stmt place shape region') : region = region' := by
  cases own with
  | clause handler =>
    cases own' with
    | clause handler' =>
      rw [handler] at handler'
      cases handler'
      rfl
  | cleanup =>
    cases own'
    rfl

/-- The parts that a statement guards with a `finally` region. -/
theorem Accepted.guardian?_eq_some (accepted : flow.Accepted) {stmt part : StmtId} :
    flow.guardian? config part = some stmt ↔
      (∃ parts, flow.body.get? stmt = some (.tryBlock parts) ∧ part ∈ parts.protectedParts ∧
        parts.finallyBody?.isSome = true) ∨
      ∃ kind, flow.body.get? stmt = some (.synthetic kind part) ∧
        (flow.decideCleanup config kind stmt part).isProtected = true := by
  have tree := accepted.wellFormed.toIsTree
  constructor
  · intro h
    rw [guardian?] at h
    split at h
    · next kind owner role outer =>
      split at h
      · next guarded =>
        cases h
        exact .inr ⟨kind, tree.get?_of_syntheticBody role outer, guarded⟩
      · cases h
    · next owner outer other =>
      split at h
      · next some =>
        cases h
        obtain ⟨handler, some⟩ := Option.isSome_iff_exists.mp some
        obtain ⟨stmt', parts, found, mem, handler', child⟩ := accepted.finallyOf?_spec some
        cases tree.parent_unique child (tree.parent?_eq_some.mp outer)
        refine .inl ⟨parts, found, mem, ?_⟩
        rw [handler']
        rfl
      · cases h
    · cases h
  · rintro (⟨parts, found, mem, some⟩ | ⟨kind, found, guarded⟩)
    · rw [(bracketed_protectedPart config tree found mem).2, if_pos some]
    · have parent := tree.parent?_eq_some.mpr
        (Body.mem_children_of_get? found (List.mem_singleton_self part))
      rw [guardian?, tree.role?_syntheticBody found, parent]
      exact if_pos guarded

/-- What a statement guards are children of it. -/
theorem Accepted.mem_children_of_guardian? (accepted : flow.Accepted) {stmt part : StmtId}
    (h : flow.guardian? config part = some stmt) :
    part ∈ flow.body.children stmt ∧ (flow.body.role? part).any (·.isProtected) = true := by
  have tree := accepted.wellFormed.toIsTree
  rcases accepted.guardian?_eq_some.mp h with ⟨parts, found, mem, -⟩ | ⟨kind, found, -⟩
  · refine ⟨Body.mem_children_of_get? found (List.mem_append_left _ mem), ?_⟩
    rcases (tree.role?_protectedPart found mem).1 with role | ⟨place, role⟩
    · rw [role]
      rfl
    · rw [role]
      rfl
  · refine ⟨Body.mem_children_of_get? found (List.mem_singleton_self _), ?_⟩
    rw [tree.role?_syntheticBody found]
    rfl

/-- What a `finally` region protects around a statement lies around a part of its own. -/
theorem Laid.exists_guarded (tree : flow.body.IsTree) {stmt owner : StmtId}
    {scopes : List StmtId} {place : Place}
    (laid : flow.Laid config root start stmt scopes place) {guard : Guard}
    (mem : guard ∈ place.guards) (inner : guard ∉ start.guards)
    (owned : guard.owner? = some owner) :
    ∃ part, flow.guardian? config part = some owner ∧ flow.body.Inside part stmt := by
  induction laid with
  | root => exact (inner mem).elim
  | @child stmt scopes scopes' place shape part laid found listed nests ih =>
    have child := (mem_children_of_nested tree found listed).1
    cases bracketed : flow.isBracketed config part.stmt with
    | false =>
      rw [(nests.free bracketed).2.1] at mem
      obtain ⟨part, guards, inside⟩ := ih mem
      exact ⟨part, guards, .child inside child⟩
    | true =>
      obtain ⟨-, fence, outer, guards, owners, -⟩ := nests.bracketed bracketed
      rw [guards, List.mem_append] at mem
      rcases mem with mem | mem
      · have listed : owner ∈ (flow.guardian? config part.stmt).toList := by
          rw [← owners]
          exact List.mem_filterMap.mpr ⟨guard, mem, owned⟩
        exact ⟨part.stmt, Option.mem_toList.mp listed, .refl⟩
      · obtain ⟨part, guards, inside⟩ := ih mem
        exact ⟨part, guards, .child inside child⟩

namespace Accepted

variable (accepted : flow.Accepted) (member : root ∈ flow.body.methods)

include accepted member

/-- The statement of a `finally` region, with its place. -/
theorem exists_finally {region : Region} {at' : Place}
    (opens : (.opens region, at') ∈ (flow.methodCode config root).tokens start)
    (kind : region.kind = .finallyBlock) :
    ∃ scopes place shape, flow.Laid config root start region.stmt scopes place ∧
      flow.body.get? region.stmt = some shape ∧
      flow.OwnFinally config scopes region.stmt place shape region := by
  have tree := accepted.wellFormed.toIsTree
  rcases List.mem_append.mp opens with mem | mem
  · obtain ⟨stmt, scopes, place, shape, laid, found, own⟩ :=
      exists_own tree (tree.has_of_mem_methods member) mem (by simp)
    have own := (forall_own_template config tree found scopes place _ own).2 kind
    obtain ⟨-, same, -⟩ := own.kind
    subst same
    exact ⟨scopes, place, shape, laid, found, own⟩
  · rcases mem_epilogue mem with same | same <;> cases same

/-- The `finally` regions of different statements are different, and so is what they protect. -/
theorem owner_unique {guard guard' : Guard} {owner : StmtId}
    (listed : guard ∈ (flow.methodCode config root).guards start)
    (listed' : guard' ∈ (flow.methodCode config root).guards start)
    (owned : guard.owner? = some owner) (owned' : guard'.owner? = some owner) :
    guard = guard' := by
  have tree := accepted.wellFormed.toIsTree
  have rooted := tree.has_of_mem_methods member
  have formed := (accepted.methodFormed config member).formed
  obtain ⟨body, kind, rfl⟩ := Guard.owner?_eq_some.mp owned
  obtain ⟨body', kind', same⟩ := Guard.owner?_eq_some.mp owned'
  obtain ⟨at', opens⟩ := Code.opens_of_guard listed
  obtain ⟨at'', opens'⟩ := Code.opens_of_guard listed'
  obtain ⟨scopes, place, shape, laid, found, own⟩ := accepted.exists_finally member opens kind
  obtain ⟨scopes', place', shape', laid', found', own'⟩ :=
    accepted.exists_finally member opens' kind'
  rw [same] at laid' found' own'
  cases laid.scopes_unique tree rooted laid'
  cases laid.place_unique tree rooted laid'
  cases found.symm.trans found'
  exact Code.body_unique formed listed listed' body body' (own.unique own')

end Accepted
end Flow
end ProtectedRegions
