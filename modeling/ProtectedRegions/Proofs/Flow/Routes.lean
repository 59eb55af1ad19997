import ProtectedRegions.Flow.Basic
import ProtectedRegions.Proofs.Body.Drafts
import ProtectedRegions.Proofs.Flow.Meeting

/-!
# Accepted bodies and their jumps

What acceptance by the flow analysis says. Each jump has a target in its own method; a `break`
or `continue` goes to a construct around it. A jump leaves no handler and enters no protected
scope, and its route lists the `finally` bodies of the scopes it leaves.
-/

namespace ProtectedRegions

/-- The flow of a well-formed body that the analysis accepts. -/
structure Flow.Accepted (flow : Flow) : Prop where
  wellFormed : flow.body.WellFormed
  analysed : Flow.ofBody flow.body = .ok flow

namespace Body

variable {body : Body}

/-- What is found around a statement lies around it in the same method. -/
theorem IsTree.enclosing?_spec (tree : body.IsTree) {accepts : Statement → Bool}
    {stmt construct : StmtId} (has : body.has stmt = true)
    (h : body.enclosing? accepts stmt = some construct) :
    body.Inside construct stmt ∧ construct ≠ stmt ∧
      body.methodOf construct = body.methodOf stmt ∧
      (body.get? construct).any accepts = true := by
  have mem := List.mem_of_find?_eq_some h
  have accepted : (body.get? construct).any accepts = true := by
    rw [enclosing?, List.find?_eq_some_iff_append] at h
    exact h.1
  have nearby : ∀ outer ∈ (body.ancestors stmt).takeWhile (!body.isLambda ·),
      body.Inside outer stmt ∧ outer ≠ stmt ∧ body.methodOf outer = body.methodOf stmt := by
    refine tree.inductionDown (motive := fun stmt ↦
      ∀ outer ∈ (body.ancestors stmt).takeWhile (!body.isLambda ·),
        body.Inside outer stmt ∧ outer ≠ stmt ∧ body.methodOf outer = body.methodOf stmt)
      ?_ (fun parent stmt mem ih ↦ ?_) has
    · rw [ancestors, tree.lineage_root]
      intro outer mem
      cases mem
    · rw [tree.ancestors_child mem, lineage_eq_cons, List.takeWhile_cons]
      intro outer found
      split at found
      · next open' =>
        have sameMethod : body.methodOf stmt = body.methodOf parent := by
          rw [tree.methodOf_child mem, if_neg (by simpa using open')]
        rcases List.mem_cons.mp found with rfl | found
        · refine ⟨.of_child mem, ?_, sameMethod.symm⟩
          rintro rfl
          exact tree.not_inside_parent mem .refl
        · obtain ⟨inside, -, same⟩ := ih outer found
          refine ⟨.child inside mem, ?_, same.trans sameMethod.symm⟩
          rintro rfl
          exact tree.not_inside_parent mem inside
      · cases found
  obtain ⟨inside, different, same⟩ := nearby construct mem
  exact ⟨inside, different, same, accepted⟩

/-- What a resolved jump of the given form goes to. -/
inductive Resolved (body : Body) (stmt : StmtId) : Jump → JumpTarget → Prop
  | goto {label : LabelId} {target inner : StmtId}
      (found : body.get? target = some (.labeled label inner))
      (same : body.methodOf target = body.methodOf stmt) :
      Resolved body stmt (.goto label) (.atLabel label target)
  | breakOut {construct : StmtId} (inside : body.Inside construct stmt)
      (different : construct ≠ stmt) (same : body.methodOf construct = body.methodOf stmt)
      (shape : (body.get? construct).any (·.isBreakable) = true) :
      Resolved body stmt .breakOut (.breakOf construct)
  | continueLoop {loop : StmtId} (inside : body.Inside loop stmt) (different : loop ≠ stmt)
      (same : body.methodOf loop = body.methodOf stmt)
      (shape : (body.get? loop).any (·.isLoop) = true) :
      Resolved body stmt .continueLoop (.continueOf loop)
  | returnOut : Resolved body stmt .returnOut (.returnFrom (body.methodOf stmt))

/-- A jump that resolves goes where its form says. -/
theorem WellFormed.resolve_spec (wf : body.WellFormed) {stmt : StmtId} {form : Jump}
    {target : JumpTarget} (has : body.has stmt = true)
    (h : body.resolve (Numbering.ofBody body) stmt form = .ok target) :
    body.Resolved stmt form target := by
  have tree := wf.toIsTree
  cases form with
  | goto label =>
    simp only [resolve] at h
    split at h
    · cases h
    · next other defined =>
      split at h
      · next same =>
        cases h
        obtain ⟨inner, found⟩ := wf.labelTarget?_eq_some.mp defined
        rw [Numbering.methodOf_ofBody tree has,
          Numbering.methodOf_ofBody tree (has_iff_get?.mpr ⟨_, found⟩)] at same
        exact .goto found same
      · cases h
  | breakOut =>
    simp only [resolve] at h
    split at h
    · next construct found =>
      cases h
      obtain ⟨inside, different, same, shape⟩ := tree.enclosing?_spec has found
      exact .breakOut inside different same shape
    · cases h
  | continueLoop =>
    simp only [resolve] at h
    split at h
    · next loop found =>
      cases h
      obtain ⟨inside, different, same, shape⟩ := tree.enclosing?_spec has found
      exact .continueLoop inside different same shape
    · cases h
  | returnOut =>
    cases h
    rw [Numbering.methodOf_ofBody tree has]
    exact .returnOut

/-- A jump lands in a scope of the body that runs in the method of the jump. -/
theorem Resolved.scope_spec {stmt : StmtId} {form : Jump} {target : JumpTarget}
    (tree : body.IsTree) (has : body.has stmt = true) (h : body.Resolved stmt form target) :
    body.has target.scope = true ∧ body.methodOf target.scope = body.methodOf stmt := by
  cases h with
  | goto found same => exact ⟨has_iff_get?.mpr ⟨_, found⟩, same⟩
  | breakOut inside _ same _ => exact ⟨has_of_inside inside has, same⟩
  | continueLoop inside _ same _ => exact ⟨has_of_inside inside has, same⟩
  | returnOut =>
    exact ⟨tree.has_of_mem_methods (tree.methodOf_spec has).1, tree.methodOf_methodOf has⟩

/-- A jump other than a `goto` lands in a scope around it. -/
theorem Resolved.inside_or_goto {stmt : StmtId} {form : Jump} {target : JumpTarget}
    (tree : body.IsTree) (has : body.has stmt = true) (h : body.Resolved stmt form target) :
    body.Inside target.scope stmt ∨ ∃ label, target = .atLabel label target.scope := by
  cases h with
  | goto => exact .inr ⟨_, rfl⟩
  | breakOut inside => exact .inl inside
  | continueLoop inside => exact .inl inside
  | returnOut => exact .inl (tree.methodOf_spec has).2

end Body

namespace Flow

/-- The routes of all jumps in id order. -/
def jumps (flow : Flow) : List Route := flow.routes.toList.filterMap id

variable {body : Body} {flow : Flow}

/-- The parts of an accepted flow. -/
theorem ofBody_eq_ok (h : ofBody body = .ok flow) :
    flow.body = body ∧ flow.numbering = Numbering.ofBody body ∧
      flow.reach = .ofBody body flow.jumps ∧ flow.routes.size = body.size ∧
      ∀ stmt, body.has stmt = true → ∃ route, flow.routes[stmt.index]? = some route ∧
        body.route? (Numbering.ofBody body) stmt = .ok route := by
  obtain ⟨routes, listed, h⟩ := Outcome.bind_eq_ok.mp h
  cases h
  have listed := Outcome.mapM_eq_ok.mp listed
  have length := listed.length_eq
  have size : body.ids.length = body.size := by simp [Body.ids, StatementTable.ids, Body.size]
  refine ⟨rfl, rfl, rfl, by simp [← length, size], fun stmt has ↦ ?_⟩
  have lt : stmt.index < body.size := of_decide_eq_true has
  have lt' : stmt.index < routes.length := by omega
  refine ⟨routes[stmt.index], by simp [lt'], ?_⟩
  have := listed.get (i := stmt.index) (by omega) lt'
  simpa [Body.ids, StatementTable.ids] using this

/-- Acceptance of a well-formed body. -/
theorem accepted_of_ofBody (wf : body.WellFormed) (h : ofBody body = .ok flow) :
    flow.body = body ∧ flow.Accepted := by
  obtain ⟨rfl, -⟩ := ofBody_eq_ok h
  exact ⟨rfl, wf, h⟩

/-- A jump has a route: its target resolves and the scopes it leaves and enters are legal. -/
structure Routed (flow : Flow) (stmt : StmtId) (form : Jump) (route : Route) : Prop where
  entry : flow.routes[stmt.index]? = some (some route)
  source : route.source = stmt
  resolved : flow.body.resolve flow.numbering stmt form = .ok route.target
  checked : flow.body.checkJump flow.numbering stmt form route.target = .ok route.requires

namespace Accepted

variable (accepted : flow.Accepted)

include accepted

/-- Every jump has a route. -/
theorem exists_routed {stmt : StmtId} {form : Jump}
    (found : flow.body.get? stmt = some (.jump form)) : ∃ route, flow.Routed stmt form route := by
  obtain ⟨-, numbering, -, -, routes⟩ := ofBody_eq_ok accepted.analysed
  obtain ⟨route, entry, checked⟩ := routes stmt (Body.has_iff_get?.mpr ⟨_, found⟩)
  simp only [Body.route?, found] at checked
  obtain ⟨target, resolved, checked⟩ := Outcome.bind_eq_ok.mp checked
  obtain ⟨requires, passed, built⟩ := Outcome.bind_eq_ok.mp checked
  cases built
  exact ⟨_, entry, rfl, numbering ▸ resolved, numbering ▸ passed⟩

/-- Only jumps have routes. -/
theorem routed_of_entry {stmt : StmtId} {route : Route}
    (entry : flow.routes[stmt.index]? = some (some route)) :
    ∃ form, flow.body.get? stmt = some (.jump form) ∧ flow.Routed stmt form route := by
  obtain ⟨-, -, -, size, routes⟩ := ofBody_eq_ok accepted.analysed
  have has : flow.body.has stmt = true := by
    obtain ⟨lt, -⟩ := Array.getElem?_eq_some_iff.mp entry
    exact decide_eq_true (size ▸ lt)
  obtain ⟨route', entry', checked⟩ := routes stmt has
  rw [entry] at entry'
  cases entry'
  unfold Body.route? at checked
  split at checked
  · next form found =>
    obtain ⟨route', routed⟩ := accepted.exists_routed found
    have same := routed.entry
    rw [entry] at same
    cases same
    exact ⟨form, found, routed⟩
  · split at checked <;> cases checked
  · cases checked

/-- The target of a statement is that of its route. -/
theorem target?_eq_some {stmt : StmtId} {target : JumpTarget} :
    flow.target? stmt = some target ↔ ∃ form route, flow.body.get? stmt = some (.jump form) ∧
      flow.Routed stmt form route ∧ route.target = target := by
  unfold target?
  constructor
  · intro h
    obtain ⟨route, entry, rfl⟩ := Option.map_eq_some_iff.mp h
    rw [Option.join_eq_some_iff] at entry
    obtain ⟨form, found, routed⟩ := accepted.routed_of_entry entry
    exact ⟨form, route, found, routed, rfl⟩
  · rintro ⟨form, route, -, routed, rfl⟩
    rw [routed.entry]
    rfl

/-- The jumps are the routes of the statements that are jumps. -/
theorem mem_jumps {route : Route} :
    route ∈ flow.jumps ↔ ∃ form, flow.body.get? route.source = some (.jump form) ∧
      flow.Routed route.source form route := by
  simp only [jumps, List.mem_filterMap, id_eq, exists_eq_right, Array.mem_toList_iff]
  constructor
  · intro mem
    obtain ⟨index, entry⟩ := Array.mem_iff_getElem?.mp mem
    have atIndex : flow.routes[(StmtId.mk index).index]? = some (some route) := entry
    obtain ⟨form, found, routed⟩ := accepted.routed_of_entry atIndex
    rw [routed.source]
    exact ⟨form, found, routed⟩
  · rintro ⟨form, -, routed⟩
    exact Array.mem_iff_getElem?.mpr ⟨_, routed.entry⟩

/-- Containment between statements of the body. -/
theorem contains_iff {outer inner : StmtId} (has : flow.body.has outer = true)
    (has' : flow.body.has inner = true) :
    flow.contains outer inner = true ↔ flow.body.Inside outer inner := by
  obtain ⟨-, numbering, -⟩ := ofBody_eq_ok accepted.analysed
  rw [contains, numbering]
  exact Numbering.contains_iff accepted.wellFormed.toIsTree has has'

/-- Only statements of the body contain one another. -/
theorem has_of_contains {outer inner : StmtId} (holds : flow.contains outer inner = true) :
    flow.body.has outer = true ∧ flow.body.has inner = true := by
  obtain ⟨-, numbering, -⟩ := ofBody_eq_ok accepted.analysed
  rw [contains, numbering] at holds
  by_contra foreign
  rw [Classical.not_and_iff_not_or_not, Bool.not_eq_true, Bool.not_eq_true] at foreign
  rw [Numbering.contains_eq_false foreign] at holds
  cases holds

/-- What contains a statement of the body is what the statement lies inside. -/
theorem contains_iff_inside {outer inner : StmtId} (has : flow.body.has inner = true) :
    flow.contains outer inner = true ↔ flow.body.Inside outer inner := by
  constructor
  · intro holds
    exact (accepted.contains_iff (accepted.has_of_contains holds).1 has).mp holds
  · intro inside
    exact (accepted.contains_iff (Body.has_of_inside inside has) has).mpr inside

/-- The method that is noted for a statement is the one found by looking outward. -/
theorem methodOf_eq {stmt : StmtId} (has : flow.body.has stmt = true) :
    flow.methodOf stmt = flow.body.methodOf stmt := by
  obtain ⟨-, numbering, -⟩ := ofBody_eq_ok accepted.analysed
  rw [methodOf, numbering, Numbering.methodOf_ofBody accepted.wellFormed.toIsTree has]

/-- The target of a jump resolves. -/
theorem resolved_of_routed {stmt : StmtId} {form : Jump} {route : Route}
    (found : flow.body.get? stmt = some (.jump form)) (routed : flow.Routed stmt form route) :
    flow.body.Resolved stmt form route.target := by
  have resolved := routed.resolved
  rw [(ofBody_eq_ok accepted.analysed).2.1] at resolved
  exact accepted.wellFormed.resolve_spec (Body.has_iff_get?.mpr ⟨_, found⟩) resolved

/-- What a statement is apart from are the scopes that hold it and not the other one. -/
theorem mem_apart {stmt other scope : StmtId} (has : flow.body.has stmt = true)
    (has' : flow.body.has other = true) :
    scope ∈ flow.body.apart flow.numbering stmt other ↔
      flow.body.Inside scope stmt ∧ ¬ flow.body.Inside scope other := by
  have numbered : flow.numbering = Numbering.ofBody flow.body :=
    (Flow.ofBody_eq_ok accepted.analysed).2.1
  rw [numbered]
  exact accepted.wellFormed.toIsTree.mem_apart has has'

/-- What a legal jump leaves and enters: no handler that does not hold its target, no protected
scope that does not hold the jump. It requires the `finally` bodies of the parts it leaves. -/
theorem checked_spec {stmt : StmtId} {form : Jump} {route : Route}
    (found : flow.body.get? stmt = some (.jump form)) (routed : flow.Routed stmt form route) :
    (∀ scope, flow.body.Inside scope stmt → ¬ flow.body.Inside scope route.target.scope →
        ∀ kind, flow.body.role? scope ≠ some (.handler kind)) ∧
      (∀ scope, flow.body.Inside scope route.target.scope → ¬ flow.body.Inside scope stmt →
        (flow.body.role? scope).any (·.isProtected) = false) ∧
      route.requires = (flow.body.apart flow.numbering stmt route.target.scope).filterMap
        flow.body.finallyOf? := by
  obtain ⟨-, numbering, -⟩ := ofBody_eq_ok accepted.analysed
  have tree := accepted.wellFormed.toIsTree
  have has := Body.has_iff_get?.mpr ⟨_, found⟩
  have resolved := accepted.resolved_of_routed found routed
  have has' := (resolved.scope_spec tree has).1
  have checked := routed.checked
  rw [numbering, tree.checkJump_eq has has'] at checked
  split at checked
  · cases checked
  · next staysIn =>
    split at checked
    · cases checked
    · next staysOut =>
      have requires := Except.ok.inj checked
      refine ⟨fun scope inside outside kind role ↦ ?_, fun scope inside outside ↦ ?_,
        numbering ▸ requires.symm⟩
      · have mem := (tree.mem_apart has has').mpr ⟨inside, outside⟩
        have none := List.findSome?_eq_none_iff.mp staysIn scope mem
        rw [Body.handlerKind?_eq_some.mpr role] at none
        cases none
      · rcases resolved.inside_or_goto tree has with around | ⟨label, isGoto⟩
        · exact absurd (inside.trans around) outside
        · rw [isGoto] at staysOut
          have mem := (tree.mem_apart has' has).mpr ⟨inside, outside⟩
          have := List.find?_eq_none.mp staysOut scope mem
          simpa using this

end Accepted
end Flow
end ProtectedRegions
