import ProtectedRegions.Proofs.Flow.Marking
import ProtectedRegions.Proofs.Flow.Outward

/-!
# The rules of jumps and rethrows

What a body must keep to for its jumps and rethrows to make sense, said of the tree of statements
alone. The analysis of a body accepts it exactly if it keeps these rules, and refuses it as
malformed otherwise.
-/

namespace ProtectedRegions

/-- Adds edges one after the other, as long as their end points are nodes. -/
def Digraph.addEdges {ν ε : Type} (graph : Digraph ν ε) :
    List (Digraph.Edge ε) → Except Digraph.MissingNode (Digraph ν ε)
  | [] => .ok graph
  | edge :: rest => do
    let (_, next) ← graph.addEdge edge
    next.addEdges rest

namespace Body

variable {body : Body}

/-- Where a jump of the given form goes: to the statement that defines its label, to the innermost
construct around it, or out of its method. -/
inductive Goes (body : Body) (stmt : StmtId) : Jump → JumpTarget → Prop
  | goto {label : LabelId} {target inner : StmtId}
    (defined : body.get? target = some (.labeled label inner)) :
    Goes body stmt (.goto label) (.atLabel label target)
  | breakOut {construct : StmtId}
    (encloses : body.EnclosesFirst Statement.isBreakable stmt construct) :
    Goes body stmt .breakOut (.breakOf construct)
  | continueLoop {loop : StmtId} (encloses : body.EnclosesFirst Statement.isLoop stmt loop) :
    Goes body stmt .continueLoop (.continueOf loop)
  | returnOut {root : StmtId} (method : body.IsMethodOf stmt root) :
    Goes body stmt .returnOut (.returnFrom root)

/-- A way from one statement to another leaves no handler of a `finally` or `fault`. -/
def LeavesNoHandler (body : Body) (stmt other : StmtId) : Prop :=
  ∀ scope kind, body.Inside scope stmt → ¬ body.Inside scope other →
    ¬ body.Plays scope (.handler kind)

/-- A way from one statement to another enters no part of a `try` and no synthetic body. -/
def EntersNoProtected (body : Body) (stmt other : StmtId) : Prop :=
  ∀ scope role, body.Inside scope other → ¬ body.Inside scope stmt → body.Plays scope role →
    role = .lambdaBody

/-- The rules of jumps and rethrows. -/
structure KeepsRules (body : Body) : Prop where
  breaks {stmt : StmtId} : body.get? stmt = some (.jump .breakOut) →
    ∃ construct, body.Encloses Statement.isBreakable stmt construct
  continues {stmt : StmtId} : body.get? stmt = some (.jump .continueLoop) →
    ∃ loop, body.Encloses Statement.isLoop stmt loop
  stays {stmt target inner : StmtId} {label : LabelId} :
    body.get? stmt = some (.jump (.goto label)) →
    body.get? target = some (.labeled label inner) → body.SharesLambda stmt target
  rethrows {stmt : StmtId} : body.get? stmt = some .rethrow → body.IsInCatch stmt
  leaves {stmt : StmtId} {form : Jump} {target : JumpTarget} :
    body.get? stmt = some (.jump form) → body.Goes stmt form target →
    body.LeavesNoHandler stmt target.scope
  enters {stmt target inner : StmtId} {label : LabelId} :
    body.get? stmt = some (.jump (.goto label)) →
    body.get? target = some (.labeled label inner) → body.EntersNoProtected stmt target

section Jumps

variable (wf : body.WellFormed) {stmt : StmtId} (has : body.has stmt = true) {form : Jump}
  {target : JumpTarget}

include wf has

/-- A `goto` resolves to the statement that defines its label, provided that both are in one
method. -/
private theorem resolve_goto {label : LabelId} :
    body.resolve (Numbering.ofBody body) stmt (.goto label) = .ok target ↔
      ∃ dest inner, body.get? dest = some (.labeled label inner) ∧ body.SharesLambda stmt dest ∧
        target = .atLabel label dest := by
  have same {dest inner : StmtId} (defined : body.get? dest = some (.labeled label inner)) :
      (Numbering.ofBody body).methodOf body.root dest =
        (Numbering.ofBody body).methodOf body.root stmt ↔ body.SharesLambda stmt dest := by
    have has' := has_iff_get?.mpr ⟨_, defined⟩
    rw [Numbering.methodOf_ofBody wf.toIsTree has, Numbering.methodOf_ofBody wf.toIsTree has']
    exact wf.toIsTree.methodOf_eq_methodOf_iff has has'
  rw [resolve]
  constructor
  · intro resolved
    split at resolved
    · cases resolved
    · next dest defined =>
      obtain ⟨inner, defined⟩ := wf.labelTarget?_eq_some.mp defined
      split at resolved
      · next shares =>
        cases resolved
        exact ⟨dest, inner, defined, (same defined).mp shares, rfl⟩
      · cases resolved
  · rintro ⟨dest, inner, defined, shares, rfl⟩
    rw [wf.labelTarget?_eq_some.mpr ⟨inner, defined⟩]
    exact if_pos ((same defined).mpr shares)

/-- A jump out of the nearest construct of a kind resolves to that construct. -/
private theorem enclosing_eq_ok {accepts : Statement → Bool} {make : StmtId → JumpTarget}
    {missing : Error} :
    (match body.enclosing? accepts stmt with
      | some construct => .ok (make construct)
      | none => .error missing : Except Error JumpTarget) = .ok target ↔
      ∃ construct, body.EnclosesFirst accepts stmt construct ∧ target = make construct := by
  simp only [← wf.toIsTree.enclosing?_eq_some has]
  cases body.enclosing? accepts stmt with
  | none => simp
  | some construct => simp [eq_comm]

/-- A jump resolves to where it goes, provided that a `goto` stays in its method. -/
theorem WellFormed.resolve_eq_ok :
    body.resolve (Numbering.ofBody body) stmt form = .ok target ↔
      body.Goes stmt form target ∧
        ∀ label, form = .goto label → body.SharesLambda stmt target.scope := by
  have tree := wf.toIsTree
  cases form with
  | goto label =>
    rw [resolve_goto wf has]
    constructor
    · rintro ⟨dest, inner, defined, shares, rfl⟩
      exact ⟨.goto defined, fun _ _ ↦ shares⟩
    · rintro ⟨goes, shares⟩
      cases goes with
      | goto defined => exact ⟨_, _, defined, shares label rfl, rfl⟩
  | breakOut =>
    refine (enclosing_eq_ok wf has).trans ?_
    constructor
    · rintro ⟨construct, encloses, rfl⟩
      refine ⟨.breakOut encloses, ?_⟩
      rintro label ⟨⟩
    · rintro ⟨goes, -⟩
      cases goes with
      | breakOut encloses => exact ⟨_, encloses, rfl⟩
  | continueLoop =>
    refine (enclosing_eq_ok wf has).trans ?_
    constructor
    · rintro ⟨loop, encloses, rfl⟩
      refine ⟨.continueLoop encloses, ?_⟩
      rintro label ⟨⟩
    · rintro ⟨goes, -⟩
      cases goes with
      | continueLoop encloses => exact ⟨_, encloses, rfl⟩
  | returnOut =>
    rw [resolve, Numbering.methodOf_ofBody tree has]
    constructor
    · intro resolved
      cases resolved
      refine ⟨.returnOut ((tree.methodOf_eq_iff has).mp rfl), ?_⟩
      rintro label ⟨⟩
    · rintro ⟨goes, -⟩
      cases goes with
      | returnOut method => rw [(tree.methodOf_eq_iff has).mpr method]

/-- What a jump leaves holds no handler body. -/
private theorem findSome?_handlerKind? {other : StmtId} (has' : body.has other = true) :
    (body.apart (Numbering.ofBody body) stmt other).findSome? body.handlerKind? = none ↔
      body.LeavesNoHandler stmt other := by
  have tree := wf.toIsTree
  rw [List.findSome?_eq_none_iff]
  constructor
  · intro none scope kind inside outside plays
    have left := none scope ((tree.mem_apart has has').mpr ⟨inside, outside⟩)
    rw [handlerKind?_eq_some.mpr (tree.role?_eq_some.mpr plays)] at left
    cases left
  · intro leaves scope mem
    obtain ⟨inside, outside⟩ := (tree.mem_apart has has').mp mem
    apply Option.eq_none_iff_forall_ne_some.mpr
    intro kind found
    exact leaves scope kind inside outside (tree.role?_eq_some.mp (handlerKind?_eq_some.mp found))

/-- What a `goto` enters holds no protected scope. -/
private theorem find?_isProtected {other : StmtId} (has' : body.has other = true) :
    ((body.apart (Numbering.ofBody body) other stmt).find? fun scope ↦
      (body.role? scope).any (·.isProtected)) = none ↔ body.EntersNoProtected stmt other := by
  have tree := wf.toIsTree
  rw [List.find?_eq_none]
  constructor
  · intro none scope role inside outside plays
    have entered := none scope ((tree.mem_apart has' has).mpr ⟨inside, outside⟩)
    rw [tree.role?_eq_some.mpr plays] at entered
    cases role with
    | lambdaBody => rfl
    | _ => exact (entered rfl).elim
  · intro enters scope mem
    obtain ⟨inside, outside⟩ := (tree.mem_apart has' has).mp mem
    cases found : body.role? scope with
    | none => simp
    | some role =>
      rw [enters scope role inside outside (tree.role?_eq_some.mp found)]
      simp [Role.isProtected]

/-- A jump passes the checks if it leaves no handler and, as a `goto`, enters nothing protected. -/
theorem WellFormed.checkJump_eq_ok (has' : body.has target.scope = true) :
    (∃ requires, body.checkJump (Numbering.ofBody body) stmt form target = .ok requires) ↔
      body.LeavesNoHandler stmt target.scope ∧
        ∀ label dest, target = .atLabel label dest → body.EntersNoProtected stmt dest := by
  have leaves := findSome?_handlerKind? wf has has'
  have enters : body.enteredScope? (Numbering.ofBody body) stmt target = none ↔
      ∀ label dest, target = .atLabel label dest → body.EntersNoProtected stmt dest := by
    cases target with
    | atLabel label dest =>
      have labeled : body.has dest = true := has'
      rw [enteredScope?, find?_isProtected wf has labeled]
      constructor
      · rintro enters _ _ ⟨⟩
        exact enters
      · intro enters
        exact enters label dest rfl
    | _ =>
      refine ⟨fun _ label dest labeled ↦ ?_, fun _ ↦ rfl⟩
      cases labeled
  rw [← leaves, ← enters, wf.toIsTree.checkJump_eq has has']
  constructor
  · rintro ⟨requires, passes⟩
    split at passes
    · cases passes
    · next left =>
      split at passes
      · cases passes
      · next entered => exact ⟨left, entered⟩
  · rintro ⟨left, entered⟩
    rw [left, entered]
    exact ⟨_, rfl⟩

/-- Where a jump goes is settled. -/
theorem WellFormed.goes_unique {target' : JumpTarget} (goes : body.Goes stmt form target)
    (goes' : body.Goes stmt form target') : target = target' := by
  have tree := wf.toIsTree
  cases goes with
  | goto defined =>
    cases goes' with
    | goto defined' =>
      have found := wf.labelTarget?_eq_some.mpr ⟨_, defined⟩
      rw [wf.labelTarget?_eq_some.mpr ⟨_, defined'⟩] at found
      cases found
      rfl
  | breakOut encloses =>
    cases goes' with
    | breakOut encloses' =>
      have found := (tree.enclosing?_eq_some has).mpr encloses
      rw [(tree.enclosing?_eq_some has).mpr encloses'] at found
      cases found
      rfl
  | continueLoop encloses =>
    cases goes' with
    | continueLoop encloses' =>
      have found := (tree.enclosing?_eq_some has).mpr encloses
      rw [(tree.enclosing?_eq_some has).mpr encloses'] at found
      cases found
      rfl
  | returnOut method =>
    cases goes' with
    | returnOut method' =>
      rw [← (tree.methodOf_eq_iff has).mpr method, (tree.methodOf_eq_iff has).mpr method']

/-- A jump goes to a statement of the body. -/
theorem WellFormed.has_of_goes (goes : body.Goes stmt form target) :
    body.has target.scope = true := by
  have tree := wf.toIsTree
  cases goes with
  | goto defined => exact has_iff_get?.mpr ⟨_, defined⟩
  | breakOut encloses => exact has_of_inside encloses.around has
  | continueLoop encloses => exact has_of_inside encloses.around has
  | returnOut method =>
    rw [JumpTarget.scope, ← (tree.methodOf_eq_iff has).mpr method]
    exact tree.has_of_mem_methods (tree.methodOf_spec has).1

end Jumps

section Failures

variable {numbering : Numbering} {stmt : StmtId} {form : Jump} {error : Error}

/-- A jump that does not resolve breaks a rule or names a label that is defined nowhere. -/
theorem resolve_eq_error (failed : body.resolve numbering stmt form = .error error) :
    (∃ cause, error = .malformed cause) ∨
      ∃ label, form = .goto label ∧ body.labelTarget? label = none := by
  cases form with
  | goto label =>
    rw [resolve] at failed
    split at failed
    · next undefined => exact .inr ⟨label, rfl, undefined⟩
    · split at failed
      · cases failed
      · cases failed
        exact .inl ⟨_, rfl⟩
  | breakOut | continueLoop =>
    rw [resolve] at failed
    split at failed
    · cases failed
    · cases failed
      exact .inl ⟨_, rfl⟩
  | returnOut => cases failed

/-- The walk from a jump outward fails at a handler only. -/
private theorem leaveScopes_eq_error {landing current : StmtId} {steps : Nat}
    {requires : List StmtId}
    (failed : body.leaveScopes numbering stmt form landing steps current requires =
      .error error) : ∃ cause, error = .malformed cause := by
  induction steps generalizing current requires with
  | zero => cases failed
  | succ steps ih =>
    rw [leaveScopes] at failed
    split at failed
    · cases failed
    split at failed
    · cases failed
      exact ⟨_, rfl⟩
    dsimp only at failed
    split at failed
    · exact ih failed
    · cases failed

/-- The walk from a target outward fails at a protected scope only. -/
private theorem enterScopes_eq_error {common entered : StmtId} {steps : Nat}
    (failed : body.enterScopes stmt common steps entered = .error error) :
    ∃ cause, error = .malformed cause := by
  induction steps generalizing entered with
  | zero => cases failed
  | succ steps ih =>
    rw [enterScopes] at failed
    split at failed
    · cases failed
    split at failed
    · cases failed
      exact ⟨_, rfl⟩
    split at failed
    · exact ih failed
    · cases failed

/-- A jump that fails the checks breaks a rule. -/
theorem checkJump_eq_error {target : JumpTarget}
    (failed : body.checkJump numbering stmt form target = .error error) :
    ∃ cause, error = .malformed cause := by
  rcases Outcome.bind_eq_error.mp failed with left | ⟨⟨common, requires⟩, -, failed⟩
  · exact leaveScopes_eq_error left
  · rcases Outcome.bind_eq_error.mp failed with entered | ⟨-, -, given⟩
    · cases target with
      | atLabel => exact enterScopes_eq_error entered
      | breakOf | continueOf | returnFrom => cases entered
    · cases given

/-- A refused statement breaks a rule or is a `goto` to a label that is defined nowhere. -/
theorem route?_eq_error (failed : body.route? numbering stmt = .error error) :
    (∃ cause, error = .malformed cause) ∨
      ∃ label, body.get? stmt = some (.jump (.goto label)) ∧ body.labelTarget? label = none := by
  rw [route?] at failed
  split at failed
  · next form found =>
    rcases Outcome.bind_eq_error.mp failed with unresolved | ⟨target, -, failed⟩
    · rcases resolve_eq_error unresolved with broken | ⟨label, rfl, undefined⟩
      · exact .inl broken
      · exact .inr ⟨label, found, undefined⟩
    · rcases Outcome.bind_eq_error.mp failed with unchecked | ⟨requires, -, given⟩
      · exact .inl (checkJump_eq_error unchecked)
      · cases given
  · split at failed
    · cases failed
      exact .inl ⟨_, rfl⟩
    · cases failed
  · cases failed

end Failures

section Statements

variable (wf : body.WellFormed) {stmt : StmtId}

include wf

/-- A jump has a route if it goes somewhere and keeps the rules on its way. -/
theorem WellFormed.route?_jump {form : Jump} (found : body.get? stmt = some (.jump form)) :
    (∃ route, body.route? (Numbering.ofBody body) stmt = .ok route) ↔
      ∃ target, body.Goes stmt form target ∧ body.LeavesNoHandler stmt target.scope ∧
        ∀ label, form = .goto label →
          body.SharesLambda stmt target.scope ∧ body.EntersNoProtected stmt target.scope := by
  have has := has_iff_get?.mpr ⟨_, found⟩
  rw [route?, found]
  constructor
  · rintro ⟨route, routed⟩
    obtain ⟨target, resolved, routed⟩ := Outcome.bind_eq_ok.mp routed
    obtain ⟨requires, checked, -⟩ := Outcome.bind_eq_ok.mp routed
    obtain ⟨goes, shares⟩ := (wf.resolve_eq_ok has).mp resolved
    have has' := wf.has_of_goes has goes
    obtain ⟨leaves, enters⟩ := (wf.checkJump_eq_ok has has').mp ⟨requires, checked⟩
    refine ⟨target, goes, leaves, ?_⟩
    rintro label rfl
    refine ⟨shares label rfl, ?_⟩
    cases goes with
    | goto _ => exact enters label _ rfl
  · rintro ⟨target, goes, leaves, stays⟩
    have has' := wf.has_of_goes has goes
    have resolved := (wf.resolve_eq_ok has).mpr ⟨goes, fun label same ↦ (stays label same).1⟩
    have enters : ∀ label dest, target = .atLabel label dest →
        body.EntersNoProtected stmt dest := by
      rintro label dest rfl
      cases goes with
      | goto _ => exact (stays label rfl).2
    obtain ⟨requires, checked⟩ := (wf.checkJump_eq_ok has has').mpr ⟨leaves, enters⟩
    refine ⟨some ⟨stmt, target, requires⟩, ?_⟩
    exact Outcome.bind_eq_ok.mpr ⟨_, resolved, Outcome.bind_eq_ok.mpr ⟨_, checked, rfl⟩⟩

/-- A rethrow passes if it is in a catch body. -/
theorem WellFormed.route?_rethrow (found : body.get? stmt = some .rethrow) :
    (∃ route, body.route? (Numbering.ofBody body) stmt = .ok route) ↔ body.IsInCatch stmt := by
  have has := has_iff_get?.mpr ⟨_, found⟩
  rw [route?, found, ← wf.toIsTree.isSome_rethrowOwner? has]
  cases body.rethrowOwner? stmt with
  | none => simp
  | some owner => simp

/-- Where the rules are kept, every statement passes. -/
theorem WellFormed.route?_of_keepsRules (rules : body.KeepsRules)
    (labels : ∀ label, body.get? stmt = some (.jump (.goto label)) →
      ∃ target inner, body.get? target = some (.labeled label inner))
    (has : body.has stmt = true) :
    ∃ route, body.route? (Numbering.ofBody body) stmt = .ok route := by
  have tree := wf.toIsTree
  obtain ⟨shape, found⟩ := has_iff_get?.mp has
  cases shape with
  | jump form =>
    rw [wf.route?_jump found]
    cases form with
    | goto label =>
      obtain ⟨target, inner, defined⟩ := labels label found
      refine ⟨.atLabel label target, .goto defined, rules.leaves found (.goto defined), ?_⟩
      rintro _ ⟨⟩
      exact ⟨rules.stays found defined, rules.enters found defined⟩
    | breakOut =>
      obtain ⟨construct, nearest⟩ := (tree.exists_enclosing? has).mpr (rules.breaks found)
      have goes := Goes.breakOut ((tree.enclosing?_eq_some has).mp nearest)
      exact ⟨_, goes, rules.leaves found goes, nofun⟩
    | continueLoop =>
      obtain ⟨loop, nearest⟩ := (tree.exists_enclosing? has).mpr (rules.continues found)
      have goes := Goes.continueLoop ((tree.enclosing?_eq_some has).mp nearest)
      exact ⟨_, goes, rules.leaves found goes, nofun⟩
    | returnOut =>
      have goes := Goes.returnOut ((tree.methodOf_eq_iff has).mp rfl)
      exact ⟨_, goes, rules.leaves found goes, nofun⟩
  | rethrow => exact (wf.route?_rethrow found).mpr (rules.rethrows found)
  | _ =>
    rw [route?, found]
    exact ⟨none, rfl⟩

/-- Where every statement passes, the rules are kept. -/
theorem WellFormed.keepsRules_of_route? (passes : ∀ stmt, body.has stmt = true →
    ∃ route, body.route? (Numbering.ofBody body) stmt = .ok route) : body.KeepsRules := by
  -- The checks speak of the target that was resolved; the rules speak of wherever the jump goes.
  have routed {stmt : StmtId} {form : Jump} (found : body.get? stmt = some (.jump form)) :=
    (wf.route?_jump found).mp (passes stmt (has_iff_get?.mpr ⟨_, found⟩))
  have settled {stmt : StmtId} {form : Jump} {target : JumpTarget}
      (found : body.get? stmt = some (.jump form)) (goes : body.Goes stmt form target) :
      body.LeavesNoHandler stmt target.scope ∧ ∀ label, form = .goto label →
        body.SharesLambda stmt target.scope ∧ body.EntersNoProtected stmt target.scope := by
    obtain ⟨target', goes', kept⟩ := routed found
    rw [wf.goes_unique (has_iff_get?.mpr ⟨_, found⟩) goes goes']
    exact kept
  constructor
  case breaks =>
    intro stmt found
    obtain ⟨target, goes, -⟩ := routed found
    cases goes with
    | breakOut encloses => exact ⟨_, encloses.toEncloses⟩
  case continues =>
    intro stmt found
    obtain ⟨target, goes, -⟩ := routed found
    cases goes with
    | continueLoop encloses => exact ⟨_, encloses.toEncloses⟩
  case stays =>
    intro stmt target inner label found defined
    exact ((settled found (.goto defined)).2 label rfl).1
  case rethrows =>
    intro stmt found
    exact (wf.route?_rethrow found).mp (passes stmt (has_iff_get?.mpr ⟨_, found⟩))
  case leaves =>
    intro stmt form target found goes
    exact (settled found goes).1
  case enters =>
    intro stmt target inner label found defined
    exact ((settled found (.goto defined)).2 label rfl).2

end Statements

end Body

/-- Every `goto` of a body that a draft makes names a label that a statement of it defines. -/
theorem Draft.exists_labeled {draft : Draft} {body : Body} (made : draft.toBody = .ok body)
    {stmt : StmtId} {label : LabelId} (found : body.get? stmt = some (.jump (.goto label))) :
    ∃ target inner, body.get? target = some (.labeled label inner) := by
  have wf := wellFormed_of_toBody made
  obtain ⟨census, parents, -, -, -, -, defined, rfl⟩ := toBody_eq_ok made
  have listed := List.findSome?_eq_none_iff.mp defined _
    (Array.mem_toList_iff.mpr (Array.mem_of_getElem? found))
  cases lookup : census.definitions.lookup label with
  | none => simp [lookup] at listed
  | some target => exact ⟨target, wf.labelTarget?_eq_some.mp lookup⟩

namespace Flow

variable {body : Body} {flow : Flow}

/-- A body is accepted if all its statements are. -/
theorem exists_ofBody_eq_ok : (∃ flow, ofBody body = .ok flow) ↔ ∀ stmt, body.has stmt = true →
    ∃ route, body.route? (Numbering.ofBody body) stmt = .ok route := by
  have listed (stmt : StmtId) : stmt ∈ body.ids ↔ body.has stmt = true :=
    StatementTable.mem_ids.trans decide_eq_true_iff.symm
  simp only [← listed, ← Outcome.exists_mapM_eq_ok]
  constructor
  · rintro ⟨flow, analysed⟩
    obtain ⟨routes, routed, -⟩ := Outcome.bind_eq_ok.mp analysed
    exact ⟨routes, routed⟩
  · rintro ⟨routes, routed⟩
    exact ⟨_, Outcome.bind_eq_ok.mpr ⟨routes, routed, rfl⟩⟩

/-- A body is refused for one of its statements. -/
theorem exists_of_ofBody_eq_error {error : Error} (refused : ofBody body = .error error) :
    ∃ stmt, body.route? (Numbering.ofBody body) stmt = .error error := by
  rcases Outcome.bind_eq_error.mp refused with failed | ⟨routes, -, given⟩
  · obtain ⟨stmt, -, failed⟩ := Outcome.exists_of_mapM_eq_error failed
    exact ⟨stmt, failed⟩
  · cases given

namespace Accepted

variable (accepted : flow.Accepted)

include accepted

/-- The resolved target of a statement is where the statement goes as a jump. -/
theorem target?_eq_some_iff_goes {stmt : StmtId} {target : JumpTarget} :
    flow.target? stmt = some target ↔
      ∃ form, flow.body.get? stmt = some (.jump form) ∧ flow.body.Goes stmt form target := by
  have wf := accepted.wellFormed
  have goes_of_routed {form : Jump} {route : Route} (has : flow.body.has stmt = true)
      (routed : flow.Routed stmt form route) : flow.body.Goes stmt form route.target := by
    have resolved := routed.resolved
    rw [(ofBody_eq_ok accepted.analysed).2.1] at resolved
    exact ((wf.resolve_eq_ok has).mp resolved).1
  rw [accepted.target?_eq_some]
  constructor
  · rintro ⟨form, route, found, routed, rfl⟩
    exact ⟨form, found, goes_of_routed (Body.has_iff_get?.mpr ⟨_, found⟩) routed⟩
  · rintro ⟨form, found, goes⟩
    have has := Body.has_iff_get?.mpr ⟨_, found⟩
    obtain ⟨route, routed⟩ := accepted.exists_routed found
    have goes' := goes_of_routed has routed
    exact ⟨form, route, found, routed, wf.goes_unique has goes' goes⟩

/-- The graph of a flow has a node for every position. -/
theorem length_nodes : flow.reach.index.nodes.length = flow.reach.index.size := by
  have nodup : flow.reach.index.methods.Nodup :=
    accepted.methods_index ▸ accepted.wellFormed.toIsTree.nodup_methods
  have listed := congrArg List.length (FlowIndex.map_position_nodes nodup)
  rwa [List.length_map, List.length_range] at listed

/-- An edge between nodes of the body can be added to the nodes and edges of a flow. -/
theorem addEdge_graph {edges : List FlowEdge} {edge : FlowEdge}
    (source : flow.body.HasNode edge.source) (target : flow.body.HasNode edge.target) :
    (flow.reach.index.graph edges).addEdge (flow.reach.index.edge edge) =
      .ok (edges.length, flow.reach.index.graph (edges ++ [edge])) := by
  have size : (flow.reach.index.graph edges).size = flow.reach.index.size := by
    rw [← accepted.length_nodes, Digraph.size, FlowIndex.graph, List.size_toArray]
  have source := accepted.position_lt source
  have target := accepted.position_lt target
  rw [Digraph.addEdge, size, FlowIndex.edge, if_neg (Nat.not_le.mpr source),
    if_neg (Nat.not_le.mpr target)]
  simp [FlowIndex.graph, Digraph.connect, FlowIndex.edge]

/-- Whatever edges are added one after the other, none of them lacks an end point. -/
theorem addEdges_graph {listed edges : List FlowEdge}
    (between : ∀ edge ∈ edges, flow.body.HasNode edge.source ∧ flow.body.HasNode edge.target) :
    (flow.reach.index.graph listed).addEdges (edges.map flow.reach.index.edge) =
      .ok (flow.reach.index.graph (listed ++ edges)) := by
  induction edges generalizing listed with
  | nil => rw [List.append_nil, List.map_nil, Digraph.addEdges]
  | cons edge rest ih =>
    obtain ⟨⟨source, target⟩, later⟩ := List.forall_mem_cons.mp between
    rw [List.map_cons, Digraph.addEdges, accepted.addEdge_graph source target]
    show (flow.reach.index.graph (listed ++ [edge])).addEdges _ = _
    rw [ih later, List.append_assoc, List.singleton_append]

end Accepted

/-- The analysis accepts a body that a draft makes if and only if the body keeps the rules of jumps
and rethrows, and refuses it as malformed otherwise. The target of a jump is where it goes, and no
edge that is added to the graph lacks a node. -/
theorem ofBody_accepts_iff {draft : Draft} (made : draft.toBody = .ok body) :
    ((∃ flow, ofBody body = .ok flow) ↔ body.KeepsRules) ∧
      (∀ error, ofBody body = .error error → ∃ cause, error = .malformed cause) ∧
      ∀ flow, ofBody body = .ok flow →
        (∀ stmt target, flow.target? stmt = some target ↔
          ∃ form, body.get? stmt = some (.jump form) ∧ body.Goes stmt form target) ∧
        ∀ edges : List FlowEdge, edges ⊆ body.plainEdges ++
            (body.guardedEdges flow.jumps).map (·.toFlowEdge) →
          (flow.reach.index.graph []).addEdges (edges.map flow.reach.index.edge) =
            .ok (flow.reach.index.graph edges) := by
  have wf := Draft.wellFormed_of_toBody made
  refine ⟨?accepts, ?refuses, ?accepted⟩
  case accepts =>
    rw [exists_ofBody_eq_ok]
    constructor
    · exact wf.keepsRules_of_route?
    · intro rules stmt
      exact wf.route?_of_keepsRules rules fun label ↦ Draft.exists_labeled made
  case refuses =>
    -- The draft has seen to it that every label is defined, so no refusal is for want of one.
    intro error refused
    obtain ⟨stmt, failed⟩ := exists_of_ofBody_eq_error refused
    rcases Body.route?_eq_error failed with broken | ⟨label, found, undefined⟩
    · exact broken
    · obtain ⟨target, defined⟩ := Draft.exists_labeled made found
      rw [wf.labelTarget?_eq_some.mpr defined] at undefined
      cases undefined
  case accepted =>
    intro flow analysed
    obtain ⟨rfl, accepted⟩ := accepted_of_ofBody wf analysed
    refine ⟨fun stmt target ↦ accepted.target?_eq_some_iff_goes, ?_⟩
    intro edges added
    apply accepted.addEdges_graph
    intro edge mem
    rcases List.mem_append.mp (added mem) with plain | mem
    · exact accepted.hasNode_of_plain plain
    · obtain ⟨waiting, waits, rfl⟩ := List.mem_map.mp mem
      have between := accepted.hasNode_of_guarded waits
      exact ⟨between.1, between.2.1⟩

end Flow

/-- A loop whose body is left by a jump to a label. Label 0 is in a `catch` body, label 1 is behind
the `try`. -/
def Draft.jumping (label : LabelId) : Draft where
  statements := #[.jump .breakOut, .jump (.goto label), .block [⟨0⟩, ⟨1⟩], .loop .unknown ⟨2⟩,
    .rethrow, .labeled ⟨0⟩ ⟨4⟩, .tryCatch ⟨3⟩ [⟨none, none, none, ⟨5⟩⟩], .jump .returnOut,
    .labeled ⟨1⟩ ⟨7⟩, .block [⟨6⟩, ⟨8⟩]]
  labelCount := 2
  localCount := 0
  root := ⟨9⟩

/-- The jump may go behind the `try` but not into its `catch` body. -/
theorem Flow.ofBody_accepts_iff_jumping :
    (∃ body flow, (Draft.jumping ⟨1⟩).toBody = .ok body ∧ body.KeepsRules ∧
      Flow.ofBody body = .ok flow ∧ flow.target? ⟨0⟩ = some (.breakOf ⟨3⟩) ∧
      body.Goes ⟨1⟩ (.goto ⟨1⟩) (.atLabel ⟨1⟩ ⟨8⟩)) ∧
      ∃ body, (Draft.jumping ⟨0⟩).toBody = .ok body ∧ ¬ body.KeepsRules := by
  constructor
  · have accepts : ((Draft.jumping ⟨1⟩).toBody.bind Flow.ofBody).toOption.any (fun flow ↦
        flow.target? ⟨0⟩ = some (.breakOf ⟨3⟩) ∧ flow.target? ⟨1⟩ = some (.atLabel ⟨1⟩ ⟨8⟩) ∧
          flow.body.get? ⟨1⟩ = some (.jump (.goto ⟨1⟩))) = true := by
      decide +kernel
    obtain ⟨body, flow, made, analysed, holds⟩ := Draft.exists_flow accepts
    obtain ⟨first, second, shape⟩ := of_decide_eq_true holds
    obtain ⟨keeps, -, targets⟩ := Flow.ofBody_accepts_iff made
    obtain ⟨goes, -⟩ := targets flow analysed
    obtain ⟨form, found, goes⟩ := (goes ⟨1⟩ _).mp second
    obtain ⟨rfl, -⟩ := Flow.ofBody_eq_ok analysed
    rw [shape] at found
    cases found
    exact ⟨_, flow, made, keeps.mp ⟨flow, analysed⟩, analysed, first, goes⟩
  · have made : (Draft.jumping ⟨0⟩).toBody.toOption.any (fun body ↦
        (Flow.ofBody body).toOption.isNone) = true := by
      decide +kernel
    cases built : (Draft.jumping ⟨0⟩).toBody with
    | error => simp [built, Except.toOption] at made
    | ok body =>
      rw [built, Except.toOption, Option.any_some] at made
      refine ⟨body, rfl, fun rules ↦ ?_⟩
      obtain ⟨flow, analysed⟩ := (Flow.ofBody_accepts_iff built).1.mpr rules
      simp [analysed, Except.toOption] at made

end ProtectedRegions
