import ProtectedRegions.Proofs.Flow.Nesting
import ProtectedRegions.Proofs.Lowering.Exits
import ProtectedRegions.Proofs.Lowering.Unwinding

/-!
# Handlers on the way of a jump

The `finally` bodies that the analysis of a jump asks for are those of the regions that list the
jump among their exits: from the inside out, the analysis and the layout tell the same handlers.
-/

namespace ProtectedRegions

/-- The `finally` regions of the program with a leave edge of the given statement, innermost
first. -/
def RegionTree.finallyLeft (tree : RegionTree) (stmt : StmtId) : List Region :=
  (tree.regions.filter fun region ↦
    region.kind == .finallyBlock && region.origin == .user &&
      region.exits.any fun edge ↦ edge.kind == .leave && edge.source == stmt).reverse

/-- The statement whose `finally` protects a body, if it is one of the given statements. -/
def Guard.ownerAmong? (owners : List StmtId) (guard : Guard) : Option StmtId :=
  guard.owner?.filter (· ∈ owners)

theorem Guard.ownerAmong?_eq_some {owners : List StmtId} {guard : Guard} {owner : StmtId} :
    guard.ownerAmong? owners = some owner ↔ guard.owner? = some owner ∧ owner ∈ owners := by
  rw [ownerAmong?, Option.filter_eq_some_iff, decide_eq_true_iff]

theorem Guard.ownerAmong?_eq_none {owners : List StmtId} {guard : Guard}
    (none : ∀ owner ∈ owners, guard.owner? ≠ some owner) : guard.ownerAmong? owners = .none := by
  apply Option.eq_none_iff_forall_ne_some.mpr
  intro owner found
  obtain ⟨owned, mem⟩ := ownerAmong?_eq_some.mp found
  exact none owner mem owned

namespace Flow

variable {flow : Flow} {config : Config} {root : StmtId}

/-- The guards of some owners in the code of a method are those around a place, if they all lie
around it. -/
theorem filterMap_ownerAmong? {owners : List StmtId} {token : Token} {at' : Place}
    (mem : (token, at') ∈ (flow.methodCode config root).tokens (flow.methodPlace config root))
    (around : ∀ guard ∈ (flow.methodCode config root).guards (flow.methodPlace config root),
      ∀ owner ∈ owners, guard.owner? = some owner → guard ∈ at'.guards) :
    (((flow.methodCode config root).guards (flow.methodPlace config root)).filterMap
        (Guard.ownerAmong? owners)).reverse =
      at'.guards.filterMap (Guard.ownerAmong? owners) := by
  have outer : (flow.methodPlace config root).guards.filterMap (Guard.ownerAmong? owners) = [] := by
    apply List.filterMap_eq_nil_iff.mpr
    intro guard listed
    rw [Guard.ownerAmong?, owner?_methodPlace listed]
    rfl
  conv_rhs => rw [Code.guards_eq_filter fresh_methodPlace mem]
  rw [List.filterMap_append, outer, List.append_nil, List.filterMap_reverse,
    List.filterMap_filter]
  refine congrArg List.reverse (List.filterMap_congr ?_)
  intro guard listed
  by_cases inside : guard ∈ at'.guards
  · rw [decide_eq_true inside, if_pos rfl]
  · rw [decide_eq_false inside, if_neg Bool.false_ne_true]
    apply Guard.ownerAmong?_eq_none
    intro owner among owned
    exact inside (around guard listed owner among owned)

namespace Accepted

variable (accepted : flow.Accepted) {jump : StmtId} {target : JumpTarget}
  (resolved : flow.target? jump = some target)

include accepted

/-- A `finally` around a part guards it. -/
theorem guardian?_of_tryOf? {part owner : StmtId} (found : flow.body.tryOf? part = some owner) :
    flow.guardian? config part = some owner := by
  obtain ⟨parts, shaped, handled, mem⟩ := accepted.tryOf?_eq_some.mp found
  exact accepted.guardian?_eq_some.mpr (.inl ⟨parts, shaped, mem, handled⟩)

include resolved

/-- The `try` statements among those that guard what a jump leaves. -/
theorem filter_crossing (config : Config) : (flow.crossing config jump target).filter
      (· ∈ flow.body.triesLeft flow.numbering jump target.scope) =
    flow.body.triesLeft flow.numbering jump target.scope := by
  obtain ⟨form, found, spec⟩ := accepted.resolved_of_target resolved
  have has := Body.has_iff_get?.mpr ⟨_, found⟩
  have has' := (spec.scope_spec accepted.wellFormed.toIsTree has).1
  rw [crossing, List.filter_filterMap]
  conv_rhs => rw [Body.triesLeft]
  apply List.filterMap_congr
  intro part left
  cases belongs : flow.body.tryOf? part with
  | some owner =>
    have mem : owner ∈ flow.body.triesLeft flow.numbering jump target.scope :=
      List.mem_filterMap.mpr ⟨part, left, belongs⟩
    rw [accepted.guardian?_of_tryOf? belongs, Option.filter_some, decide_eq_true mem, if_pos rfl]
  | none =>
    apply Option.eq_none_iff_forall_ne_some.mpr
    intro owner guarded
    obtain ⟨guarded, mem⟩ := Option.filter_eq_some_iff.mp guarded
    obtain ⟨parts, -, shaped, -⟩ :=
      (accepted.mem_triesLeft has has').mp (of_decide_eq_true mem)
    rcases accepted.guardian?_eq_some.mp guarded with
      ⟨parts', shaped', mem', handled⟩ | ⟨kind, shaped', -⟩
    · rw [accepted.tryOf?_eq_some.mpr ⟨parts', shaped', handled, mem'⟩] at belongs
      cases belongs
    · rw [shaped] at shaped'
      cases shaped'

/-- A `finally` of the program lists a live jump among its exits exactly if the jump leaves the
`try`. -/
theorem leaves_iff_of_user (live : flow.isReachable jump = true) {scopes : List StmtId}
    {place : Place} {shape : Statement} {region : Region}
    (shaped : flow.body.get? region.stmt = some shape)
    (own : flow.OwnFinally config scopes region.stmt place shape region) :
    (region.origin = .user ∧ ∃ edge ∈ region.exits, edge.kind = .leave ∧ edge.source = jump) ↔
      flow.body.LeavesTry jump target.scope region.stmt := by
  have tree := accepted.wellFormed.toIsTree
  obtain ⟨form, found, spec⟩ := accepted.resolved_of_target resolved
  have has := Body.has_iff_get?.mpr ⟨_, found⟩
  generalize same : region.stmt = owner at shaped own
  cases own with
  | @clause parts body handler =>
    have finally' : parts.finallyBody?.isSome = true := by
      rw [TryStatement.finallyBody?, handler]
      rfl
    have query : (∃ edge ∈ flow.exits (.ofParts parts.protectedParts owner owner),
        edge.kind = .leave ∧ edge.source = jump) ↔
        (∃ part ∈ parts.protectedParts, jump ∈ flow.body.inMethod part) ∧
          flow.crosses owner target = true := by
      rw [exists_leave_iff found live resolved, searched, List.mem_flatMap]
      rfl
    constructor
    · rintro ⟨-, exits⟩
      obtain ⟨⟨part, mem, listed⟩, crosses⟩ := query.mp exits
      have child := Body.mem_children_of_get? shaped (List.mem_append_left _ mem)
      obtain ⟨inside, method, -⟩ := (tree.mem_inMethod (tree.has_child child) has).mp listed
      refine ⟨parts, part, shaped, finally', mem, inside, ?_⟩
      apply (accepted.crosses_iff_of_protected resolved (tree.isProtected_of_try shaped child)
        method).mp
      exact accepted.crosses_child resolved child crosses
    · rintro ⟨parts', part, shaped', -, mem, inside, outside⟩
      rw [shaped] at shaped'
      cases shaped'
      have child := Body.mem_children_of_get? shaped (List.mem_append_left _ mem)
      have plain : flow.body.isLambda jump = false := by
        rw [Body.isLambda, found]
        rfl
      have method := (accepted.methodOf_of_left resolved inside outside).symm
      exact ⟨rfl, query.mpr ⟨⟨part, mem, (tree.mem_inMethod (tree.has_child child) has).mpr
        ⟨inside, method, plain⟩⟩, accepted.crosses_try resolved shaped mem inside outside⟩⟩
  | cleanup guarded =>
    constructor
    · rintro ⟨user, -⟩
      cases user
    · rintro ⟨parts', part, shaped', -⟩
      rw [shaped] at shaped'
      cases shaped'

section Regions

variable (member : root ∈ flow.body.methods) (live : flow.isReachable jump = true)

include member live

/-- The `finally` regions that a live jump leaves belong to the guards of the `try` statements that
it leaves. -/
theorem map_stmt_finallyLeft : ((flow.methodTree config root).finallyLeft jump).map (·.stmt) =
    (((flow.methodCode config root).guards (flow.methodPlace config root)).filterMap
      (Guard.ownerAmong? (flow.body.triesLeft flow.numbering jump target.scope))).reverse := by
  have formed := (accepted.methodFormed config member).formed
  obtain ⟨form, found, spec⟩ := accepted.resolved_of_target resolved
  have has := Body.has_iff_get?.mpr ⟨_, found⟩
  have has' := (spec.scope_spec accepted.wellFormed.toIsTree has).1
  obtain ⟨method, kind, regions⟩ := @regions_methodTree flow config root
  rw [RegionTree.finallyLeft, List.map_reverse, ← List.filterMap_eq_map, List.filterMap_filter,
    regions, List.filterMap_cons_none (by rw [kind]; rfl)]
  refine congrArg List.reverse (Code.filterMap_regions ?_ ?_ ?_)
  · intro guard listed body
    by_cases handles : guard.region.kind = .finallyBlock
    · obtain ⟨at', opens⟩ := Code.opens_of_guard listed
      obtain ⟨scopes, place, shape, -, shaped, own⟩ := accepted.exists_finally member opens handles
      have leaves := accepted.leaves_iff_of_user resolved live shaped own
      rw [← accepted.mem_triesLeft has has'] at leaves
      rw [Guard.ownerAmong?, Guard.owner?, if_pos ⟨body, handles⟩, Option.filter_some]
      simp [handles, leaves]
    · simp [Guard.ownerAmong?, Guard.owner?, handles]
  · intro guard listed other
    rw [Guard.ownerAmong?, Guard.owner?, if_neg fun form ↦ other form.1]
    rfl
  · intro guard listed whole
    have plain := (Code.region_of_guard formed listed).2
    rw [whole] at plain
    have other : guard.region.kind ≠ .finallyBlock := by
      intro handles
      rw [handles] at plain
      cases plain.1
    simp [other]

/-- The `finally` regions that a live jump leaves are those of the `try` statements that it leaves,
in the same order. -/
theorem finallyLeft_eq (within : flow.body.methodOf jump = root) :
    ((flow.methodTree config root).finallyLeft jump).map (·.stmt) =
      flow.body.triesLeft flow.numbering jump target.scope := by
  have tree := accepted.wellFormed.toIsTree
  have rooted := tree.has_of_mem_methods member
  obtain ⟨form, found, -⟩ := accepted.resolved_of_target resolved
  have has := Body.has_iff_get?.mpr ⟨_, found⟩
  obtain ⟨scopes, place, laid⟩ := Laid.exists_place config (flow.methodPlace config root) tree
    (within ▸ (tree.methodOf_spec has).2) has
    (within.trans (tree.methodOf_of_mem_methods member).symm)
  have token := tokens_methodCode (laid.entry_mem tree rooted)
  obtain ⟨scopes', place', between, laid', guards, crossed, -⟩ :=
    accepted.exists_crossed member laid resolved
  have unlisted {guard : Guard} {owner : StmtId} (owned : guard.owner? = some owner) :
      guard ∉ (flow.methodPlace config root).guards := by
    intro mem
    rw [owner?_methodPlace mem] at owned
    cases owned
  have crosses := accepted.filter_crossing resolved config
  rw [crossing, ← crossed, List.filter_filterMap] at crosses
  have quits {owner : StmtId}
      (mem : owner ∈ flow.body.triesLeft flow.numbering jump target.scope) :
      flow.Quits config jump target owner := by
    obtain ⟨part, left, belongs⟩ := List.mem_filterMap.mp mem
    exact accepted.quits_of_crossing config resolved ((accepted.isReachable_iff has).mp live)
      (List.mem_filterMap.mpr ⟨part, left, accepted.guardian?_of_tryOf? belongs⟩)
  generalize tries_eq : flow.body.triesLeft flow.numbering jump target.scope = tries
    at crosses quits
  have outer : place'.guards.filterMap (Guard.ownerAmong? tries) = [] := by
    apply List.filterMap_eq_nil_iff.mpr
    intro guard listed
    apply Guard.ownerAmong?_eq_none
    intro owner mem owned
    obtain ⟨part, guarded, inside⟩ := laid'.exists_guarded tree listed (unlisted owned) owned
    exact (quits mem).outer guarded inside
  have around : ∀ guard ∈ (flow.methodCode config root).guards (flow.methodPlace config root),
      ∀ owner ∈ tries, guard.owner? = some owner → guard ∈ place.guards := by
    intro guard listed owner mem owned
    rw [← crosses] at mem
    obtain ⟨guard', mem', same⟩ := List.mem_filterMap.mp mem
    have owned' := (Guard.ownerAmong?_eq_some.mp same).1
    have around : guard' ∈ place.guards := by
      rw [guards]
      exact List.mem_append_left _ mem'
    have listed' := (Code.guards_of_token token around).resolve_left (unlisted owned')
    rwa [accepted.owner_unique member listed listed' owned owned']
  have inside : between.filterMap (Guard.ownerAmong? tries) = tries := crosses
  rw [accepted.map_stmt_finallyLeft resolved member live, tries_eq,
    filterMap_ownerAmong? token around, guards, List.filterMap_append, inside, outer,
    List.append_nil]

end Regions

end Accepted

end Flow

/-- The analysis routes a jump through the `finally` bodies of the `try` statements that the jump
leaves, from the inside out, and through each of them once; no `fault` body is among them. If the
jump is live, then under every configuration these are the statements of the `finally` regions of
the program that list the jump among their exits. -/
theorem Config.requires_eq_finallyLeft {draft : Draft} {body : Body}
    (made : draft.toBody = .ok body) {flow : Flow} (analysed : Flow.ofBody body = .ok flow)
    {jump : StmtId} {form : Jump} (found : body.get? jump = some (.jump form)) :
    ∃ target requires tries, flow.target? jump = some target ∧
      body.checkJump flow.numbering jump form target = .ok requires ∧
      (∀ owner, owner ∈ tries ↔ body.LeavesTry jump target.scope owner) ∧
      (tries.Pairwise fun inner outer ↦ inner ≠ outer ∧ body.Inside outer inner) ∧
      tries.map body.finallyBody? = requires.map some ∧ requires.Nodup ∧
      (∀ owner parts clause, body.get? owner = some (.tryBlock parts) →
        parts.handler = some clause → clause.kind = .faultBlock → clause.body ∉ requires) ∧
      (flow.isReachable jump = true → ∀ (config : Config) (tree : RegionTree),
        config.Builds body tree → body.methodOf jump = tree.method →
          (tree.finallyLeft jump).map (·.stmt) = tries) := by
  obtain ⟨rfl, accepted⟩ := Flow.accepted_of_ofBody (Draft.wellFormed_of_toBody made) analysed
  have isTree := accepted.wellFormed.toIsTree
  have has := Body.has_iff_get?.mpr ⟨_, found⟩
  obtain ⟨route, routed⟩ := accepted.exists_routed found
  have resolved := accepted.target?_eq_some.mpr ⟨form, route, found, routed, rfl⟩
  have has' := ((accepted.resolved_of_routed found routed).scope_spec isTree has).1
  have requires := (accepted.checked_spec found routed).2.2
  refine ⟨route.target, route.requires, flow.body.triesLeft flow.numbering jump route.target.scope,
    resolved, routed.checked, fun owner ↦ accepted.mem_triesLeft has has',
    accepted.pairwise_triesLeft has _, ?_, ?_, ?_, ?_⟩
  · rw [requires]
    exact accepted.map_triesLeft has has'
  · rw [requires]
    exact accepted.nodup_finallyOf? has has'
  · intro owner parts clause shaped handler fault listed
    rw [requires] at listed
    obtain ⟨part, -, finallyOf⟩ := List.mem_filterMap.mp listed
    obtain ⟨owner', parts', shaped', -, handled, -⟩ := accepted.finallyOf?_spec finallyOf
    have child := Body.mem_children_of_get? shaped
      (List.mem_append_right _ (Option.mem_toList.mpr (Option.map_eq_some_iff.mpr
        ⟨clause, handler, rfl⟩)))
    have same := isTree.parent_unique child (Body.mem_children_of_finallyBody? shaped' handled)
    rw [← same, shaped] at shaped'
    cases shaped'
    rw [TryStatement.finallyBody?, handler] at handled
    simp [fault] at handled
  · intro live config tree builds within
    obtain ⟨-, -, root, member, rfl⟩ := builds.exists_root made analysed
    exact accepted.finallyLeft_eq resolved member live within

/-- A `return` in a `try` with a `finally`, with a `fault` around it and a `finally` around both. -/
def Draft.wrapped : Draft where
  statements := #[.jump .returnOut, .expression [], .tryFinally ⟨0⟩ ⟨1⟩, .expression [],
    .tryBlock ⟨⟨2⟩, [], some ⟨.faultBlock, ⟨3⟩⟩⟩, .expression [], .tryFinally ⟨4⟩ ⟨5⟩]
  labelCount := 0
  localCount := 0
  root := ⟨6⟩

/-- The `return` is routed through both `finally` bodies, the inner one first. -/
theorem Config.requires_eq_finallyLeft_wrapped :
    ∃ body flow tree target, Draft.wrapped.toBody = .ok body ∧ Flow.ofBody body = .ok flow ∧
      Config.default.build body = .ok tree ∧
      body.checkJump flow.numbering ⟨0⟩ .returnOut target = .ok [⟨1⟩, ⟨5⟩] ∧
      (tree.finallyLeft ⟨0⟩).map (·.stmt) = [⟨2⟩, ⟨6⟩] := by
  have lists : Config.default.tests .wrapped (fun flow tree ↦ decide
      (flow.body.get? ⟨0⟩ = some (.jump .returnOut) ∧ flow.isReachable ⟨0⟩ = true ∧
        flow.body.methodOf ⟨0⟩ = tree.method ∧
        [⟨2⟩, ⟨6⟩].map flow.body.finallyBody? = [some ⟨1⟩, some ⟨5⟩] ∧
        (tree.finallyLeft ⟨0⟩).map (·.stmt) = [⟨2⟩, ⟨6⟩])) = true := by
    decide +kernel
  obtain ⟨body, flow, tree, made, analysed, built, holds⟩ := exists_built lists
  obtain ⟨jump, live, within, bodies, left⟩ := of_decide_eq_true holds
  obtain ⟨-, -, same⟩ := Config.checks_iff made analysed
  rw [same] at jump within bodies
  obtain ⟨target, requires, tries, -, checked, -, -, handlers, -, -, regions⟩ :=
    requires_eq_finallyLeft made analysed jump
  have tries_eq := (regions live _ _ (.outer built) within).symm.trans left
  rw [tries_eq, bodies] at handlers
  have requires_eq : requires = [⟨1⟩, ⟨5⟩] :=
    (List.map_inj_right fun _ _ ↦ Option.some.inj).mp handlers.symm
  rw [requires_eq] at checked
  exact ⟨body, flow, tree, target, made, analysed, built, checked, left⟩

end ProtectedRegions
