import ProtectedRegions.Proofs.Flow.Exits
import ProtectedRegions.Proofs.Lowering.Built
import ProtectedRegions.Proofs.Lowering.Finally

/-!
# Leaves and what they run

A live jump out of what a `finally` protects is laid out as a leave, and the protected block of
the `finally` covers the leave. It does not cover the target of the leave, but for a target from
which control runs into the `finally` again without an instruction between.
-/

namespace ProtectedRegions
namespace Flow

variable {flow : Flow} {config : Config} {root : StmtId}

/-- Where a leave edge comes from. -/
theorem leave_of_mem_exits {query : ExitQuery} {edge : ExitEdge} (mem : edge ∈ flow.exits query)
    (leaves : edge.kind = .leave) :
    edge.source ∈ flow.searched query ∧ flow.isReachable edge.source = true ∧
      ∃ target, flow.target? edge.source = some target ∧
        flow.crosses query.boundary target = true := by
  obtain ⟨searched, -, found⟩ := leave_mem_exits_iff.mp ⟨mem, leaves⟩
  obtain ⟨live, target, resolved, crosses, -⟩ := leaveEdge?_eq_some.mp found
  exact ⟨searched, live, target, resolved, crosses⟩

/-- The jump leaves a part that the owner guards, for a place outside all of them. -/
structure Quits (flow : Flow) (config : Config) (stmt : StmtId) (target : JumpTarget)
    (owner : StmtId) : Prop where
  live : flow.Live (.entry stmt)
  resolved : flow.target? stmt = some target
  inner : ∃ part, flow.guardian? config part = some owner ∧ flow.body.Inside part stmt ∧
    flow.body.methodOf stmt = flow.body.methodOf part
  outer {part : StmtId} : flow.guardian? config part = some owner →
    ¬ flow.body.Inside part target.scope

namespace Accepted

variable (accepted : flow.Accepted)

include accepted

/-- A live jump out of a part that is searched quits the owner of the part, if the boundary of the
search holds all that the owner guards. -/
private theorem quits_of_searched {owner : StmtId} {query : ExitQuery} {edge : ExitEdge}
    (mem : edge ∈ flow.exits query) (leaves : edge.kind = .leave)
    (sources : ∀ part ∈ query.sources, flow.guardian? config part = some owner)
    (within : ∀ part, flow.guardian? config part = some owner →
      flow.body.Inside query.boundary part) :
    ∃ target, flow.Quits config edge.source target owner := by
  have tree := accepted.wellFormed.toIsTree
  obtain ⟨searched, reachable, target, resolved, crossing⟩ := leave_of_mem_exits mem leaves
  obtain ⟨part, listed, searched⟩ := List.mem_flatMap.mp searched
  obtain ⟨form, route, jump, routed, same⟩ := accepted.target?_eq_some.mp resolved
  have has : flow.body.has edge.source = true := Body.has_iff_get?.mpr ⟨_, jump⟩
  have guards := sources part listed
  obtain ⟨child, role⟩ := accepted.mem_children_of_guardian? guards
  obtain ⟨inside, method, -⟩ := (tree.mem_inMethod (tree.has_child child) has).mp searched
  refine ⟨target, (accepted.isReachable_iff has).mp reachable, resolved,
    ⟨part, guards, inside, method⟩, ?_⟩
  have spec := accepted.resolved_of_routed jump routed
  rw [same] at spec
  have crosses {scope : StmtId} (guarded : flow.guardian? config scope = some owner) :
      flow.crosses scope target = true :=
    accepted.crosses_of_inside resolved (within scope guarded) crossing
  intro part' guards' inside'
  rcases (accepted.crosses_iff resolved).mp (crosses guards') with returns | outside
  · -- Around the root of the method lies a single part, and it is the part around the jump.
    cases spec with
    | returnOut =>
      have child' := (accepted.mem_children_of_guardian? guards').1
      obtain rfl := tree.child_unique child child' inside
        (inside'.trans (tree.methodOf_spec has).2)
      exact (accepted.crosses_iff_of_protected resolved role method).mp (crosses guards) inside'
    | _ => cases returns
  · exact outside inside'

/-- A leave edge of a `finally` region is a live jump out of what the region protects. -/
theorem quits_of_exit {owner : StmtId} {scopes : List StmtId} {place : Place} {shape : Statement}
    {region : Region} (found : flow.body.get? owner = some shape)
    (own : flow.OwnFinally config scopes owner place shape region) {edge : ExitEdge}
    (mem : edge ∈ region.exits) (leaves : edge.kind = .leave) :
    ∃ target, flow.Quits config edge.source target owner := by
  cases own with
  | @clause parts body handler =>
    apply accepted.quits_of_searched mem leaves
    · intro part listed
      refine accepted.guardian?_eq_some.mpr (.inl ⟨parts, found, listed, ?_⟩)
      rw [TryStatement.finallyBody?, handler]
      rfl
    · intro part guards
      exact .of_child (accepted.mem_children_of_guardian? guards).1
  | @cleanup kind body guarded =>
    apply accepted.quits_of_searched mem leaves
    · intro part listed
      rw [List.mem_singleton.mp listed]
      exact accepted.guardian?_eq_some.mpr (.inr ⟨kind, found, guarded⟩)
    · intro part guards
      have child := (accepted.mem_children_of_guardian? guards).1
      rw [Body.children_of_get? found] at child
      rw [List.mem_singleton.mp child]
      exact .refl

/-- Control that starts what has a `finally` starts a part that the `finally` guards. -/
theorem guarded_of_next {part owner : StmtId} (guards : flow.guardian? config part = some owner)
    {next : FlowNode} (follows : flow.nextNode? (.entry owner) = some next) :
    ∃ first, flow.guardian? config first = some owner ∧ next = .entry first := by
  rw [nextNode?] at follows
  obtain ⟨shape, found, follows⟩ := Option.bind_eq_some_iff.mp follows
  rcases accepted.guardian?_eq_some.mp guards with
    ⟨parts, found', listed, handler⟩ | ⟨kind, found', guarded⟩
  all_goals
    rw [found] at found'
    cases found'
    cases follows
  · exact ⟨_, accepted.guardian?_eq_some.mpr
      (.inl ⟨parts, found, List.mem_cons_self, handler⟩), rfl⟩
  · exact ⟨_, accepted.guardian?_eq_some.mpr (.inr ⟨kind, found, guarded⟩), rfl⟩

section Quits

variable {stmt owner : StmtId} {target : JumpTarget}
  (quits : flow.Quits config stmt target owner)

include quits

/-- A live jump quits an owner that can start. -/
theorem live_of_quits : flow.Live (.entry owner) := by
  obtain ⟨part, guards, inner, same⟩ := quits.inner
  obtain ⟨child, role⟩ := accepted.mem_children_of_guardian? guards
  exact accepted.live_entry_of_protected quits.live child role inner same.symm

/-- A protected scope around the target of a jump lies around the owner that the jump quits. -/
theorem around_of_quits {scope : StmtId}
    (role : (flow.body.role? scope).any (·.isProtected) = true)
    (holds : flow.body.Inside scope target.scope) : flow.body.Inside scope owner := by
  have tree := accepted.wellFormed.toIsTree
  obtain ⟨part, guards, inner, -⟩ := quits.inner
  have child := (accepted.mem_children_of_guardian? guards).1
  obtain ⟨form, route, jump, routed, isTarget⟩ := accepted.target?_eq_some.mp quits.resolved
  have enters := (accepted.checked_spec jump routed).2.1
  rw [isTarget] at enters
  have around : flow.body.Inside scope stmt := by
    by_contra outside
    have free := enters scope holds outside
    rw [role] at free
    cases free
  rcases tree.inside_total inner around with below | above
  · exact (quits.outer guards (below.trans holds)).elim
  · rcases (tree.inside_child_iff child).mp above with rfl | above
    · exact (quits.outer guards holds).elim
    · exact above

/-- From the target of a jump to the owner that it quits, control passes no sealed scope. -/
theorem abuts_of_walks_owner (member : root ∈ flow.body.methods) {offset : Nat}
    (stands : flow.Stands config root (.node (.entry owner)) offset)
    (walks : flow.Walks config root offset target.arrival (.entry owner)) :
    flow.Abuts target.arrival (.entry owner) := by
  have tree := accepted.wellFormed.toIsTree
  have rooted := tree.has_of_mem_methods member
  rcases walks with abuts | ⟨scope, closed, abuts, closes, before⟩
  · exact abuts
  -- The sealed scope would hold the target, so the owner, and could not end before that starts.
  have holds := accepted.inside_of_sealed closed abuts
  rw [target.scope_arrival] at holds
  have above := accepted.around_of_quits quits closed.1 holds
  have laid := fun stmt ↦ (@mem_statements_iff flow root config tree rooted stmt).mp
  obtain ⟨-, within, -⟩ := laid scope closes.mem_statements
  obtain ⟨has, -, method⟩ := laid owner stands.mem_statements
  rcases (before_of_inside config tree rooted above has within method (.inl rfl)).2 with eq | behind
  · cases eq
  · exact (Nat.lt_asymm before behind).elim

/-- Control that runs from the owner to the target of a jump that quits the owner stays where it
is: it would start a part that the target lies outside of. -/
theorem eq_of_abuts_target (abuts : flow.Abuts (.entry owner) target.arrival) :
    target.arrival = .entry owner := by
  obtain ⟨part, guards, -, -⟩ := quits.inner
  rcases abuts.eq_or_next with same | ⟨next, follows, rest⟩
  · exact same
  · obtain ⟨first, guards', rfl⟩ := accepted.guarded_of_next guards follows
    have holds := rest.stays accepted.wellFormed.toIsTree
      (accepted.mem_children_of_guardian? guards').2 .refl
    rw [target.scope_arrival] at holds
    exact (quits.outer guards' holds).elim

/-- A jump that quits an owner arrives at the offset at which the owner starts only if control
runs from there into the owner without an instruction between. -/
theorem abuts_iff_of_quits (member : root ∈ flow.body.methods) {offset offset' : Nat}
    (stands : flow.Stands config root (.node target.arrival) offset)
    (stands' : flow.Stands config root (.node (.entry owner)) offset') :
    offset = offset' ↔ flow.Abuts target.arrival (.entry owner) := by
  have tree := accepted.wellFormed.toIsTree
  have rooted := tree.has_of_mem_methods member
  constructor
  · rintro rfl
    rcases accepted.walks member stands stands' with walks | walks
    · exact accepted.abuts_of_walks_owner quits member stands' walks
    · have abuts := accepted.abuts_of_walks (accepted.live_of_quits quits) walks
      rw [accepted.eq_of_abuts_target quits abuts]
      exact .refl
  · intro abuts
    exact (stands'.unique tree rooted (accepted.stands_of_abuts member stands abuts)).symm

end Quits

variable (member : root ∈ flow.body.methods)

include member

/-- What an owner protects lies around a jump that quits the owner, and not around its target. -/
theorem guards_of_quits {stmt owner : StmtId} {target : JumpTarget}
    (quits : flow.Quits config stmt target owner) {scopes : List StmtId} {place : Place}
    (laid : flow.Laid config root (flow.methodPlace config root) stmt scopes place) :
    (∃ guard ∈ place.guards, guard.owner? = some owner) ∧
      ∃ scopes' place',
        flow.Laid config root (flow.methodPlace config root) target.scope scopes' place' ∧
          ∀ guard ∈ place'.guards, guard.owner? ≠ some owner := by
  have tree := accepted.wellFormed.toIsTree
  have rooted := tree.has_of_mem_methods member
  obtain ⟨scopes', place', between, laid', guards, crossed, -⟩ :=
    accepted.exists_crossed member laid quits.resolved
  constructor
  · obtain ⟨part, guarded, inner, -⟩ := quits.inner
    have left : part ∈ flow.body.apart flow.numbering stmt target.scope :=
      (accepted.mem_apart (laid.has tree rooted) (laid'.has tree rooted)).mpr
        ⟨inner, quits.outer guarded⟩
    have listed : owner ∈ between.filterMap Guard.owner? := by
      rw [crossed]
      exact List.mem_filterMap.mpr ⟨part, left, guarded⟩
    obtain ⟨guard, mem, owned⟩ := List.mem_filterMap.mp listed
    refine ⟨guard, ?_, owned⟩
    rw [guards]
    exact List.mem_append_left _ mem
  · refine ⟨scopes', place', laid', fun guard mem owned ↦ ?_⟩
    have inner : guard ∉ (flow.methodPlace config root).guards := by
      intro mem
      cases List.mem_singleton.mp mem
      cases owned
    obtain ⟨part, guarded, inside⟩ := laid'.exists_guarded tree mem inner owned
    exact quits.outer guarded inside

/-- What an owner protects covers the target of a jump that quits the owner only if control runs
from there into the owner without an instruction between. -/
theorem covers_iff_of_quits {stmt owner : StmtId} {target : JumpTarget}
    (quits : flow.Quits config stmt target owner) {scopes : List StmtId} {place : Place}
    (laid : flow.Laid config root (flow.methodPlace config root) stmt scopes place)
    {label : LabelKey} (by' : flow.JumpsBy scopes target (.leave label)) {at' : Place}
    (token : (.instr stmt (.leave label), at') ∈
      (flow.methodCode config root).tokens (flow.methodPlace config root)) {guard : Guard}
    (listed : guard ∈ (flow.methodCode config root).guards (flow.methodPlace config root))
    (owned : guard.owner? = some owner) :
    guard.span.covers ((flow.methodCode config root).offsetOf label) = true ↔
      flow.Abuts target.arrival (.entry owner) := by
  have tree := accepted.wellFormed.toIsTree
  have rooted := tree.has_of_mem_methods member
  have formed := (accepted.methodFormed config member).formed
  have filled := Code.lt_of_guard formed listed
  obtain ⟨part, kind, rfl⟩ := Guard.owner?_eq_some.mp owned
  obtain ⟨-, scopes', place', laid', outside⟩ := accepted.guards_of_quits member quits laid
  -- The owner starts where what it protects does.
  obtain ⟨opened, opens⟩ := Code.opens_of_guard listed
  obtain ⟨_, start, shape, owner, found, own⟩ := accepted.exists_finally member opens kind
  have starts : guard.span.start = start.offset := by
    obtain ⟨-, spans⟩ := Code.region_of_guard formed listed
    rw [part] at spans
    exact spans.2.1.symm.trans own.kind.2.2
  rw [Span.covers_iff]
  cases by' with
  | leaveMethod within =>
    -- The exit of the method stands behind all that is protected.
    obtain ⟨exit, -, offset, -, -, last⟩ := accepted.stands_exit member rfl token
    rw [← offset]
    constructor
    · intro covers
      have bounds : guard.span.stop ≤ (flow.emit config root []).size := by
        rcases List.mem_append.mp listed with inner | epilogue
        · have := (Code.mem_guards_bounds inner).1.2
          rwa [show (flow.methodPlace config root).offset = 0 from rfl, Nat.zero_add] at this
        · rcases flow.epilogue_cases root (flow.emit config root []).layout with none | some
          · rw [none] at epilogue
            cases epilogue
          · rw [some] at epilogue
            cases epilogue
      omega
    · intro abuts
      rcases abuts.eq_or_next with same | ⟨next, follows, -⟩
      · cases same
      · cases follows
  | leave stays left =>
    obtain ⟨placed, mark, offset, around, stands⟩ :=
      accepted.stands_arrival member rfl quits.resolved stays laid'
    have stands' := owner.stands_entry tree rfl found
    rw [← offset, ← accepted.abuts_iff_of_quits quits member stands stands', ← starts]
    rcases Code.guard_cases fresh_methodPlace mark listed with ⟨within, -⟩ | ⟨-, sides⟩
    · rw [around] at within
      exact (outside guard within owned).elim
    · simp only [Token.width] at sides
      omega

end Accepted
end Flow

/-- The protected block of a `finally` that a live jump has to run covers the leave that the jump
is laid out as. It covers the target too exactly if control runs from there into the statement of
the `finally` without an instruction between. -/
theorem Config.leave_exits_iff {draft : Draft} {body : Body} (made : draft.toBody = .ok body)
    {flow : Flow} (analysed : Flow.ofBody body = .ok flow) {config : Config} {tree : RegionTree}
    (builds : config.Builds body tree) {stmt : StmtId} {label : LabelKey} {source target : Nat}
    (laid : (flow.emit config tree.method []).instrs[source]? = some (stmt, .leave label))
    (found : tree.instructions[source]? = some (.leave target)) {region : Region}
    (listed : region ∈ tree.regions) (kind : region.kind = .finallyBlock) {edge : ExitEdge}
    (mem : edge ∈ region.exits) (leaves : edge.kind = .leave) (same : edge.source = stmt) :
    ∃ child goal, region.children.head?.bind tree.region? = some child ∧
      child.kind = .tryBlock ∧ flow.target? stmt = some goal ∧
      child.span.covers source = true ∧
      (child.span.covers target = false ↔ ¬ flow.Abuts goal.arrival (.entry region.stmt)) := by
  obtain ⟨accepted, rfl, root, member, rfl⟩ := builds.exists_root made analysed
  have formed := (accepted.methodFormed config member).formed
  subst same
  -- The leave as a token of the code of the method.
  obtain ⟨at', token, offset⟩ :=
    (@Code.getElem?_instrs _ (flow.methodPlace config root) _ _ _).mp laid
  have token := Flow.tokens_methodCode token
  have offset : at'.offset = source := offset.trans (Nat.zero_add _)
  have resolves : target = (flow.methodCode config root).offsetOf label := by
    obtain ⟨_, operation, at'', token', offset', instr⟩ := Flow.getElem?_methodTree.mp found
    obtain ⟨-, rfl, -⟩ := Code.instr_unique token token' (offset.trans offset'.symm)
    exact (Instruction.leave.inj instr)
  -- The region with what it protects.
  obtain ⟨opened, opens⟩ :=
    (accepted.mem_regions_methodTree member).mp ⟨listed, by rw [kind]; nofun⟩
  have holds : region.kind.hasHandler = true := by
    rw [kind]
    rfl
  obtain ⟨child, at'', guard, inner, isTry, head, listed', rfl, part, span⟩ :=
    Code.exists_child formed opens holds
  have owned : guard.owner? = some guard.region.stmt :=
    Guard.owner?_eq_some.mpr ⟨part, kind, rfl⟩
  obtain ⟨scopes, place, shape, owner, shaped, own⟩ := accepted.exists_finally member opens kind
  obtain ⟨goal, quits⟩ := accepted.quits_of_exit shaped own mem leaves
  obtain ⟨form, route, jump, -⟩ := accepted.target?_eq_some.mp quits.resolved
  rcases accepted.origin_or_epilogue member token with
    ⟨scopes', place', shape', laid', found', -, fits⟩ | ⟨-, ends, -⟩
  · rw [jump] at found'
    cases found'
    cases fits with
    | plain none form => cases form
    | branch owns form => cases form
    | leave owns form => cases form
    | jump resolved by' around =>
      rw [quits.resolved] at resolved
      cases resolved
      refine ⟨child, goal, ?_, isTry, quits.resolved, ?_, ?_⟩
      · rw [head, Option.bind_some]
        exact Flow.region?_methodTree inner
      · -- What the owner protects around the jump is what the region protects.
        obtain ⟨⟨outer, within, owned'⟩, -⟩ := accepted.guards_of_quits member quits laid'
        rw [← around] at within
        have listed'' := (Code.guards_of_token token within).resolve_left fun mem ↦ by
          cases List.mem_singleton.mp mem
          cases owned'
        rw [accepted.owner_unique member listed'' listed' owned' owned] at within
        rw [← offset, ← span]
        exact (Code.covers_iff_mem_guards Flow.fresh_methodPlace token listed').mpr within
      · rw [← accepted.covers_iff_of_quits member quits laid' by' token listed' owned, ← span,
          resolves, Bool.not_eq_true]
  · cases ends

/-- A `continue` at the end of a `try` with a `finally`, which is all there is in an endless
loop. -/
def Draft.circling : Draft where
  statements := #[.expression [], .jump .continueLoop, .block [⟨0⟩, ⟨1⟩], .expression [],
    .tryFinally ⟨2⟩ ⟨3⟩, .loop .always ⟨4⟩]
  labelCount := 0
  localCount := 0
  root := ⟨5⟩

/-- What is seen of the leave of the `continue` out of its `finally`. -/
def Draft.Circles (flow : Flow) (tree : RegionTree) (region : Region) : Prop :=
  (flow.emit .default tree.method []).instrs[1]? = some (⟨1⟩, .leave (.head ⟨5⟩)) ∧
    tree.instructions[1]? = some (.leave 0) ∧ region.kind = .finallyBlock ∧
    (⟨⟨1⟩, .continueOf ⟨5⟩, .leave, true⟩ : ExitEdge) ∈ region.exits

instance (flow : Flow) (tree : RegionTree) (region : Region) :
    Decidable (Draft.Circles flow tree region) :=
  inferInstanceAs (Decidable (_ ∧ _ ∧ _ ∧ _))

theorem Config.leave_skips_handler :
    ∃ body flow tree, Draft.circling.toBody = .ok body ∧ Flow.ofBody body = .ok flow ∧
      Config.default.build body = .ok tree ∧
      ∃ region ∈ tree.regions, Draft.Circles flow tree region ∧
        ∃ child ∈ tree.childRegions region, child.span.covers 0 = true := by
  have circles : Config.default.tests .circling (fun flow tree ↦ decide
      (∃ region ∈ tree.regions, Draft.Circles flow tree region ∧
        ∃ child ∈ tree.childRegions region, child.span.covers 0 = true)) = true := by
    decide +kernel
  obtain ⟨body, flow, tree, made, analysed, built, holds⟩ := exists_built circles
  exact ⟨body, flow, tree, made, analysed, built, of_decide_eq_true holds⟩

theorem Config.leave_exits_circling :
    ∃ body flow tree, Draft.circling.toBody = .ok body ∧ Flow.ofBody body = .ok flow ∧
      Config.default.build body = .ok tree ∧
      ∃ region ∈ tree.regions, Draft.Circles flow tree region ∧
        ∃ child, region.children.head?.bind tree.region? = some child ∧
          child.span.covers 1 = true := by
  have circles : Config.default.tests .circling (fun flow tree ↦ decide
      (∃ region ∈ tree.regions, Draft.Circles flow tree region)) = true := by
    decide +kernel
  obtain ⟨body, flow, tree, made, analysed, built, holds⟩ := exists_built circles
  obtain ⟨region, listed, circles⟩ := of_decide_eq_true holds
  obtain ⟨laid, found, kind, mem⟩ := circles
  obtain ⟨child, -, first, -, -, covers, -⟩ :=
    leave_exits_iff made analysed (.outer built) laid found listed kind mem rfl rfl
  exact ⟨body, flow, tree, made, analysed, built, region, listed, ⟨laid, found, kind, mem⟩,
    child, first, covers⟩

end ProtectedRegions
