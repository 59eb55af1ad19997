import ProtectedRegions.Proofs.Flow.Answers
import ProtectedRegions.Proofs.Lowering.Forest
import ProtectedRegions.Proofs.Lowering.Sources
import ProtectedRegions.Proofs.Region.Nested

/-!
# Rethrow edges

Each catch body of a method has one region. A live rethrow is recorded by the region of the
innermost catch body around it and by no other one, and that region covers its instruction.
-/

namespace ProtectedRegions

/-- The rethrow edges of a statement among exits. -/
def ExitSet.rethrowsOf (exits : ExitSet) (stmt : StmtId) : ExitSet :=
  exits.filter fun edge ↦ edge.kind == .rethrow && edge.source == stmt

theorem ExitSet.rethrowsOf_append (first second : ExitSet) (stmt : StmtId) :
    rethrowsOf (first ++ second) stmt = first.rethrowsOf stmt ++ second.rethrowsOf stmt :=
  List.filter_append ..

/-- The region of a `finally` or `fault` is none of a catch body. -/
theorem HandlerKind.regionKind_ne_catchBlock (kind : HandlerKind) :
    kind.regionKind ≠ .catchBlock := by
  cases kind <;> nofun

/-- The bodies of the catch clauses of a `try`; none for another statement. -/
def Body.catchBodies (body : Body) (stmt : StmtId) : List StmtId :=
  match body.get? stmt with
  | some (.tryBlock parts) => parts.catches.map (·.body)
  | _ => []

namespace Body.IsTree

variable {body : Body} (tree : body.IsTree)

omit tree in
theorem mem_catchBodies {stmt part : StmtId} : part ∈ body.catchBodies stmt ↔
    ∃ parts, body.get? stmt = some (.tryBlock parts) ∧ part ∈ parts.catches.map (·.body) := by
  rw [catchBodies]
  split
  · next parts shaped => simp [shaped]
  · next other =>
    simp only [List.not_mem_nil, false_iff, not_exists, not_and]
    exact fun parts shaped ↦ (other parts shaped).elim

omit tree in
/-- The catch bodies of a statement are among its children. -/
theorem catchBodies_sublist (stmt : StmtId) :
    (body.catchBodies stmt).Sublist (body.children stmt) := by
  rw [catchBodies]
  split
  · next parts shaped =>
    rw [children_of_get? shaped]
    exact (List.sublist_cons_self _ _).trans (List.sublist_append_left _ _)
  · exact List.nil_sublist _

include tree

/-- No catch body belongs to two statements, or to one of them twice. -/
theorem nodup_flatMap_catchBodies {scopes : List StmtId} (nodup : scopes.Nodup) :
    (scopes.flatMap body.catchBodies).Nodup := by
  refine List.nodup_flatMap.mpr
    ⟨fun stmt _ ↦ (tree.nodup_children stmt).sublist (catchBodies_sublist stmt), ?_⟩
  refine nodup.imp fun {first second} different part mem mem' ↦ ?_
  exact different (tree.parent_unique ((catchBodies_sublist first).subset mem)
    ((catchBodies_sublist second).subset mem'))

end Body.IsTree

namespace Flow

variable {flow : Flow} {config : Config} {root : StmtId}

/-! ### The regions of catch bodies -/

private theorem catches_lowerCatch {stmt : StmtId} {clause : CatchClause} {place : Nat} :
    (((flow.lowerCatch (fun _ ↦ .empty) stmt clause place).heads.filter
      (·.kind = .catchBlock)).map (·.stmt)) = [clause.body] := by
  cases filtered : clause.isFiltered <;> simp [lowerCatch, filtered, RegionForest.heads]

private theorem catches_lowerGroup {stmt : StmtId} {parts : TryStatement} :
    (((flow.lowerGroup (fun _ ↦ .empty) stmt parts).heads.filter
      (·.kind = .catchBlock)).map (·.stmt)) = parts.catches.map (·.body) := by
  by_cases none : parts.catches.isEmpty = true
  · have empty := List.isEmpty_iff.mp none
    simp [lowerGroup, empty, RegionForest.heads]
  · have clauses : ((parts.catches.zipIdx.flatMap fun entry ↦
        (flow.lowerCatch (fun _ ↦ .empty) stmt entry.1 entry.2).heads).filter
          (·.kind = .catchBlock)).map (·.stmt) = parts.catches.map (·.body) := by
      rw [List.filter_flatMap, List.map_flatMap]
      simp only [catches_lowerCatch]
      conv_rhs => rw [← List.zipIdx_map_fst 0 parts.catches, List.map_map]
      rw [← List.map_eq_flatMap]
      rfl
    simp only [lowerGroup, none, Bool.false_eq_true, if_false, RegionForest.heads_tree,
      RegionForest.heads_append, RegionForest.heads_concat, RegionForest.heads, List.flatMap_map]
    exact clauses

/-- The catch regions of a statement are those of its catch bodies. -/
theorem catches_statementHeads (config : Config) (stmt : StmtId) :
    ((flow.statementHeads config stmt).filter (·.kind = .catchBlock)).map (·.stmt) =
      flow.body.catchBodies stmt := by
  rw [statementHeads, Body.catchBodies]
  cases flow.body.get? stmt with
  | none => rfl
  | some shape =>
    cases shape with
    | tryBlock parts =>
      cases found : parts.handler with
      | none =>
        simp only [ownHeads, lowerShape, found]
        exact catches_lowerGroup
      | some clause =>
        simp only [ownHeads, lowerShape, found, RegionForest.heads_tree, RegionForest.heads_append,
          RegionForest.heads, List.append_nil]
        rw [List.filter_cons_of_neg (by simp [clause.kind.regionKind_ne_catchBlock])]
        exact catches_lowerGroup
    | synthetic kind inner =>
      by_cases guarded : (flow.decideCleanup config kind stmt inner).isProtected = true <;>
        simp [ownHeads, lowerShape, guarded, RegionForest.heads]
    | lambda inner => simp [ownHeads, lowerShape, RegionForest.heads]
    | block | conditional | labeled | loop | switch | expression | jump | throwException
    | rethrow =>
      simp only [ownHeads, lowerShape, RegionForest.heads_concat, List.flatMap_map,
        RegionForest.heads]
      rw [List.flatMap_eq_nil_iff.mpr fun _ _ ↦ rfl]
      rfl

section Methods

variable (config) (tree : flow.body.IsTree) (rooted : flow.body.has root = true)

include tree rooted

/-- The catch regions of a method are those of the catch bodies in it. -/
theorem perm_catches_methodTree :
    (((flow.methodTree config root).regions.filter (·.kind = .catchBlock)).map (·.stmt)).Perm
      ((flow.body.inMethod root).flatMap flow.body.catchBodies) := by
  have heads := congrArg (fun heads ↦ (heads.filter (·.kind = .catchBlock)).map (·.stmt))
    (flow.map_toRegionHead_methodTree config tree rooted)
  simp only [List.filter_map, List.map_map] at heads
  rw [List.filter_cons_of_neg (by simp [methodHead])] at heads
  have each := ((flow.perm_heads_lower config tree rooted).filter
    (·.kind = .catchBlock)).map (·.stmt)
  rw [List.filter_flatMap, List.map_flatMap] at each
  simp only [catches_statementHeads] at each
  exact heads ▸ each

/-- No two catch regions of a method belong to one catch body. -/
theorem eq_of_catches {first second : Region}
    (listed : first ∈ (flow.methodTree config root).regions) (kind : first.kind = .catchBlock)
    (listed' : second ∈ (flow.methodTree config root).regions) (kind' : second.kind = .catchBlock)
    (same : first.stmt = second.stmt) : first = second := by
  have perm := perm_catches_methodTree config tree rooted
  have nodup := perm.nodup_iff.mpr (tree.nodup_flatMap_catchBodies (tree.nodup_inMethod rooted))
  exact List.inj_on_of_nodup_map nodup (List.mem_filter.mpr ⟨listed, decide_eq_true kind⟩)
    (List.mem_filter.mpr ⟨listed', decide_eq_true kind'⟩) same

/-- Each catch body in a method has a region. -/
theorem exists_catch {stmt part : StmtId} (member : stmt ∈ flow.body.inMethod root)
    (caught : part ∈ flow.body.catchBodies stmt) :
    ∃ region ∈ (flow.methodTree config root).regions, region.kind = .catchBlock ∧
      region.stmt = part := by
  have listed := (perm_catches_methodTree config tree rooted).mem_iff.mpr
    (List.mem_flatMap.mpr ⟨stmt, member, caught⟩)
  obtain ⟨region, listed, same⟩ := List.mem_map.mp listed
  obtain ⟨listed, kind⟩ := List.mem_filter.mp listed
  exact ⟨region, listed, of_decide_eq_true kind, same⟩

end Methods

/-! ### The regions that record a rethrow -/

/-- The rethrow edges of a statement among the exits of a query: there is one if the query searches
the statement and asks for its owner. -/
theorem mem_rethrows_exits {query : ExitQuery} {stmt : StmtId} {edge : ExitEdge} :
    edge ∈ (flow.exits query).rethrowsOf stmt ↔
      (stmt ∈ flow.searched query ∧ flow.body.get? stmt = some .rethrow) ∧
        flow.rethrowEdge? query.rethrowOwner stmt = some edge := by
  have found {owner : Option StmtId} {other : StmtId}
      (found : flow.rethrowEdge? owner other = some edge) :
      edge.kind = .rethrow ∧ edge.source = other := by
    obtain ⟨-, -, rfl⟩ := rethrowEdge?_eq_some.mp found
    exact ⟨rfl, rfl⟩
  simp only [ExitSet.rethrowsOf, List.mem_filter, Bool.and_eq_true, beq_iff_eq]
  constructor
  · rintro ⟨mem, kind, rfl⟩
    rcases List.mem_append.mp mem with mem | mem
    · obtain ⟨other, listed, taken⟩ := List.mem_filterMap.mp mem
      rw [exitAt?] at taken
      split at taken
      · obtain ⟨-, _, -, -, rfl⟩ := leaveEdge?_eq_some.mp taken
        cases kind
      · next shaped =>
        obtain ⟨-, rfl⟩ := found taken
        exact ⟨⟨listed, shaped⟩, taken⟩
      · cases taken
    · rw [fallThrough?] at mem
      split at mem
      · cases List.mem_singleton.mp mem
        cases kind
      · cases mem
  · rintro ⟨⟨listed, shaped⟩, taken⟩
    refine ⟨List.mem_append_left _ (List.mem_filterMap.mpr ⟨stmt, listed, ?_⟩), found taken⟩
    rw [exitAt?, shaped]
    exact taken

/-- A query that asks for no owner is answered without rethrow edges. -/
theorem rethrows_exits_of_none {query : ExitQuery} (none : query.rethrowOwner = none)
    (stmt : StmtId) : (flow.exits query).rethrowsOf stmt = [] := by
  refine List.eq_nil_iff_forall_not_mem.mpr fun edge mem ↦ ?_
  obtain ⟨-, ⟨owner, asked, -⟩, -⟩ := rethrowEdge?_eq_some.mp (mem_rethrows_exits.mp mem).2
  rw [none] at asked
  cases asked

/-- Only the region of a catch body records rethrows, and only those that the catch body owns. -/
theorem OwnHead.owned_of_rethrows {other stmt : StmtId} {shape : Statement} {head : RegionHead}
    (own : flow.OwnHead config other shape head) (records : head.exits.rethrowsOf stmt ≠ []) :
    head.kind = .catchBlock ∧ flow.body.rethrowOwner? stmt = some head.stmt := by
  cases own with
  | caught mem info =>
    obtain ⟨edge, listed⟩ := List.exists_mem_of_ne_nil _ records
    obtain ⟨-, ⟨owner, asked, owned⟩, -⟩ :=
      rethrowEdge?_eq_some.mp (mem_rethrows_exits.mp listed).2
    cases asked
    exact ⟨rfl, owned⟩
  | filter => exact (records rfl).elim
  | body | group | handler | cleanup | guarded =>
    exact (records (rethrows_exits_of_none rfl stmt)).elim

namespace Accepted

variable (accepted : flow.Accepted)

include accepted

/-- The region of a catch body records each live rethrow that the catch body owns, once. -/
theorem rethrowsOf_of_owned {other stmt : StmtId} {shape : Statement} {head : RegionHead}
    (own : flow.OwnHead config other shape head) (kind : head.kind = .catchBlock)
    (found : flow.body.get? stmt = some .rethrow) (live : flow.isReachable stmt = true)
    (owned : flow.body.rethrowOwner? stmt = some head.stmt) :
    head.exits.rethrowsOf stmt = [⟨stmt, .unwind, .rethrow, true⟩] := by
  have tree := accepted.wellFormed.toIsTree
  have has := Body.has_iff_get?.mpr ⟨_, found⟩
  obtain ⟨-, nearest⟩ := (tree.rethrowOwner?_eq_some has).mp owned
  have has' := Body.has_of_inside nearest.around has
  have searched : stmt ∈ flow.body.inMethod head.stmt := by
    rw [tree.mem_inMethod has' has, Body.isLambda, found]
    exact ⟨nearest.around, tree.methodOf_of_endsRethrow has nearest, rfl⟩
  cases own with
  | @caught parts clause mem info =>
    let query := (ExitQuery.ofScope clause.body other).owning clause.body
    have nodup : ((flow.exits query).rethrowsOf stmt).Nodup := by
      have completes : ExitSet.rethrowsOf (flow.fallThrough? query).toList stmt = [] := by
        rw [fallThrough?]
        split <;> rfl
      have lists := accepted.lists query has'
      rw [exits, ExitSet.rethrowsOf_append, completes, List.append_nil]
      refine List.Nodup.filter _ (.of_map (·.source) ?_)
      rw [Flow.searched]
      exact (List.flatMap_singleton _ _).symm ▸ lists.nodup
    refine List.perm_singleton.mp ((List.perm_ext_iff_of_nodup nodup (List.nodup_singleton _)).mpr
      fun edge ↦ ?_)
    rw [mem_rethrows_exits, rethrowEdge?_eq_some, List.mem_singleton]
    constructor
    · rintro ⟨-, -, -, rfl⟩
      rfl
    · rintro rfl
      exact ⟨⟨List.mem_flatMap.mpr ⟨_, List.mem_singleton_self _, searched⟩, found⟩, live,
        ⟨_, rfl, owned⟩, rfl⟩
  | @handler _ clause => exact (clause.kind.regionKind_ne_catchBlock kind).elim
  | body | group | filter | cleanup | guarded => cases kind

/-- A rethrow has an owner, which is the innermost catch body around it. -/
theorem exists_rethrowOwner {stmt : StmtId} (found : flow.body.get? stmt = some .rethrow) :
    ∃ owner, flow.body.rethrowOwner? stmt = some owner ∧
      flow.body.methodOf owner = flow.body.methodOf stmt ∧
      flow.body.Nearest (fun scope ↦ ∃ place, flow.body.Plays scope (.catchBody place))
        stmt owner := by
  have tree := accepted.wellFormed.toIsTree
  have has := Body.has_iff_get?.mpr ⟨_, found⟩
  have passes := exists_ofBody_eq_ok.mp ⟨flow, accepted.analysed⟩ stmt has
  obtain ⟨owner, place, plays, nearest⟩ := (accepted.wellFormed.route?_rethrow found).mp passes
  refine ⟨owner, (tree.rethrowOwner?_eq_some has).mpr ⟨⟨place, plays⟩, nearest⟩,
    (tree.methodOf_of_endsRethrow has nearest).symm, nearest.around, ⟨place, plays⟩, ?_⟩
  exact fun around catches ↦ nearest.first around (.inl catches)

variable (member : root ∈ flow.body.methods)

include member

/-- The region of a catch body that runs in the method. -/
theorem exists_catch_of_plays (config : Config) {owner : StmtId} {place : Nat}
    (plays : flow.body.Plays owner (.catchBody place)) (same : flow.body.methodOf owner = root) :
    ∃ region ∈ (flow.methodTree config root).regions, region.kind = .catchBlock ∧
      region.stmt = owner := by
  have tree := accepted.wellFormed.toIsTree
  cases plays with
  | @catchBody stmt parts _ clause shaped listed own =>
    subst own
    have caught : clause.body ∈ flow.body.catchBodies stmt :=
      Body.IsTree.mem_catchBodies.mpr
        ⟨parts, shaped, List.mem_map_of_mem (List.mem_of_getElem? listed)⟩
    have child := (Body.IsTree.catchBodies_sublist stmt).subset caught
    have has := Body.has_iff_get?.mpr ⟨_, shaped⟩
    have open' : flow.body.isLambda stmt = false := by
      rw [Body.isLambda, shaped]
      rfl
    have within : flow.body.methodOf stmt = root := by
      rw [← same, tree.methodOf_child child, open']
      rfl
    refine exists_catch config tree (tree.has_of_mem_methods member) ?_ caught
    rw [tree.mem_inMethod (tree.has_of_mem_methods member) has,
      tree.methodOf_of_mem_methods member]
    exact ⟨within ▸ (tree.methodOf_spec has).2, within, open'⟩

/-- The region of a catch body covers the instruction of each rethrow in it. -/
theorem covers_of_catch {stmt : StmtId} (found : flow.body.get? stmt = some .rethrow)
    {region : Region} (listed : region ∈ (flow.methodTree config root).regions)
    (kind : region.kind = .catchBlock) (inside : stmt ∈ flow.body.inMethod region.stmt)
    {operation : Instruction LabelKey} {at' : Place} (token : (.instr stmt operation, at') ∈
      (flow.emit config root []).tokens (flow.methodPlace config root)) :
    region.span.covers at'.offset = true := by
  have tree := accepted.wellFormed.toIsTree
  have simple : flow.IsSimple config stmt := .of_rethrow found
  have notMethod : region.kind ≠ .method := by
    rw [kind]
    nofun
  obtain ⟨opened, opens⟩ := (accepted.mem_regions_methodTree member).mp ⟨listed, notMethod⟩
  obtain ⟨owner, scopes, place, shape, piece, laid, shaped, own, top, subset⟩ :=
    accepted.exists_piece member opens
  rw [simple.covers_iff_mem_sources tree (tree.has_of_mem_methods member) token subset
    (own.spans top)]
  cases own with
  | @part parts part head owned mem own kind' exits =>
    cases top
    have other : stmt ≠ owner := by
      rintro rfl
      cases found.symm.trans shaped
    have has := tree.has_child (Body.mem_children_of_get? shaped (List.mem_append_left _ mem))
    exact (simple.mem_sources_scope tree has other _ _ _).mpr (own ▸ inside)
  | filter kind' | group _ kind' | cleanup _ _ kind' | guarded _ _ kind' =>
    cases top
    cases kind'.symm.trans kind
  | @handler _ clause _ _ _ kind' =>
    cases top
    exact (clause.kind.regionKind_ne_catchBlock (kind'.symm.trans kind)).elim

end Accepted
end Flow

/-- A live rethrow is recorded once: the region of the innermost catch body around it lists one
rethrow edge of it, and no other region lists any. That region covers the instruction of the
rethrow, of which there is one. -/
theorem Config.rethrow_recorded_once {draft : Draft} {body : Body} (made : draft.toBody = .ok body)
    {flow : Flow} (analysed : Flow.ofBody body = .ok flow) {config : Config} {tree : RegionTree}
    (builds : config.Builds body tree) {stmt : StmtId} (found : body.get? stmt = some .rethrow)
    (live : flow.isReachable stmt = true) (within : body.methodOf stmt = tree.method) :
    ∃ region offset, tree.regions.filter (·.exits.rethrowsOf stmt ≠ []) = [region] ∧
      region.exits.rethrowsOf stmt = [⟨stmt, .unwind, .rethrow, true⟩] ∧
      region.kind = .catchBlock ∧
      body.Nearest (fun scope ↦ ∃ place, body.Plays scope (.catchBody place)) stmt region.stmt ∧
      (∀ offset' operation,
        (flow.emit config tree.method []).instrs[offset']? = some (stmt, operation) ↔
          offset' = offset ∧ operation = .rethrow) ∧
      tree.instructions[offset]? = some .rethrow ∧ region.span.covers offset = true := by
  obtain ⟨accepted, rfl, root, member, rfl⟩ := builds.exists_root made analysed
  have isTree := accepted.wellFormed.toIsTree
  have has := Body.has_iff_get?.mpr ⟨_, found⟩
  have rooted := isTree.has_of_mem_methods member
  obtain ⟨owner, owned, same, nearest⟩ := accepted.exists_rethrowOwner found
  obtain ⟨place, plays⟩ := nearest.holds
  obtain ⟨region, listed, kind, rfl⟩ :=
    accepted.exists_catch_of_plays member config plays (same.trans within)
  have records : region.exits.rethrowsOf stmt = [⟨stmt, .unwind, .rethrow, true⟩] := by
    rcases flow.toRegionHead_methodTree config isTree rooted listed with head | ⟨_, -, _, -, own⟩
    · cases (congrArg (·.kind) head).symm.trans kind
    · exact accepted.rethrowsOf_of_owned (Flow.ownHead_of_mem own) kind found live owned
  have only {other : Region} (listed' : other ∈ (flow.methodTree config root).regions)
      (some : other.exits.rethrowsOf stmt ≠ []) : other = region := by
    rcases flow.toRegionHead_methodTree config isTree rooted listed' with head | ⟨_, -, _, -, own⟩
    · rw [head] at some
      exact (some (Flow.rethrows_exits_of_none rfl stmt)).elim
    · obtain ⟨kind', owned'⟩ := (Flow.ownHead_of_mem own).owned_of_rethrows some
      exact Flow.eq_of_catches config isTree rooted listed' kind' listed kind
        (Option.some.inj (owned'.symm.trans owned))
  have simple : flow.IsSimple config stmt := .of_rethrow found
  obtain ⟨operation, at', token⟩ := simple.exists_instr isTree rooted
    (isTree.methodOf_of_mem_methods member) within (flow.methodPlace config root)
  obtain ⟨_, shape, -, shaped, code⟩ := simple.exists_laid isTree rooted token
  cases shaped.symm.trans found
  cases code
  refine ⟨region, at'.offset, ?_, records, kind, nearest, fun offset operation ↦ ?_,
    Flow.getElem?_methodTree.mpr ⟨stmt, .rethrow, at', Flow.tokens_methodCode token, rfl, rfl⟩, ?_⟩
  · have nested := (accepted.methodFormed config member).nested Flow.reads_methodTree
    refine List.perm_singleton.mp ((List.perm_ext_iff_of_nodup (nested.nodup_ids.of_map.filter _)
      (List.nodup_singleton _)).mpr fun other ↦ ?_)
    rw [List.mem_filter, List.mem_singleton, decide_eq_true_iff]
    constructor
    · rintro ⟨listed', some⟩
      exact only listed' some
    · rintro rfl
      exact ⟨listed, by simp [records]⟩
  · refine (simple.getElem?_instrs isTree rooted token).trans (and_congr_left' ?_)
    change 0 + offset = at'.offset ↔ _
    rw [Nat.zero_add]
  · refine accepted.covers_of_catch member found listed kind ?_ token
    rw [isTree.mem_inMethod (Body.has_of_inside nearest.around has) has, Body.isLambda, found]
    exact ⟨nearest.around, same.symm, rfl⟩

/-- A rethrow in the body of a `try` with a `finally`, all of it in a catch body in a catch body. -/
def Draft.entangled : Draft where
  statements := #[.throwException, .throwException, .rethrow, .expression [], .tryFinally ⟨2⟩ ⟨3⟩,
    .tryCatch ⟨1⟩ [⟨none, none, none, ⟨4⟩⟩], .tryCatch ⟨0⟩ [⟨none, none, none, ⟨5⟩⟩]]
  labelCount := 0
  localCount := 0
  root := ⟨6⟩

/-- Only the inner catch body records the rethrow. -/
theorem Config.rethrow_recorded_once_entangled :
    ∃ body flow tree region offset, Draft.entangled.toBody = .ok body ∧
      Flow.ofBody body = .ok flow ∧ Config.default.build body = .ok tree ∧
      (tree.regions.filter (·.kind = .catchBlock)).map (·.stmt) = [⟨5⟩, ⟨4⟩] ∧
      tree.regions.filter (·.exits.rethrowsOf ⟨2⟩ ≠ []) = [region] ∧
      region.stmt = ⟨4⟩ ∧ tree.instructions[offset]? = some .rethrow ∧
      region.span.covers offset = true := by
  have entangles : Config.default.tests .entangled (fun flow tree ↦ decide
      (flow.body.get? ⟨2⟩ = some .rethrow ∧ flow.isReachable ⟨2⟩ = true ∧
        flow.body.methodOf ⟨2⟩ = tree.method ∧
        (tree.regions.filter (·.kind = .catchBlock)).map (·.stmt) = [⟨5⟩, ⟨4⟩] ∧
        (tree.regions.filter (·.exits.rethrowsOf ⟨2⟩ ≠ [])).map (·.stmt) = [⟨4⟩])) = true := by
    decide +kernel
  obtain ⟨body, flow, tree, made, analysed, built, holds⟩ := exists_built entangles
  obtain ⟨found, live, within, catches, recorded⟩ := of_decide_eq_true holds
  obtain ⟨-, -, rfl⟩ := Config.checks_iff made analysed
  obtain ⟨region, offset, only, -, -, -, -, instr, covers⟩ :=
    rethrow_recorded_once made analysed (.outer built) found live within
  rw [only] at recorded
  exact ⟨flow.body, flow, tree, region, offset, made, analysed, built, catches, only,
    List.singleton_inj.mp recorded, instr, covers⟩

end ProtectedRegions
