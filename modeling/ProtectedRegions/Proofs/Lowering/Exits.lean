import ProtectedRegions.Proofs.Flow.Exits
import ProtectedRegions.Proofs.Lowering.Sources

/-!
# Leave edges and leaves

Two views of a live jump agree: the regions that list it among their exits are those that cover its
instruction and whose statement does not hold its target, and the instruction is a leave if there
is any such region.
-/

namespace ProtectedRegions

/-- Whether the region lists a leave edge of the statement among its exits. -/
def Region.Leaves (region : Region) (stmt : StmtId) : Prop :=
  ∃ edge ∈ region.exits, edge.kind = .leave ∧ edge.source = stmt

namespace Flow

variable {flow : Flow} {config : Config} {root : StmtId}

/-- The body of a synthetic statement has a region of its own if the cleanup is in a `finally`. -/
theorem isBracketed_synthetic (tree : flow.body.IsTree) {stmt body : StmtId} {kind : SyntheticKind}
    (shaped : flow.body.get? stmt = some (.synthetic kind body))
    (guarded : (flow.decideCleanup config kind stmt body).isProtected = true) :
    flow.isBracketed config body = true := by
  have parent := tree.parent?_eq_some.mpr
    (Body.mem_children_of_get? shaped (List.mem_singleton_self body))
  rw [isBracketed, tree.role?_syntheticBody shaped, parent]
  exact guarded

namespace Accepted

variable (accepted : flow.Accepted) {jump : StmtId} {form : Jump}
  (found : flow.body.get? jump = some (.jump form))

include accepted found

/-- The jumps in the protected parts of a `try`. -/
theorem mem_sources_parts (config : Config) {stmt : StmtId} {parts : TryStatement}
    (shaped : flow.body.get? stmt = some (.tryBlock parts)) (scopes : List StmtId) :
    jump ∈ (flow.tryBodyCode (flow.emit config) scopes stmt parts.body ++
        .concat (parts.catches.zipIdx.map fun (clause, place) ↦
          flow.catchCode (flow.emit config) scopes stmt place clause)).sources ↔
      ∃ part ∈ parts.protectedParts, jump ∈ flow.body.inMethod part := by
  have tree := accepted.wellFormed.toIsTree
  have other : jump ≠ stmt := by
    rintro rfl
    rw [found] at shaped
    cases shaped
  have part {part : StmtId} (mem : part ∈ parts.protectedParts) :
      jump ∈ (flow.protectedCode (flow.emit config) scopes stmt part).sources ↔
        jump ∈ flow.body.inMethod part :=
    (accepted.isSimple_of_jump found).mem_sources_scope tree
      (tree.has_child (Body.mem_children_of_get? shaped (List.mem_append_left _ mem))) other _ _ _
  have region (head : RegionHead) (inner : Code) (events : List Event) :
      (Code.region head inner ++ .notes events).sources = inner.sources := by
    rw [Code.sources_append, Code.sources_region, Code.sources_notes, List.append_nil]
  have body : jump ∈ (flow.tryBodyCode (flow.emit config) scopes stmt parts.body).sources ↔
      jump ∈ flow.body.inMethod parts.body := by
    rw [tryBodyCode, region, part List.mem_cons_self]
  have clause (clause : CatchClause) (place : Nat) (mem : clause ∈ parts.catches) :
      jump ∈ (flow.catchCode (flow.emit config) scopes stmt place clause).sources ↔
        jump ∈ flow.body.inMethod clause.body := by
    have silent : jump ∉ (Code.onlyIf clause.isFiltered
        (.region ⟨.filterBlock, .user, clause.body,
          some ⟨place, clause.exceptionType, clause.binder, clause.isFiltered⟩, []⟩
          (.instr stmt (.filter stmt place) ++ .instr stmt .endFilter))).sources := by
      cases clause.isFiltered
      · exact List.not_mem_nil
      · show jump ∉ [stmt, stmt]
        simp [other]
    rw [catchCode, Code.sources_append, Code.sources_append, Code.sources_notes, List.append_nil,
      List.mem_append, or_iff_right silent]
    exact part (List.mem_cons_of_mem _ (List.mem_map_of_mem mem))
  rw [Code.sources_append, List.mem_append, body, Code.sources_concat, List.flatMap_map,
    List.mem_flatMap, TryStatement.protectedParts, List.exists_mem_cons_iff]
  refine or_congr_right ⟨?_, ?_⟩
  · rintro ⟨entry, mem, source⟩
    have mem := List.fst_mem_of_mem_zipIdx mem
    exact ⟨_, List.mem_map_of_mem mem, (clause entry.1 entry.2 mem).mp source⟩
  · rintro ⟨part, mem, listed⟩
    obtain ⟨first, caught, rfl⟩ := List.mem_map.mp mem
    rw [← List.zipIdx_map_fst 0 parts.catches] at caught
    obtain ⟨entry, placed, rfl⟩ := List.mem_map.mp caught
    exact ⟨entry, placed,
      (clause entry.1 entry.2 (List.fst_mem_of_mem_zipIdx placed)).mpr listed⟩

/-- The jumps in the group of a `try`. -/
theorem mem_sources_group (config : Config) {stmt : StmtId} {parts : TryStatement}
    (shaped : flow.body.get? stmt = some (.tryBlock parts)) (scopes : List StmtId) :
    jump ∈ (flow.groupCode (flow.emit config) scopes stmt parts).sources ↔
      ∃ part ∈ parts.protectedParts, jump ∈ flow.body.inMethod part := by
  rw [← accepted.mem_sources_parts found config shaped scopes, groupCode]
  split
  · next none =>
    rw [List.isEmpty_iff.mp none, Code.sources_append]
    simp [Code.sources_concat]
  · rw [Code.sources_append _ (.notes _), Code.sources_notes, List.append_nil,
      Code.sources_region]

variable {target : JumpTarget} (resolved : flow.target? jump = some target)

include resolved

/-- What the exits of a region tell of a live jump, if they are those of a query over scopes with
regions of their own. -/
theorem leaves_query (live : flow.isReachable jump = true) {region : Region} {query : ExitQuery}
    (exits : region.exits = flow.exits query)
    (boundary : flow.crosses query.boundary target = flow.crosses region.stmt target)
    {code : Code} (sources : flow.crosses region.stmt target = true →
      (jump ∈ code.sources ↔ ∃ part ∈ query.sources, jump ∈ flow.body.inMethod part))
    (parts : ∀ part ∈ query.sources, flow.body.has part = true ∧
      flow.isBracketed config part = true ∧
      (flow.crosses region.stmt target = true → flow.crosses part target = true)) :
    (region.Leaves jump ↔ jump ∈ code.sources ∧ flow.crosses region.stmt target = true) ∧
    (jump ∈ code.sources → flow.crosses region.stmt target = true →
      ∃ part, flow.isBracketed config part = true ∧ (flow.body.Inside part jump ∧
        flow.body.methodOf jump = flow.body.methodOf part) ∧ flow.crosses part target = true) := by
  constructor
  · rw [Region.Leaves, exits, exists_leave_iff found live resolved, searched, List.mem_flatMap,
      boundary]
    exact and_congr_left fun crosses ↦ (sources crosses).symm
  · intro source crosses
    obtain ⟨part, mem, listed⟩ := (sources crosses).mp source
    obtain ⟨has, bracketed, passes⟩ := parts part mem
    obtain ⟨inside, same, -⟩ := (accepted.wellFormed.toIsTree.mem_inMethod has
      (Body.has_iff_get?.mpr ⟨_, found⟩)).mp listed
    exact ⟨part, bracketed, ⟨inside, same⟩, passes crosses⟩

omit found in
/-- A jump that leaves a statement leaves its parts. -/
theorem crosses_child {stmt child : StmtId} (mem : child ∈ flow.body.children stmt)
    (crosses : flow.crosses stmt target = true) : flow.crosses child target = true :=
  accepted.crosses_of_inside resolved (.of_child mem)
    crosses

/-- No jump in the handler of a `try` leaves the `try`. -/
theorem not_crosses_owner {stmt : StmtId} {parts : TryStatement} {clause : HandlerClause}
    (shaped : flow.body.get? stmt = some (.tryBlock parts)) (handler : parts.handler = some clause)
    (listed : jump ∈ flow.body.inMethod clause.body) : flow.crosses stmt target = false := by
  have tree := accepted.wellFormed.toIsTree
  have child : clause.body ∈ flow.body.children stmt :=
    Body.mem_children_of_get? shaped (by simp [Statement.children, handler])
  obtain ⟨inside, same, -⟩ := (tree.mem_inMethod (tree.has_child child)
    (Body.has_iff_get?.mpr ⟨_, found⟩)).mp listed
  have stays := accepted.not_crosses_handler resolved (tree.role?_handlerBody shaped handler) inside
    same
  rw [← Bool.not_eq_true]
  intro crosses
  rw [accepted.crosses_child resolved child crosses] at stays
  cases stays

/-- The leave edges of a live jump in the region of a statement, and the scopes that it then
crosses. -/
theorem leaves_piece (live : flow.isReachable jump = true) {scopes : List StmtId} {stmt : StmtId}
    {shape : Statement} (shaped : flow.body.get? stmt = some shape) {piece : Code}
    (own : flow.Piece config scopes stmt shape piece) {place : Place} {region : Region}
    (top : piece.topRegions place = [region]) :
    (region.Leaves jump ↔
      jump ∈ piece.sources ∧ flow.crosses region.stmt target = true) ∧
    (jump ∈ piece.sources → flow.crosses region.stmt target = true →
      ∃ part, flow.isBracketed config part = true ∧ (flow.body.Inside part jump ∧
        flow.body.methodOf jump = flow.body.methodOf part) ∧ flow.crosses part target = true) := by
  have tree := accepted.wellFormed.toIsTree
  have other (plain : shape.isJump = false) : jump ≠ stmt := by
    rintro rfl
    rw [found] at shaped
    cases shaped
    cases plain
  have child {inner : StmtId} (mem : inner ∈ shape.children) : inner ∈ flow.body.children stmt :=
    Body.mem_children_of_get? shaped mem
  have scope {inner : StmtId} (mem : inner ∈ shape.children) (plain : shape.isJump = false)
      (operation : Instruction LabelKey) (scopes : List StmtId) :
      jump ∈ (flow.emit config inner scopes ++
          Code.onlyIf (flow.runsOn inner) (.instr stmt operation)).sources ↔
        jump ∈ flow.body.inMethod inner :=
    (accepted.isSimple_of_jump found).mem_sources_scope tree (tree.has_child (child mem))
      (other plain) _ _ _
  cases own with
  | @part parts part head owner mem own kind exits =>
    cases top
    have mem' := child (List.mem_append_left _ mem)
    refine accepted.leaves_query found resolved live exits
      (congrArg (flow.crosses · target) own.symm) (fun _ ↦ ?_) fun inner listed ↦ ?_
    · simp only [List.mem_singleton, exists_eq_left]
      exact scope (List.mem_append_left _ mem) rfl _ _
    · cases List.mem_singleton.mp listed
      exact ⟨tree.has_child mem', (bracketed_protectedPart config tree shaped mem).1,
        fun crosses ↦ own ▸ crosses⟩
  | @filter parts head index kind none =>
    cases top
    have silent : jump ∉ (Code.region head
        (.instr stmt (.filter stmt index) ++ .instr stmt .endFilter)).sources := by
      change jump ∉ [stmt, stmt]
      simp [other rfl]
    refine ⟨⟨?_, fun h ↦ (silent h.1).elim⟩, fun source ↦ (silent source).elim⟩
    rintro ⟨edge, mem, -⟩
    exact absurd mem (by simp [Place.region, none])
  | @group parts head entry clauses own kind exits zipped =>
    cases top
    have inner := accepted.mem_sources_parts found config shaped scopes
    rw [zipped] at inner
    refine accepted.leaves_query found resolved live exits
      (congrArg (flow.crosses · target) own.symm) (fun _ ↦ ?_) fun part mem ↦ ?_
    · rw [Code.sources_region]
      exact inner
    have mem' := child (List.mem_append_left _ mem)
    exact ⟨tree.has_child mem', (bracketed_protectedPart config tree shaped mem).1,
      fun crosses ↦ accepted.crosses_child resolved mem' (own ▸ crosses)⟩
  | @handler parts clause head handler own kind exits =>
    cases top
    have member : clause.body ∈ (Statement.tryBlock parts).children := by
      simp [Statement.children, handler]
    refine accepted.leaves_query found resolved live exits
      (congrArg (flow.crosses · target) own.symm) (fun crosses ↦ ?_) fun part mem ↦ ?_
    · rw [Code.sources_handled, List.mem_append, accepted.mem_sources_group found config shaped]
      refine or_iff_left fun listed ↦ ?_
      have stays := accepted.not_crosses_owner found resolved shaped handler
        ((scope member rfl _ _).mp listed)
      exact absurd (own ▸ crosses) (Bool.not_eq_true _ ▸ stays)
    · have mem' := child (List.mem_append_left _ mem)
      exact ⟨tree.has_child mem', (bracketed_protectedPart config tree shaped mem).1,
        fun crosses ↦ accepted.crosses_child resolved mem' (own ▸ crosses)⟩
  | @cleanup kind body head inside guarded own isFinally exits =>
    cases top
    have crosses : flow.crosses body target = flow.crosses head.stmt target := by
      rw [own, Bool.eq_iff_iff, accepted.crosses_synthetic resolved shaped]
    refine accepted.leaves_query found resolved live exits crosses (fun _ ↦ ?_) fun part mem ↦ ?_
    · have silent : jump ∉ (Code.instr stmt (.cleanup stmt kind) ++
          Code.instr stmt .endFinally).sources := by
        change jump ∉ [stmt, stmt]
        simp [other rfl]
      rw [Code.sources_handled, Code.sources_region, List.mem_append, or_iff_left silent]
      simp only [ExitQuery.ofScope, List.mem_singleton, exists_eq_left]
      exact scope List.mem_cons_self rfl _ _
    · cases List.mem_singleton.mp mem
      exact ⟨tree.has_child (child List.mem_cons_self), isBracketed_synthetic tree shaped guarded,
        fun h ↦ crosses.trans h⟩
  | @guarded kind body head guarded own isTry exits =>
    cases top
    refine accepted.leaves_query found resolved live exits
      (congrArg (flow.crosses · target) own.symm) (fun _ ↦ ?_) fun part mem ↦ ?_
    · simp only [ExitQuery.ofScope, List.mem_singleton, exists_eq_left]
      exact scope List.mem_cons_self rfl _ _
    · cases List.mem_singleton.mp mem
      exact ⟨tree.has_child (child List.mem_cons_self), isBracketed_synthetic tree shaped guarded,
        fun crosses ↦ own ▸ crosses⟩

end Accepted

/-- The scopes that a statement is laid out in are those around it with regions of their own. -/
theorem Laid.mem_scopes_iff (tree : flow.body.IsTree) (member : root ∈ flow.body.methods)
    {start : Place} {stmt : StmtId} {scopes : List StmtId} {place : Place}
    (laid : flow.Laid config root start stmt scopes place) {scope : StmtId} :
    scope ∈ scopes ↔ flow.isBracketed config scope = true ∧ flow.body.Inside scope stmt ∧
      flow.body.methodOf scope = root := by
  have own := tree.methodOf_of_mem_methods member
  induction laid with
  | root =>
    refine ⟨fun mem ↦ (List.not_mem_nil mem).elim, fun ⟨bracketed, inside, same⟩ ↦ ?_⟩
    -- A scope around the root would be the root, which has no region of its own.
    have rooted := tree.has_of_mem_methods member
    have around := (tree.methodOf_spec (Body.has_of_inside inside rooted)).2
    rw [same] at around
    have free := tree.not_protected_of_mem_methods member
    rw [← tree.inside_antisymm rooted inside around, protected_of_bracketed bracketed] at free
    cases free
  | @child stmt scopes scopes' place shape part laid found listed nests ih =>
    obtain ⟨child, open'⟩ := mem_children_of_nested tree found listed
    have method : flow.body.methodOf part.stmt = root := by
      rw [((Laid.child laid found listed nests).inside tree).2, own]
    rw [tree.inside_child_iff child]
    cases bracketed : flow.isBracketed config part.stmt with
    | false =>
      rw [(nests.free bracketed).1]
      refine ih.trans (and_congr_right fun isBracketed ↦ and_congr_left fun _ ↦ ⟨.inr, fun h ↦ ?_⟩)
      refine h.resolve_left ?_
      rintro rfl
      rw [bracketed] at isBracketed
      cases isBracketed
    | true =>
      rw [(nests.bracketed bracketed).1, List.mem_cons]
      refine (or_congr_right ih).trans ?_
      constructor
      · rintro (rfl | ⟨isBracketed, inside, same⟩)
        · exact ⟨bracketed, .inl rfl, method⟩
        · exact ⟨isBracketed, .inr inside, same⟩
      · rintro ⟨isBracketed, rfl | inside, same⟩
        · exact .inl rfl
        · exact .inr ⟨isBracketed, inside, same⟩

/-- A scope that a statement is laid out in has a guard around the statement. -/
theorem Laid.exists_guard {start : Place} {stmt : StmtId} {scopes : List StmtId} {place : Place}
    (laid : flow.Laid config root start stmt scopes place) {scope : StmtId}
    (mem : scope ∈ scopes) : ∃ guard ∈ place.guards, flow.Holds guard scope := by
  induction laid with
  | root => cases mem
  | @child stmt scopes scopes' place shape part laid found listed nests ih =>
    cases bracketed : flow.isBracketed config part.stmt with
    | false =>
      obtain ⟨same, guards, -⟩ := nests.free bracketed
      rw [same] at mem
      rw [guards]
      exact ih mem
    | true =>
      obtain ⟨same, guard, outer, guards, -, -, -, holds⟩ := nests.bracketed bracketed
      rw [same] at mem
      rw [guards]
      rcases List.mem_cons.mp mem with rfl | mem
      · exact ⟨guard, List.mem_append_left _ List.mem_cons_self, holds⟩
      · obtain ⟨guard', around, holds'⟩ := ih mem
        exact ⟨guard', List.mem_append_right _ around, holds'⟩

namespace Accepted

variable (accepted : flow.Accepted) (member : root ∈ flow.body.methods) {jump : StmtId}
  {form : Jump} (found : flow.body.get? jump = some (.jump form))

include accepted member found

/-- The instruction of a jump of the method. -/
theorem instr_of_jump {start at' : Place} {operation : Instruction LabelKey}
    (token : (.instr jump operation, at') ∈ (flow.emit config root []).tokens start) :
    ∃ scopes place target, flow.Laid config root start jump scopes place ∧
      flow.target? jump = some target ∧ flow.JumpsBy scopes target operation ∧
      at'.guards = place.guards ∧ at'.offset = place.offset := by
  have tree := accepted.wellFormed.toIsTree
  obtain ⟨stmt, scopes, place, shape, laid, shaped, own⟩ :=
    exists_own tree (tree.has_of_mem_methods member) token (by simp)
  obtain ⟨rfl, fits⟩ := forall_own_template config tree shaped scopes place _ own
  rw [found] at shaped
  cases shaped
  cases fits with
  | plain _ plain => cases plain
  | branch _ plain => cases plain
  | leave _ plain => cases plain
  | jump resolved by' around offset =>
    exact ⟨scopes, place, _, laid, resolved, by', around, offset⟩

variable {target : JumpTarget} (resolved : flow.target? jump = some target)
  (live : flow.isReachable jump = true) {at' : Place} {operation : Instruction LabelKey}
  (token : (.instr jump operation, at') ∈
    (flow.emit config root []).tokens (flow.methodPlace config root))

include resolved live token

/-- The regions with a leave edge of a live jump cover its instruction and are crossed by it, and
each region that covers the instruction and is crossed has such an edge. -/
theorem leaves_region {region : Region} {opened : Place} (opens : (.opens region, opened) ∈
      (flow.methodCode config root).tokens (flow.methodPlace config root)) :
    (region.Leaves jump ↔
      region.span.covers at'.offset = true ∧ flow.crosses region.stmt target = true) ∧
    (region.Leaves jump → ∃ part, flow.isBracketed config part = true ∧
      flow.body.Inside part jump ∧ flow.body.methodOf part = root ∧
        flow.crosses part target = true) := by
  have tree := accepted.wellFormed.toIsTree
  obtain ⟨stmt, scopes, place, shape, piece, laid, shaped, own, top, subset⟩ :=
    accepted.exists_piece member opens
  have covers := (accepted.isSimple_of_jump found).covers_iff_mem_sources tree
    (tree.has_of_mem_methods member) token subset (own.spans top)
  obtain ⟨leaves, bracketed⟩ := accepted.leaves_piece found resolved live shaped own top
  refine ⟨leaves.trans (and_congr_left' covers.symm), fun exits ↦ ?_⟩
  obtain ⟨source, crosses⟩ := leaves.mp exits
  obtain ⟨part, isBracketed, ⟨inside, same⟩, crosses⟩ := bracketed source crosses
  obtain ⟨scopes', place', target', laid', -⟩ := accepted.instr_of_jump member found token
  refine ⟨part, isBracketed, inside, ?_, crosses⟩
  rw [← same, (laid'.inside tree).2, tree.methodOf_of_mem_methods member]

/-- A scope of a live jump that the jump crosses has a region with a leave edge. -/
theorem exists_leaves {scopes : List StmtId} {place : Place}
    (laid : flow.Laid config root (flow.methodPlace config root) jump scopes place)
    (around : at'.guards = place.guards) {scope : StmtId} (mem : scope ∈ scopes)
    (crosses : flow.crosses scope target = true) :
    ∃ region opened, (.opens region, opened) ∈
      (flow.methodCode config root).tokens (flow.methodPlace config root) ∧
        region.Leaves jump := by
  have tree := accepted.wellFormed.toIsTree
  have token' := tokens_methodCode token
  obtain ⟨guard, within, holds⟩ := laid.exists_guard mem
  rw [← around] at within
  rw [Flow.Holds] at holds
  have listed := (Code.guards_of_token token' within).resolve_left fun outer ↦ by
    cases List.mem_singleton.mp outer
    rcases holds.2 with kind | kind <;> cases kind
  obtain ⟨opened, opens⟩ := Code.opens_of_guard listed
  refine ⟨guard.region, opened, opens, ?_⟩
  have covers := (Code.covers_iff_mem_guards fresh_methodPlace token' listed).mpr within
  obtain ⟨-, spans⟩ := Code.region_of_guard (accepted.methodFormed config member).formed listed
  obtain ⟨leaves, -⟩ := accepted.leaves_region member found resolved live token opens
  cases part : guard.part with
  | body =>
    rw [part] at holds
    exact holds.elim
  | whole =>
    rw [part] at holds spans
    rw [spans.2.2] at covers
    exact leaves.mpr ⟨covers, holds.1 ▸ crosses⟩
  | handler =>
    -- No jump leaves a handler.
    rw [part] at holds
    obtain ⟨isBracketed, inside, same⟩ := (laid.mem_scopes_iff tree member).mp mem
    obtain ⟨kind, handler⟩ := Option.isSome_iff_exists.mp holds.2.2
    have role := Body.handlerKind?_eq_some.mp handler
    have stays := accepted.not_crosses_handler resolved role inside
      (by rw [same, (laid.inside tree).2, tree.methodOf_of_mem_methods member])
    rw [crosses] at stays
    cases stays

/-- A region lists a leave edge of a live jump exactly if the jump crosses a scope that it is in. -/
theorem exists_leaves_iff {scopes : List StmtId} {place : Place}
    (laid : flow.Laid config root (flow.methodPlace config root) jump scopes place)
    (around : at'.guards = place.guards) :
    (∃ region ∈ (flow.methodTree config root).regions, region.kind ≠ .method ∧
      region.Leaves jump) ↔ ∃ scope ∈ scopes, flow.crosses scope target = true := by
  have tree := accepted.wellFormed.toIsTree
  constructor
  · rintro ⟨region, listed, kind, exits⟩
    obtain ⟨opened, opens⟩ := (accepted.mem_regions_methodTree member).mp ⟨listed, kind⟩
    obtain ⟨part, bracketed, inside, method, crosses⟩ :=
      (accepted.leaves_region member found resolved live token opens).2 exits
    exact ⟨part, (laid.mem_scopes_iff tree member).mpr ⟨bracketed, inside, method⟩, crosses⟩
  · rintro ⟨scope, mem, crosses⟩
    obtain ⟨region, opened, opens, exits⟩ :=
      accepted.exists_leaves member found resolved live token laid around mem crosses
    obtain ⟨listed, kind⟩ := (accepted.mem_regions_methodTree member).mpr ⟨opened, opens⟩
    exact ⟨region, listed, kind, exits⟩

end Accepted

/-- A jump becomes a leave if it crosses a scope, and a branch or a return if not. -/
theorem JumpsBy.form {scopes : List StmtId} {target : JumpTarget}
    {operation : Instruction LabelKey} (by' : flow.JumpsBy scopes target operation) :
    ((∃ scope ∈ scopes, flow.crosses scope target = true) → ∃ label, operation = .leave label) ∧
      ((¬ ∃ scope ∈ scopes, flow.crosses scope target = true) →
        if target.isReturn then operation = .ret else ∃ label, operation = .branch label) := by
  cases by' with
  | ret outermost =>
    rw [outermost]
    exact ⟨by simp, fun _ ↦ rfl⟩
  | leaveMethod within =>
    obtain ⟨scope, rest, rfl⟩ := List.exists_cons_of_ne_nil within
    exact ⟨fun _ ↦ ⟨_, rfl⟩, fun none ↦ (none ⟨scope, List.mem_cons_self, rfl⟩).elim⟩
  | branch stays holds =>
    refine ⟨fun left ↦ ?_, fun _ ↦ ?_⟩
    · obtain ⟨scope, mem, crosses⟩ := left
      rw [Flow.crosses, stays, holds scope mem] at crosses
      cases crosses
    · rw [stays]
      exact ⟨_, rfl⟩
  | leave stays left =>
    obtain ⟨scope, mem, outside⟩ := left
    refine ⟨fun _ ↦ ⟨_, rfl⟩, fun none ↦ (none ⟨scope, mem, ?_⟩).elim⟩
    rw [Flow.crosses, outside, Bool.not_false, Bool.or_true]

end Flow

/-- A live jump has one instruction. The regions that list a leave edge of the jump are those that
cover the instruction and whose statement does not hold the target, and such an edge names the
target whether it is live or not. The instruction is a leave if there is any such region. -/
theorem Config.jump_leaves_iff {draft : Draft} {body : Body} (made : draft.toBody = .ok body)
    {flow : Flow} (analysed : Flow.ofBody body = .ok flow) {config : Config} {tree : RegionTree}
    (builds : config.Builds body tree) {stmt : StmtId} {form : Jump}
    (jump : body.get? stmt = some (.jump form)) (live : flow.isReachable stmt = true)
    (within : body.methodOf stmt = tree.method) :
    ∃ target offset operation instr, flow.target? stmt = some target ∧
      (∀ offset' operation',
        (flow.emit config tree.method []).instrs[offset']? = some (stmt, operation') ↔
          offset' = offset ∧ operation' = operation) ∧
      tree.instructions[offset]? = some instr ∧
      (∀ region ∈ tree.regions, region.kind ≠ .method →
        (region.Leaves stmt ↔ region.span.covers offset = true ∧
          (target.isReturn = true ∨ flow.contains region.stmt target.scope = false)) ∧
        ∀ edge ∈ region.exits, edge.kind = .leave → edge.source = stmt →
          edge.target = target.exitTarget ∧
            edge.targetReachable = flow.reach.contains target.arrival) ∧
      ((∃ region ∈ tree.regions, region.kind ≠ .method ∧ region.Leaves stmt) →
        ∃ goal, instr = .leave goal) ∧
      ((¬ ∃ region ∈ tree.regions, region.kind ≠ .method ∧ region.Leaves stmt) →
        if target.isReturn then instr = .ret else ∃ goal, instr = .branch goal) := by
  obtain ⟨accepted, rfl, root, member, rfl⟩ := builds.exists_root made analysed
  have isTree := accepted.wellFormed.toIsTree
  have rooted := isTree.has_of_mem_methods member
  have simple : flow.IsSimple config stmt := accepted.isSimple_of_jump jump
  obtain ⟨operation, at', token⟩ := simple.exists_instr isTree rooted
    (isTree.methodOf_of_mem_methods member) within (flow.methodPlace config root)
  obtain ⟨scopes, place, target, laid, resolved, by', around, -⟩ :=
    accepted.instr_of_jump member jump token
  refine ⟨target, at'.offset, operation, _, resolved, fun offset operation' ↦ ?_,
    Flow.getElem?_methodTree.mpr ⟨stmt, operation, at', Flow.tokens_methodCode token, rfl, rfl⟩,
    ?_, ?_⟩
  · refine (simple.getElem?_instrs isTree rooted token).trans (and_congr_left' ?_)
    change 0 + offset = at'.offset ↔ _
    rw [Nat.zero_add]
  · intro region listed kind
    obtain ⟨opened, opens⟩ := (accepted.mem_regions_methodTree member).mp ⟨listed, kind⟩
    refine ⟨?_, fun edge mem leaves source ↦ ?_⟩
    · rw [(accepted.leaves_region member jump resolved live token opens).1, Flow.crosses,
        Bool.or_eq_true, Bool.not_eq_true']
    · obtain ⟨_, _, _, _, piece, -, -, own, top, -⟩ := accepted.exists_piece member opens
      rcases own.exits top with none | ⟨query, exits⟩
      · rw [none] at mem
        cases mem
      · rw [exits] at mem
        exact Flow.target_of_leave mem leaves (source ▸ resolved)
  · rw [accepted.exists_leaves_iff member jump resolved live token laid around]
    obtain ⟨leave, stay⟩ := by'.form
    refine ⟨fun crossed ↦ ?_, fun none ↦ ?_⟩
    · obtain ⟨label, rfl⟩ := leave crossed
      exact ⟨_, rfl⟩
    · have form := stay none
      split at form
      · next returns =>
        rw [if_pos returns, form]
        rfl
      · next stays =>
        obtain ⟨label, rfl⟩ := form
        rw [if_neg stays]
        exact ⟨_, rfl⟩

/-- A `break` whose `finally` never completes, so that the end of the loop is dead. -/
def Draft.stranded : Draft where
  statements := #[.jump .breakOut, .throwException, .tryFinally ⟨0⟩ ⟨1⟩, .loop .always ⟨2⟩]
  labelCount := 0
  localCount := 0
  root := ⟨3⟩

/-- The `break` leaves its `finally` for a target that cannot be reached. -/
theorem Config.jump_leaves_stranded :
    ∃ body flow tree, Draft.stranded.toBody = .ok body ∧ Flow.ofBody body = .ok flow ∧
      Config.default.build body = .ok tree ∧
      ∃ region ∈ tree.regions, region.kind = .finallyBlock ∧
        (⟨⟨0⟩, .breakOf ⟨3⟩, .leave, false⟩ : ExitEdge) ∈ region.exits ∧
        ∃ offset goal, tree.instructions[offset]? = some (.leave goal) ∧
          region.span.covers offset = true := by
  have strands : Config.default.tests .stranded (fun flow tree ↦ decide
      (flow.body.get? ⟨0⟩ = some (.jump .breakOut) ∧ flow.isReachable ⟨0⟩ = true ∧
        flow.body.methodOf ⟨0⟩ = tree.method ∧
        ∃ region ∈ tree.regions, region.kind = .finallyBlock ∧
          (⟨⟨0⟩, .breakOf ⟨3⟩, .leave, false⟩ : ExitEdge) ∈ region.exits)) = true := by
    decide +kernel
  obtain ⟨body, flow, tree, made, analysed, built, holds⟩ := exists_built strands
  obtain ⟨jump, live, within, region, listed, kind, mem⟩ := of_decide_eq_true holds
  obtain ⟨-, -, same⟩ := Config.checks_iff made analysed
  rw [same] at jump within
  obtain ⟨_, offset, _, instr, -, -, found, exits, leaves, -⟩ :=
    jump_leaves_iff made analysed (.outer built) jump live within
  have notMethod : region.kind ≠ .method := by
    rw [kind]
    nofun
  have own : region.Leaves ⟨0⟩ := ⟨_, mem, rfl, rfl⟩
  obtain ⟨goal, rfl⟩ := leaves ⟨region, listed, notMethod, own⟩
  exact ⟨body, flow, tree, made, analysed, built, region, listed, kind, mem, offset, goal, found,
    ((exits region listed notMethod).1.mp own).1⟩

end ProtectedRegions
