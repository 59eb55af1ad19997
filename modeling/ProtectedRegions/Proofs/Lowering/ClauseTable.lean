import ProtectedRegions.Proofs.Lowering.Built
import ProtectedRegions.Proofs.Lowering.Pieces
import ProtectedRegions.Proofs.Region.Table

/-!
# The clause table of a method

The regions that a method is laid out to are protected blocks with their handlers. So its clause
table is complete, it is searched from the innermost block outwards, and one clause encloses
another one just if the handler of the other one is below the block that it protects.
-/

namespace ProtectedRegions

/-- Whether the region is made of a catch clause of the `try` that a group belongs to: of the one
with its number, whose handler body, type and filter it has. -/
def Region.IsCatchOf (region : Region) (body : Body) (group : Region) : Prop :=
  ∃ parts clause info, body.get? group.stmt = some (.tryBlock parts) ∧
    region.catchInfo = some info ∧ parts.catches[info.clause]? = some clause ∧
    region.stmt = clause.body ∧ info.exceptionType = clause.exceptionType ∧
    info.filtered = clause.isFiltered

namespace Flow

/-- The region that the body of a `try` is laid out to. -/
def blockHead (flow : Flow) (stmt body : StmtId) : RegionHead :=
  ⟨.tryBlock, .user, body, none, flow.exits (.ofScope body stmt)⟩

/-- The regions that a catch clause of a `try` is laid out to. -/
def catchHeads (flow : Flow) (stmt : StmtId) (entry : CatchClause × Nat) : List RegionHead :=
  let clause := entry.1
  let info : CatchInfo := ⟨entry.2, clause.exceptionType, clause.binder, clause.isFiltered⟩
  let query := (ExitQuery.ofScope clause.body stmt).owning clause.body
  (if clause.isFiltered then [⟨.filterBlock, .user, clause.body, some info, []⟩] else []) ++
    [⟨.catchBlock, .user, clause.body, some info, flow.exits query⟩]

variable {flow : Flow} {config : Config} {root : StmtId}

/-- The one of the regions of a catch clause that is no filter. -/
private theorem head_of_catchHeads {stmt : StmtId} {clause : CatchClause} {place : Nat}
    {head : RegionHead} (mem : head ∈ flow.catchHeads stmt (clause, place))
    (kind : head.kind = .catchBlock) : ∃ exits, head = ⟨.catchBlock, .user, clause.body,
      some ⟨place, clause.exceptionType, clause.binder, clause.isFiltered⟩, exits⟩ := by
  rcases List.mem_append.mp mem with mem | mem
  · split at mem
    · cases List.mem_singleton.mp mem
      cases kind
    · cases mem
  · exact ⟨_, List.mem_singleton.mp mem⟩

private theorem tops_catches {emit : Emitter} {scopes : List StmtId} {stmt : StmtId}
    (clauses : List (CatchClause × Nat)) :
    (Code.concat (clauses.map fun (clause, place) ↦
      flow.catchCode emit scopes stmt place clause)).tops =
        clauses.flatMap (flow.catchHeads stmt) := by
  rw [Code.tops_concat, List.flatMap_map]
  refine List.flatMap_congr fun entry _ ↦ ?_
  simp only [catchCode, catchHeads, Code.tops_append, Code.tops_notes, Code.tops, List.append_nil]
  cases entry.1.isFiltered <;> rfl

private theorem isBare_catches {emit : Emitter} {scopes : List StmtId} {stmt : StmtId}
    (clauses : List (CatchClause × Nat)) :
    (Code.concat (clauses.map fun (clause, place) ↦
      flow.catchCode emit scopes stmt place clause)).isBare = true := by
  refine Code.isBare_concat fun part mem ↦ ?_
  obtain ⟨⟨clause, place⟩, -, rfl⟩ := List.mem_map.mp mem
  simp only [catchCode, Code.append_eq, Code.isBare, Code.isBare_notes]
  cases clause.isFiltered <;> rfl

private theorem touching_later {first last : Nat} {region : Region} {rest : List Region}
    (touching : Code.Touching first last (region :: rest)) :
    Code.Touching region.span.stop last rest := by
  cases touching with
  | cons start later => exact later

/-- The regions of a group: a protected block with the handlers of its catches behind it. -/
private theorem exists_handlers {emit : Emitter} {scopes : List StmtId} {stmt body : StmtId}
    {clauses : List (CatchClause × Nat)} {inner : Code}
    (made : flow.tryBodyCode emit scopes stmt body ++ .concat (clauses.map fun (clause, place) ↦
      flow.catchCode emit scopes stmt place clause) = inner) (place : Place) :
    ∃ block handlers, inner.topRegions place = block :: handlers ∧
      block.toRegionHead = flow.blockHead stmt body ∧
      handlers.map (·.toRegionHead) = clauses.flatMap (flow.catchHeads stmt) ∧
      Code.Touching block.span.stop (place.offset + inner.size) handlers := by
  have bare : inner.isBare = true := by
    rw [← made]
    exact Bool.and_eq_true_iff.mpr
      ⟨(Bool.true_and _).trans (Code.isBare_notes _), isBare_catches clauses⟩
  have heads := Code.map_topRegions inner place
  have touching := Code.touching_topRegions inner place bare
  rw [← made, Code.tops_append, tops_catches, made, tryBodyCode, Code.tops_append, Code.tops_notes,
    Code.tops, List.append_nil, List.singleton_append, List.map_eq_cons_iff] at heads
  obtain ⟨block, handlers, children, head, heads⟩ := heads
  rw [children] at touching
  exact ⟨block, handlers, children, head, heads, touching_later touching⟩

/-- Regions that touch one another with the heads of catch clauses are the handlers of a group. -/
private theorem handlers_of_heads {stmt : StmtId} {clauses : List CatchClause} {place : Nat}
    {regions : List Region} {first last : Nat} (touching : Code.Touching first last regions)
    (heads : regions.map (·.toRegionHead) =
      (clauses.zipIdx place).flatMap (flow.catchHeads stmt)) : Handlers place regions := by
  induction clauses generalizing place regions first with
  | nil =>
    cases List.map_eq_nil_iff.mp heads
    exact .nil
  | cons clause rest ih =>
    rw [List.zipIdx_cons, List.flatMap_cons, catchHeads] at heads
    cases filtered : clause.isFiltered with
    | false =>
      simp only [filtered, Bool.false_eq_true, if_false, List.nil_append, List.cons_append,
        List.map_eq_cons_iff] at heads
      obtain ⟨handler, regions, rfl, head, heads⟩ := heads
      cases touching with
      | cons start later =>
        exact .typed (congrArg (·.kind) head) (congrArg (·.catchInfo) head) rfl (Nat.le_refl _)
          (ih later heads)
    | true =>
      simp only [filtered, if_true, List.cons_append, List.nil_append,
        List.map_eq_cons_iff] at heads
      obtain ⟨filter, regions, rfl, head, handler, regions, rfl, head', heads⟩ := heads
      cases touching with
      | cons start later =>
        cases later with
        | cons start' later =>
          exact .filtered (congrArg (·.kind) head) (congrArg (·.kind) head')
            (congrArg (·.catchInfo) head) (congrArg (·.catchInfo) head') rfl start'.symm
            (Nat.le_refl _) (ih later heads)

namespace Accepted

variable (accepted : flow.Accepted) (member : root ∈ flow.body.methods)

include accepted member

/-- A region below the method is a piece of a statement, and its tokens are among those of the
method. -/
theorem exists_piece_within {region : Region}
    (mem : region ∈ (flow.methodTree config root).regions) (below : region.kind ≠ .method) :
    ∃ at' stmt scopes shape piece, flow.body.get? stmt = some shape ∧
      flow.Piece config scopes stmt shape piece ∧ piece.topRegions at' = [region] ∧
      piece.tokens at' ⊆
        (Code.region (flow.methodHead root) (flow.methodCode config root)).tokens ⟨0, 0, []⟩ := by
  have method := accepted.methodFormed config member
  rcases Code.MethodFormed.opens_of_mem reads_methodTree mem with rfl | ⟨at', opens⟩
  · exact (below rfl).elim
  obtain ⟨stmt, scopes, -, shape, piece, -, found, own, top, subset⟩ :=
    accepted.exists_piece member opens
  exact ⟨at', stmt, scopes, shape, piece, found, own, top,
    fun entry listed ↦ List.mem_cons_of_mem _ (tokens_methodCode (subset listed))⟩

/-- A protected block holds statements only, or it holds the body and the catches of a `try`. -/
theorem exists_catches {region : Region}
    (mem : region ∈ (flow.methodTree config root).regions) (kind : region.kind = .tryBlock) :
    ∃ children, Code.Family (flow.methodTree config root) region children ∧
      ((∀ child ∈ children, child.kind.isFree = true) ∨
        ∃ parts block handlers, flow.body.get? region.stmt = some (.tryBlock parts) ∧
          region.exits = flow.exits (.ofParts parts.protectedParts region.stmt region.stmt) ∧
          children = block :: handlers ∧
          block.toRegionHead = flow.blockHead region.stmt parts.body ∧
          handlers.map (·.toRegionHead) =
            parts.catches.zipIdx.flatMap (flow.catchHeads region.stmt) ∧
          Code.Touching block.span.stop region.span.stop handlers) := by
  have method := accepted.methodFormed config member
  obtain ⟨at', stmt, scopes, shape, piece, found, own, top, subset⟩ :=
    accepted.exists_piece_within member mem (by rw [kind]; nofun)
  have subset {head : RegionHead} {inner : Code} (same : piece = .region head inner) :
      inner.tokens (at'.within head inner) ⊆
        (Code.region (flow.methodHead root) (flow.methodCode config root)).tokens ⟨0, 0, []⟩ :=
    fun entry listed ↦ subset (same ▸ List.mem_cons_of_mem _ listed)
  have has {part : StmtId} (mem : part ∈ shape.children) : flow.body.has part = true :=
    accepted.wellFormed.toIsTree.has_child (Body.mem_children_of_get? found mem)
  -- The code of a single statement holds no handlers outside a group.
  have alone {part : StmtId} {head : RegionHead} (mem : part ∈ shape.children)
      (same : piece = .region head (flow.protectedCode (flow.emit config) scopes stmt part)) :
      ∃ children, Code.Family (flow.methodTree config root)
        (at'.region head (flow.protectedCode (flow.emit config) scopes stmt part)) children ∧
          ∀ child ∈ children, child.kind.isFree = true := by
    refine ⟨_, reads_methodTree.family (subset same), fun child among ↦ ?_⟩
    have closed : (flow.protectedCode (flow.emit config) scopes stmt part).Closed :=
      (accepted.closed_emit config (has mem) _).append (.onlyIf .instr)
    refine closed.free child.toRegionHead ?_
    rw [← Code.map_topRegions _ (at'.within head _)]
    exact List.mem_map_of_mem among
  cases own with
  | part among own kind' =>
    cases top
    obtain ⟨children, family, free⟩ := alone (List.mem_append_left _ among) rfl
    exact ⟨children, family, .inl free⟩
  | guarded isProtected own isTry =>
    cases top
    obtain ⟨children, family, free⟩ := alone List.mem_cons_self rfl
    exact ⟨children, family, .inl free⟩
  | filter kind' =>
    cases top
    cases kind'.symm.trans kind
  | handler known own kind' =>
    cases top
    have kind := kind'.symm.trans kind
    cases clause : HandlerClause.kind _ <;> rw [clause] at kind <;> cases kind
  | cleanup isProtected own isFinally =>
    cases top
    cases isFinally.symm.trans kind
  | @group parts head entry clauses own kind' exits listed =>
    generalize made : flow.tryBodyCode _ _ _ _ ++ _ = inner at top subset
    cases top
    obtain ⟨block, handlers, children, first, heads, touching⟩ :=
      exists_handlers made (at'.within head inner)
    rw [← own] at found exits first
    rw [← listed, ← own] at heads
    exact ⟨_, reads_methodTree.family (subset rfl), .inr ⟨parts, block, handlers, found, exits,
      children, first, heads, touching⟩⟩

/-- The regions of a method are protected blocks and their handlers. -/
theorem regular_methodTree : (flow.methodTree config root).Regular where
  toNested := (accepted.methodFormed config member).nested reads_methodTree
  guarded := (accepted.methodFormed config member).guarded reads_methodTree
  caught := (accepted.methodFormed config member).caught reads_methodTree
  grouped := by
    intro region mem kind
    obtain ⟨children, family, free | ⟨parts, block, handlers, -, -, same, first, heads, touching⟩⟩ :=
      accepted.exists_catches member mem kind
    · exact ⟨children, family, .inl free⟩
    · exact ⟨children, family, .inr ⟨block, handlers, same, congrArg (·.kind) first,
        handlers_of_heads touching heads⟩⟩

/-- A catch handler comes from the catch clause of its `try` that its clause number names. -/
theorem catches_methodTree {group region : Region}
    (mem : group ∈ (flow.methodTree config root).regions) (isTry : group.kind = .tryBlock)
    (mem' : region ∈ (flow.methodTree config root).regions) (parent : region.parent = some group.id)
    (kind : region.kind = .catchBlock) : region.IsCatchOf flow.body group := by
  obtain ⟨children, family, cases⟩ := accepted.exists_catches member mem isTry
  have nested := (accepted.methodFormed config member).nested reads_methodTree
  have among := nested.mem_children family mem mem' parent
  rcases cases with free | ⟨parts, block, handlers, found, -, rfl, first, heads, -⟩
  · have := free region among
    rw [kind] at this
    cases this
  · rcases List.mem_cons.mp among with rfl | among
    · have block : region.kind = .tryBlock := congrArg (·.kind) first
      cases block.symm.trans kind
    · have listed : region.toRegionHead ∈
          parts.catches.zipIdx.flatMap (flow.catchHeads group.stmt) :=
        heads ▸ List.mem_map_of_mem among
      obtain ⟨⟨clause, place⟩, listed, made⟩ := List.mem_flatMap.mp listed
      obtain ⟨query, head⟩ := head_of_catchHeads made kind
      exact ⟨parts, clause, _, found, congrArg (·.catchInfo) head,
        List.mk_mem_zipIdx_iff_getElem?.mp listed, congrArg (·.stmt) head, rfl, rfl⟩

end Accepted
end Flow

namespace Config

/-- The clause table of a tree that is built has one clause for each catch, `finally` and `fault`
region, with the bounds, the type and the filter of the region. Of the clauses that protect an
offset, inner ones come before outer ones, and those of one group in the order of its catches. A
clause encloses another one if and only if the region of the other one is below the block that it
protects, and then it comes later. -/
theorem clauses_complete_in_order {draft : Draft} {body : Body} (made : draft.toBody = .ok body)
    {config : Config} {tree : RegionTree} (builds : config.Builds body tree) :
    (tree.clauses.map (·.region)).Perm ((tree.regions.filter (·.kind.hasClause)).map (·.id)) ∧
    (∀ clause ∈ tree.clauses, ∃ owner block region, tree.Describes clause owner block region ∧
      (region.kind = .catchBlock → region.IsCatchOf body owner)) ∧
    (∀ offset, (tree.clauses.filter (·.protectedSpan.covers offset)).Pairwise tree.Precedes) ∧
    ∀ (i j : Nat) first second, tree.clauses[i]? = some first → tree.clauses[j]? = some second →
      (∀ owner block region, tree.Describes first owner block region →
        (first.encloses second = true ↔ tree.Below block.id second.region)) ∧
      (first.encloses second = true → j < i) := by
  obtain ⟨flow, analysed⟩ := builds.exists_flow
  obtain ⟨accepted, rfl, root, member, rfl⟩ := builds.exists_root made analysed
  have regular := @Flow.Accepted.regular_methodTree flow config root accepted member
  refine ⟨regular.perm_clauses, fun clause listed ↦ ?_, regular.pairwise_covering,
    fun i j first second listed listed' ↦ ⟨fun owner block region entry ↦ ?_,
      regular.lt_of_encloses listed listed'⟩⟩
  · obtain ⟨owner, block, region, entry⟩ := regular.exists_entry listed
    refine ⟨owner, block, region, entry, fun kind ↦ ?_⟩
    rcases entry.caught_or_held with ⟨-, parent, isTry, -⟩ | ⟨-, held, -⟩
    · exact accepted.catches_methodTree member entry.owner_mem isTry entry.region_mem parent kind
    · rw [kind] at held
      cases held
  · obtain ⟨owner', block', region', entry'⟩ :=
      regular.exists_entry (List.mem_of_getElem? listed')
    exact entry.encloses_iff regular entry'

end Config

/-- A `throw` in a `try` with a filtered clause, a plain clause and a `finally`. -/
def Draft.sorting : Draft where
  statements := #[.throwException, .expression [], .expression [], .expression [],
    .tryCatchFinally ⟨0⟩ [⟨none, some [], none, ⟨1⟩⟩, ⟨none, none, none, ⟨2⟩⟩] ⟨3⟩]
  labelCount := 0
  localCount := 0
  root := ⟨4⟩

/-- The clauses of the catches come in their order, and the `finally` encloses both. -/
theorem Config.clauses_complete_in_order_sorting :
    ∃ body tree outer inner, Draft.sorting.toBody = .ok body ∧
      Config.default.build body = .ok tree ∧ tree.clauses.map (·.region) = [⟨5⟩, ⟨6⟩, ⟨1⟩] ∧
      tree.clauses.Pairwise tree.Precedes ∧
      tree.clauses[2]? = some outer ∧ tree.clauses[0]? = some inner ∧
      ∃ owner block region, tree.Describes outer owner block region ∧
        tree.Below block.id inner.region := by
  have sorts : Config.default.tests .sorting (fun _ tree ↦ decide
      (tree.clauses.map (·.region) = [⟨5⟩, ⟨6⟩, ⟨1⟩] ∧
        tree.clauses.filter (·.protectedSpan.covers 0) = tree.clauses ∧
        ∃ outer ∈ tree.clauses[2]?, ∃ inner ∈ tree.clauses[0]?,
          outer.encloses inner = true)) = true := by
    decide +kernel
  obtain ⟨body, flow, tree, made, analysed, built, holds⟩ := exists_built sorts
  obtain ⟨regions, covering, outer, listed, inner, listed', encloses⟩ := of_decide_eq_true holds
  obtain ⟨-, describes, ordered, nested⟩ := clauses_complete_in_order made (.outer built)
  have ordered := ordered 0
  rw [covering] at ordered
  obtain ⟨owner, block, region, entry, -⟩ := describes outer (List.mem_of_getElem? listed)
  exact ⟨body, tree, outer, inner, made, built, regions, ordered, listed, listed', owner, block,
    region, entry, ((nested 2 0 outer inner listed listed').1 _ _ _ entry).mp encloses⟩

end ProtectedRegions
