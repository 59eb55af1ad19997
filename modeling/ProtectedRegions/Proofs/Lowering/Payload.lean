import ProtectedRegions.Proofs.Body.Document
import ProtectedRegions.Proofs.Lowering.Built
import ProtectedRegions.Proofs.Lowering.Shown

/-!
# The payload of a method

Layout adds transfers of control and cleanups to the instructions that stand for statements, and
does nothing else: what is left without them is the payload of the method in document order. The
filter of a catch clause stands right before the handler body that it guards.
-/

namespace ProtectedRegions

namespace Instruction

/-- Whether an instruction stands for a part of the source, and is neither a transfer of control
nor a cleanup. -/
def isPayload {τ : Type} : Instruction τ → Bool
  | .code _ | .closure _ | .filter .. | .throwException | .rethrow => true
  | _ => false

/-- An instruction that stands for a part of the source. It has no targets. -/
def payload? {τ υ : Type} : Instruction τ → Option (Instruction υ)
  | .code stmt => some (.code stmt)
  | .closure stmt => some (.closure stmt)
  | .filter stmt place => some (.filter stmt place)
  | .throwException => some .throwException
  | .rethrow => some .rethrow
  | _ => none

/-- The clause of a filter. -/
def filter? {τ : Type} : Instruction τ → Option (StmtId × Nat)
  | .filter stmt place => some (stmt, place)
  | _ => none

/-- Linking keeps the instructions that stand for parts of the source. -/
theorem filter_mapTargets {τ υ : Type} (f : τ → υ) (instrs : List (Instruction τ)) :
    (instrs.map (·.mapTargets f)).filter isPayload = instrs.filterMap payload? := by
  induction instrs with
  | nil => rfl
  | cons instr rest ih =>
    rw [List.map_cons, List.filter_cons, List.filterMap_cons, ih]
    cases instr <;> rfl

/-- Linking keeps the filters. -/
theorem mapTargets_eq_filter {τ υ : Type} {f : τ → υ} {instr : Instruction τ} {stmt : StmtId}
    {place : Nat} : instr.mapTargets f = .filter stmt place ↔ instr = .filter stmt place := by
  cases instr <;> simp [mapTargets, mapTargetsM]

end Instruction

namespace Code

/-- The payload of code with its targets replaced is what the code shows of it. -/
theorem filter_map_instrs (code : Code) (f : LabelKey → Nat) :
    (code.instrs.map (·.2.mapTargets f)).filter Instruction.isPayload =
      code.shown Instruction.payload? := by
  have instrs : code.instrs.map (·.2.mapTargets f) =
      (code.instrs.map (·.2)).map (·.mapTargets f) := by
    rw [List.map_map]
    rfl
  rw [instrs, Instruction.filter_mapTargets, List.filterMap_map]
  rfl

/-- The filters that code shows are those of its payload. -/
theorem filterMap_shown_payload? (code : Code) :
    (code.shown (Instruction.payload? (υ := Nat))).filterMap Instruction.filter? =
      code.shown Instruction.filter? := by
  rw [shown, List.filterMap_filterMap]
  apply List.filterMap_congr
  rintro ⟨_, operation⟩ -
  cases operation <;> rfl

/-- What stands in one of several parts stands in all of them in sequence. -/
theorem exists_tokens_concat {parts : List Code} {part : Code} (mem : part ∈ parts)
    (place : Place) : ∃ at', part.tokens at' ⊆ (concat parts).tokens place := by
  induction parts generalizing place with
  | nil => cases mem
  | cons first rest ih =>
    rcases List.mem_cons.mp mem with rfl | mem
    · exact ⟨place, fun _ ↦ List.mem_append_left _⟩
    · obtain ⟨at', within⟩ := ih mem (place.after first)
      exact ⟨at', fun _ token ↦ List.mem_append_right _ (within token)⟩

/-- The instructions of code inside other code are a piece of the instructions of the latter. -/
theorem take_drop_instrs {part code : Code} {place at' : Place}
    (le : place.offset ≤ at'.offset) (within : part.tokens at' ⊆ code.tokens place) :
    (code.instrs.drop (at'.offset - place.offset)).take part.size = part.instrs := by
  apply List.ext_getElem?
  intro index
  rcases Nat.lt_or_ge index part.size with lt | ge
  · rw [List.getElem?_take_of_lt lt, List.getElem?_drop]
    obtain ⟨⟨source, operation⟩, found⟩ : ∃ entry, part.instrs[index]? = some entry :=
      ⟨_, List.getElem?_eq_getElem (by rwa [length_instrs])⟩
    obtain ⟨place', token, offset⟩ := (@getElem?_instrs part at' _ _ _).mp found
    rw [found]
    exact getElem?_instrs.mpr ⟨place', within token, by omega⟩
  · rw [List.getElem?_take_eq_none ge, List.getElem?_eq_none (by rwa [length_instrs])]

end Code

namespace Flow

variable {flow : Flow} {config : Config} {root : StmtId}

/-- The payload is no transfer of control. -/
theorem hidesTransfers_payload? :
    HidesTransfers (Instruction.payload? (τ := LabelKey) (υ := Nat)) where
  branch _ := rfl
  branchIf _ := rfl
  switch _ := rfl
  leave _ := rfl
  ret := rfl
  endFilter := rfl
  endFinally := rfl

/-- Only the body of a catch clause has a filter in front. -/
theorem filterOf?_eq_none (tree : flow.body.IsTree) {stmt child : StmtId} {shape : Statement}
    (found : flow.body.get? stmt = some shape) (mem : child ∈ shape.children)
    (other : ∀ parts, shape = .tryBlock parts → ∀ clause ∈ parts.catches, clause.body ≠ child) :
    flow.body.filterOf? child = none := by
  cases listed : flow.body.filterOf? child with
  | none => rfl
  | some instr =>
    obtain ⟨owner, parts, place, clause, shaped, clauseFound, -, rfl, -⟩ :=
      tree.filterOf?_eq_some.mp listed
    have outer := tree.parent?_of_catch shaped clauseFound
    have outer' := tree.parent?_eq_some.mpr (Body.mem_children_of_get? found mem)
    cases outer.symm.trans outer'
    cases shaped.symm.trans found
    exact absurd rfl (other parts rfl clause (List.mem_of_getElem? clauseFound))

/-- What the clauses of a `try` show, each behind its own filter. -/
private theorem payload_catches (tree : flow.body.IsTree) {stmt : StmtId} {parts : TryStatement}
    (found : flow.body.get? stmt = some (.tryBlock parts))
    (below : StmtId → List (Instruction Nat)) :
    (parts.catches.zipIdx.flatMap fun (clause, place) ↦
      (if clause.isFiltered then (Instruction.payload? (τ := LabelKey) (.filter stmt place)).toList
        else []) ++ below clause.body) =
      (parts.catches.map (·.body)).flatMap fun child ↦
        (flow.body.filterOf? child).toList ++ below child := by
  conv_rhs => rw [← List.zipIdx_map_fst 0 parts.catches, List.map_map, List.flatMap_map]
  apply List.flatMap_congr
  rintro ⟨clause, place⟩ mem
  rw [Function.comp, tree.filterOf?_catch found (List.mem_zipIdx_iff_getElem?.mp mem)]
  cases filtered : clause.isFiltered <;> simp [filtered, Instruction.payload?]

/-- What the parts of a `try` show, each behind its own filter. -/
private theorem payload_tryBlock (tree : flow.body.IsTree) {stmt : StmtId} {parts : TryStatement}
    (found : flow.body.get? stmt = some (.tryBlock parts))
    (below : StmtId → List (Instruction Nat)) :
    flow.shownShape config Instruction.payload? below stmt (.tryBlock parts) =
      (Statement.tryBlock parts).children.flatMap fun child ↦
        (flow.body.filterOf? child).toList ++ below child := by
  have nodup := tree.nodup_children stmt
  rw [Body.children_of_get? found, Statement.children, TryStatement.protectedParts,
    List.cons_append, List.nodup_cons, List.nodup_append] at nodup
  obtain ⟨notBody, -, -, apart⟩ := nodup
  have clauseBody {clause : CatchClause} (mem : clause ∈ parts.catches) :
      clause.body ∈ parts.catches.map (·.body) := List.mem_map_of_mem mem
  have first : flow.body.filterOf? parts.body = none := by
    refine filterOf?_eq_none tree found (List.mem_append_left _ List.mem_cons_self) ?_
    rintro _ ⟨⟩ clause mem same
    exact notBody (List.mem_append_left _ (same ▸ clauseBody mem))
  have last {clause : HandlerClause} (handler : parts.handler = some clause) :
      flow.body.filterOf? clause.body = none := by
    refine filterOf?_eq_none tree found (by simp [Statement.children, handler]) ?_
    rintro _ ⟨⟩ clause' mem same
    exact apart _ (clauseBody mem) _ (by simp [handler]) same
  rw [shownShape, payload_catches tree found]
  cases handler : parts.handler with
  | none => simp [Statement.children, TryStatement.protectedParts, handler, first]
  | some clause =>
    simp [Statement.children, TryStatement.protectedParts, handler, first, last handler]

/-- What is shown of a shape is its own payload and what its children show, each behind its own
filter. -/
theorem shownShape_payload? (tree : flow.body.IsTree) {stmt : StmtId} {shape : Statement}
    (found : flow.body.get? stmt = some shape) (below : StmtId → List (Instruction Nat)) :
    flow.shownShape config Instruction.payload? below stmt shape =
      (shape.payload? stmt).toList ++ if shape.isLambda then [] else
        shape.children.flatMap fun child ↦ (flow.body.filterOf? child).toList ++ below child := by
  have plain (other : ∀ parts, shape ≠ .tryBlock parts) :
      (shape.children.flatMap fun child ↦ (flow.body.filterOf? child).toList ++ below child) =
        shape.children.flatMap below := by
    apply List.flatMap_congr
    intro child mem
    rw [filterOf?_eq_none tree found mem fun parts same ↦ (other parts same).elim]
    rfl
  cases shape with
  | tryBlock parts => exact payload_tryBlock tree found below
  | lambda => rfl
  | expression | throwException | rethrow => rfl
  | synthetic kind body =>
    rw [plain fun _ same ↦ by cases same]
    simp [shownShape, Statement.payload?, Statement.isLambda, Statement.children,
      Instruction.payload?]
  | block | conditional | labeled | jump | loop | switch =>
    rw [plain fun _ same ↦ by cases same]
    rfl

/-- What is shown of a scope, behind the filter of the scope, is its payload. -/
theorem shown_payload? (config : Config) (tree : flow.body.IsTree) {scope : StmtId}
    (has : flow.body.has scope = true) (scopes : List StmtId) :
    (flow.body.payload scope).map (·.2) =
      (flow.body.filterOf? scope).toList ++
        (flow.emit config scope scopes).shown Instruction.payload? := by
  revert scopes
  refine tree.inductionUp (motive := fun scope ↦ ∀ scopes, (flow.body.payload scope).map (·.2) =
      (flow.body.filterOf? scope).toList ++
        (flow.emit config scope scopes).shown Instruction.payload?) ?_ has
  intro scope shape found ih scopes
  have has := Body.has_iff_get?.mpr ⟨shape, found⟩
  have lambda : flow.body.isLambda scope = shape.isLambda := by
    rw [Body.isLambda, found, Option.any_some]
  have own : (((flow.body.payloadOf scope).map (scope, ·)).map (·.2)) =
      (flow.body.filterOf? scope).toList ++ (shape.payload? scope).toList := by
    rw [List.map_map, Body.payloadOf, found]
    exact List.map_id _
  rw [tree.payload_eq has, shown_emit hidesTransfers_payload? config tree found,
    shownShape_payload? tree found, List.map_append, own, lambda, List.append_assoc]
  congr 2
  split
  · rfl
  · rw [List.map_flatMap, Body.children_of_get? found]
    exact List.flatMap_congr fun child mem ↦ ih child mem []

/-- The instructions of a method that stand for parts of the source are its payload. -/
theorem filter_methodTree (config : Config) (tree : flow.body.IsTree)
    (member : root ∈ flow.body.methods) :
    (flow.methodTree config root).instructions.filter Instruction.isPayload =
      (flow.body.payload root).map (·.2) := by
  have free : flow.body.filterOf? root = none := by
    cases listed : flow.body.filterOf? root with
    | none => rfl
    | some instr =>
      obtain ⟨owner, parts, place, clause, shaped, found, -, rfl, -⟩ :=
        tree.filterOf?_eq_some.mp listed
      have role := tree.role?_eq_some.mpr (.catchBody shaped found rfl)
      have plain := tree.not_protected_of_mem_methods member
      simp [role, Role.isProtected] at plain
  rw [shown_payload? config tree (tree.has_of_mem_methods member) [], free, methodTree,
    Code.linked, Code.filter_map_instrs, methodCode, Code.shown_append,
    shown_epilogue hidesTransfers_payload?, List.append_nil]
  rfl

/-! ### Filters -/

/-- A filter stands at one place. -/
theorem filter_unique (tree : flow.body.IsTree) (member : root ∈ flow.body.methods)
    {source source' stmt : StmtId} {clause : Nat} {place at' at'' : Place}
    (token : (.instr source (.filter stmt clause), at') ∈
      (flow.methodCode config root).tokens place)
    (token' : (.instr source' (.filter stmt clause), at'') ∈
      (flow.methodCode config root).tokens place) : at' = at'' := by
  have nodup : ((flow.methodCode config root).shown Instruction.filter?).Nodup := by
    obtain ⟨once, shows⟩ := tree.payload_spec (tree.has_of_mem_methods member)
    have filters := filter_methodTree config tree member
    rw [methodTree, Code.linked, Code.filter_map_instrs] at filters
    rw [← Code.filterMap_shown_payload?, filters, List.filterMap_map, List.Nodup,
      List.pairwise_filterMap]
    refine once.imp_of_mem fun {entry entry'} mem mem' different ↦ ?_
    rintro key found _ found' rfl
    -- Both stand in the place of the body of the clause.
    apply different
    obtain ⟨first, instr⟩ := entry
    obtain ⟨second, instr'⟩ := entry'
    have first := ((shows _ _).mp mem).2
    have second := ((shows _ _).mp mem').2
    cases instr <;> cases found
    cases instr' <;> cases found'
    cases first with
    | filter shaped clause =>
      cases second with
      | filter shaped' clause' =>
        cases shaped.symm.trans shaped'
        cases clause.symm.trans clause'
        rfl
  rw [← Code.filterMap_shown _ place] at nodup
  exact congrArg Prod.snd (eq_of_nodup_filterMap nodup token token' rfl rfl)

/-- The code of a clause is one of the parts of the group of its `try`. -/
private theorem mem_catchCodes (flow : Flow) (config : Config) (scopes : List StmtId)
    (stmt : StmtId) {parts : TryStatement} {index : Nat} {clause : CatchClause}
    (found : parts.catches[index]? = some clause) :
    flow.catchCode (flow.emit config) scopes stmt index clause ∈
      parts.catches.zipIdx.map fun (clause, place) ↦
        flow.catchCode (flow.emit config) scopes stmt place clause :=
  List.mem_map.mpr ⟨(clause, index), List.mem_zipIdx_iff_getElem?.mpr found, rfl⟩

/-- The code of a clause stands in the code of the group of its `try`. -/
private theorem exists_tokens_groupCode (flow : Flow) (config : Config) (scopes : List StmtId)
    (stmt : StmtId) (place : Place) {parts : TryStatement} {index : Nat} {clause : CatchClause}
    (found : parts.catches[index]? = some clause) :
    ∃ at', (flow.catchCode (flow.emit config) scopes stmt index clause).tokens at' ⊆
      (flow.groupCode (flow.emit config) scopes stmt parts).tokens place := by
  have some : ¬ parts.catches.isEmpty = true := by
    intro none
    rw [List.isEmpty_iff.mp none] at found
    cases found
  rw [groupCode, if_neg some]
  obtain ⟨at', within⟩ := Code.exists_tokens_concat (mem_catchCodes flow config scopes stmt found) _
  refine ⟨at', fun _ token ↦ List.mem_append_left _ (List.mem_cons_of_mem _ ?_)⟩
  exact List.mem_append_right _ (within token)

/-- The code of a clause stands in the code of its `try`. -/
theorem exists_tokens_catchCode (flow : Flow) (config : Config) (scopes : List StmtId)
    (stmt : StmtId) (place : Place) {parts : TryStatement} {index : Nat} {clause : CatchClause}
    (found : parts.catches[index]? = some clause) :
    ∃ at', (flow.catchCode (flow.emit config) scopes stmt index clause).tokens at' ⊆
      (flow.template config scopes stmt (.tryBlock parts)).tokens place := by
  have group (place : Place) := exists_tokens_groupCode flow config scopes stmt place found
  rw [template, shapeCode, tryCode]
  cases parts.handler with
  | none =>
    obtain ⟨at', within⟩ := group _
    refine ⟨at', fun _ token ↦ List.mem_append_right _ (List.mem_append_left _ (within token))⟩
  | some handler =>
    obtain ⟨at', within⟩ := group _
    refine ⟨at', fun _ token ↦ List.mem_append_right _ (List.mem_append_left _
      (List.mem_append_left _ (List.mem_cons_of_mem _ (List.mem_append_left _ (within token)))))⟩

end Flow

/-- How a filtered clause is laid out: its filter, the end of the filter, and the region of the
handler body, which holds what stands for that body and nothing else. -/
structure RegionTree.Filters (tree : RegionTree) (body : Body) (stmt : StmtId) (place : Nat)
    (clause : CatchClause) (region : Region) (start : Nat) : Prop where
  filter {offset : Nat} : tree.instructions[offset]? = some (.filter stmt place) ↔ offset = start
  finish : tree.instructions[start + 1]? = some .endFilter
  found : tree.region? region.id = some region
  handler : region.kind = .catchBlock ∧ region.stmt = clause.body
  behind : region.span.start = start + 2
  payload : ((tree.instructions.drop start).take (region.span.stop - start)).filter
    Instruction.isPayload = (body.payload clause.body).map (·.2)

namespace Flow

variable {flow : Flow} {config : Config} {root : StmtId}

/-- The code of a filtered clause: the region of the filter before that of the handler body. -/
theorem catchCode_filtered (flow : Flow) (emit : Emitter) (scopes : List StmtId) (stmt : StmtId)
    (index : Nat) {clause : CatchClause} (filtered : clause.isFiltered = true) :
    ∃ head head' events, flow.catchCode emit scopes stmt index clause =
        .region head (.instr stmt (.filter stmt index) ++ .instr stmt .endFilter) ++
          .region head' (flow.protectedCode emit scopes stmt clause.body) ++ .notes events ∧
      head'.kind = .catchBlock ∧ head'.stmt = clause.body := by
  rw [catchCode, filtered, Code.onlyIf_true]
  exact ⟨_, _, _, rfl, rfl, rfl⟩

/-- What is shown of the code of a filtered clause is the payload of its body. -/
theorem shown_filtered (config : Config) (tree : flow.body.IsTree) (scopes : List StmtId)
    {stmt : StmtId} {parts : TryStatement} {index : Nat} {clause : CatchClause}
    (shaped : flow.body.get? stmt = some (.tryBlock parts))
    (found : parts.catches[index]? = some clause) (filtered : clause.isFiltered = true) :
    (flow.catchCode (flow.emit config) scopes stmt index clause).shown Instruction.payload? =
      (flow.body.payload clause.body).map (·.2) := by
  obtain ⟨head, head', events, code, -⟩ :=
    flow.catchCode_filtered (flow.emit config) scopes stmt index filtered
  have child := tree.parent?_eq_some.mp (tree.parent?_of_catch shaped found)
  rw [shown_payload? config tree (tree.has_child child) (clause.body :: scopes),
    tree.filterOf?_catch shaped found, if_pos filtered, code]
  simp [protectedCode, Instruction.payload?]

/-- A filtered clause of a method is laid out as one. -/
theorem Accepted.exists_filters (accepted : flow.Accepted) (config : Config)
    (member : root ∈ flow.body.methods) {stmt : StmtId} {parts : TryStatement} {index : Nat}
    {clause : CatchClause} (shaped : flow.body.get? stmt = some (.tryBlock parts))
    (found : parts.catches[index]? = some clause) (filtered : clause.isFiltered = true)
    (own : flow.body.methodOf stmt = root) :
    ∃ region start, (flow.methodTree config root).Filters flow.body stmt index clause region
      start := by
  have tree := accepted.wellFormed.toIsTree
  have rooted := tree.has_of_mem_methods member
  have has := Body.has_iff_get?.mpr ⟨_, shaped⟩
  obtain ⟨scopes, place, laid⟩ := Laid.exists_place config (flow.methodPlace config root) tree
    (own ▸ (tree.methodOf_spec has).2) has (by rw [own, tree.methodOf_of_mem_methods member])
  obtain ⟨at', within⟩ := flow.exists_tokens_catchCode config scopes stmt place found
  have inMethod : (flow.catchCode (flow.emit config) scopes stmt index clause).tokens at' ⊆
      (flow.methodCode config root).tokens (flow.methodPlace config root) := by
    intro entry token
    refine tokens_methodCode (laid.tokens_subset tree ?_)
    rw [emit_eq config tree shaped]
    exact List.mem_cons_of_mem _ (List.mem_append_left _ (within token))
  have piece := Code.take_drop_instrs (Nat.zero_le at'.offset) inMethod
  have shown := flow.shown_filtered config tree scopes shaped found filtered
  obtain ⟨head, head', events, code, kind, part⟩ :=
    flow.catchCode_filtered (flow.emit config) scopes stmt index filtered
  rw [code] at inMethod piece shown
  have filters := @inMethod (.instr stmt (.filter stmt index), _)
    (List.mem_append_left _ (List.mem_append_left _ (List.mem_cons_of_mem _ List.mem_cons_self)))
  have ends := @inMethod (.instr stmt .endFilter, _)
    (List.mem_append_left _ (List.mem_append_left _
      (List.mem_cons_of_mem _ (List.mem_cons_of_mem _ List.mem_cons_self))))
  have opens := @inMethod (.opens _, _)
    (List.mem_append_left _ (List.mem_append_right _ List.mem_cons_self))
  refine ⟨_, at'.offset, {
    filter := ?_
    finish := getElem?_methodTree.mpr ⟨stmt, .endFilter, _, ends, rfl, rfl⟩
    found := region?_methodTree opens
    handler := ⟨kind, part⟩
    behind := rfl
    payload := ?_ }⟩
  · intro offset
    rw [getElem?_methodTree]
    constructor
    · rintro ⟨source, operation, at'', token', rfl, same⟩
      rw [eq_comm, Instruction.mapTargets_eq_filter] at same
      subst same
      rw [filter_unique tree member token' filters]
      rfl
    · rintro rfl
      exact ⟨stmt, _, _, filters, rfl, rfl⟩
  · rw [← shown, ← Code.filter_map_instrs _ (flow.methodCode config root).offsetOf, ← piece,
      List.map_take, List.map_drop]
    congr 2
    rw [Code.size_append, Code.size_notes, Code.size_append]
    change at'.offset + 2 + Code.size _ - at'.offset = 2 + Code.size _ + 0
    rw [Nat.add_assoc, Nat.add_sub_cancel_left]
    rfl

end Flow
namespace Config

/-- The instructions of a tree that stand for parts of the source are, under every configuration,
those of the statements of its method in document order: what the shapes of the statements show,
each once, whether control can get there or not. A filter is followed by its end and then by the
region of the handler body that it guards. -/
theorem layout_keeps_payload {draft : Draft} {body : Body} (made : draft.toBody = .ok body)
    {config : Config} {tree : RegionTree} (builds : config.Builds body tree) :
    tree.instructions.filter Instruction.isPayload = (body.payload tree.method).map (·.2) ∧
    (body.payload tree.method).Nodup ∧
    (∀ stmt instr, (stmt, instr) ∈ body.payload tree.method ↔
      body.methodOf stmt = tree.method ∧ body.Shows stmt instr) ∧
    (∀ stmt parts index clause, body.get? stmt = some (.tryBlock parts) →
      parts.catches[index]? = some clause → clause.isFiltered = true →
      body.methodOf stmt = tree.method →
      ∃ region start, tree.Filters body stmt index clause region start) ∧
    ∀ (config' : Config) (tree' : RegionTree), config'.Builds body tree' →
      tree'.method = tree.method → tree'.instructions.filter Instruction.isPayload =
        tree.instructions.filter Instruction.isPayload := by
  obtain ⟨flow, analysed⟩ := builds.exists_flow
  obtain ⟨accepted, rfl, root, member, rfl⟩ := builds.exists_root made analysed
  have tree := accepted.wellFormed.toIsTree
  have rooted := tree.has_of_mem_methods member
  have own := Flow.filter_methodTree config tree member
  obtain ⟨nodup, shows⟩ := tree.payload_spec rooted
  refine ⟨own, nodup, fun stmt instr ↦ ?_, ?_, ?_⟩
  · have self := tree.methodOf_of_mem_methods member
    rw [show (flow.methodTree config root).method = root from rfl, shows, tree.mem_document rooted,
      self]
    refine and_congr_left fun shown ↦ and_iff_right_of_imp ?_
    rintro rfl
    exact (tree.methodOf_spec (tree.has_of_shows shown)).2
  · intro stmt parts index clause shaped found filtered within
    exact accepted.exists_filters config member shaped found filtered within
  · intro config' tree' builds' same
    obtain ⟨-, -, root', -, rfl⟩ := builds'.exists_root made analysed
    have same : root' = root := same
    subst same
    rw [own, Flow.filter_methodTree config' tree member]

end Config
/-- A `throw` before dead code with a lambda, in a `try` whose filtered clause rethrows. -/
def Draft.sifting : Draft where
  statements := #[.throwException, .expression [], .expression [], .lambda ⟨2⟩,
    .block [⟨0⟩, ⟨1⟩, ⟨3⟩], .rethrow, .tryCatch ⟨4⟩ [⟨none, some [], none, ⟨5⟩⟩]]
  labelCount := 0
  localCount := 0
  root := ⟨6⟩

/-- The dead code is laid out, the body of the lambda is not, and the filter guards the rethrow. -/
theorem Config.layout_keeps_payload_sifting :
    ∃ body tree, Draft.sifting.toBody = .ok body ∧ Config.default.build body = .ok tree ∧
      tree.instructions.filter Instruction.isPayload =
        [.throwException, .code ⟨1⟩, .closure ⟨3⟩, .filter ⟨6⟩ 0, .rethrow] ∧
      ∃ region start, tree.Filters body ⟨6⟩ 0 ⟨none, some [], none, ⟨5⟩⟩ region start := by
  have sifts : Config.default.tests .sifting (fun flow tree ↦ decide
      ((flow.body.payload tree.method).map (·.2) =
          [.throwException, .code ⟨1⟩, .closure ⟨3⟩, .filter ⟨6⟩ 0, .rethrow] ∧
        flow.body.get? ⟨6⟩ = some (.tryCatch ⟨4⟩ [⟨none, some [], none, ⟨5⟩⟩]) ∧
        flow.body.methodOf ⟨6⟩ = tree.method)) = true := by
    decide +kernel
  obtain ⟨body, flow, tree, made, analysed, built, holds⟩ := exists_built sifts
  obtain ⟨shown, shaped, own⟩ := of_decide_eq_true holds
  obtain ⟨-, -, same⟩ := Config.checks_iff made analysed
  rw [same] at shown shaped own
  obtain ⟨payload, -, -, filters, -⟩ := layout_keeps_payload made (.outer built)
  exact ⟨body, tree, made, built, payload.trans shown, filters _ _ 0 _ shaped rfl rfl own⟩

end ProtectedRegions
