import ProtectedRegions.Proofs.Lowering.Built
import ProtectedRegions.Proofs.Lowering.Pieces

/-!
# Simple statements

Jumps and rethrows are laid out as one instruction each. The code of a scope has the instruction of
such a statement if the statement runs in the scope, and a region covers it if the code of the
region has it.
-/

namespace ProtectedRegions

namespace Code

/-- The statements that instructions are made for. -/
def sources (code : Code) : List StmtId := code.instrs.map (·.1)

theorem sources_append (first second : Code) :
    (first ++ second).sources = first.sources ++ second.sources :=
  List.map_append

theorem sources_region (head : RegionHead) (inner : Code) :
    (region head inner).sources = inner.sources := rfl

theorem sources_handled (head : RegionHead) (inner handler : Code) :
    (handled head inner handler).sources = inner.sources ++ handler.sources :=
  List.map_append

/-- The sources of code in sequence. -/
theorem sources_concat (parts : List Code) : (concat parts).sources = parts.flatMap sources := by
  induction parts with
  | nil => rfl
  | cons first rest ih =>
    rw [concat_cons, List.flatMap_cons, ← ih]
    exact sources_append first (concat rest)

/-- Events are no instructions. -/
theorem sources_notes (events : List Event) : (notes events).sources = [] := by
  rw [notes, sources_concat, List.flatMap_map]
  exact List.flatMap_eq_nil_iff.mpr fun _ _ ↦ rfl

/-- What stands somewhere among the tokens is a source. -/
theorem mem_sources {code : Code} {place : Place} {source : StmtId} :
    source ∈ code.sources ↔
      ∃ operation at', (.instr source operation, at') ∈ code.tokens place := by
  simp [sources, @mem_instrs _ place]

end Code

namespace Flow

variable {flow : Flow} {config : Config} {root : StmtId}

/-- A statement that creates no closure and is laid out as one instruction, whatever scopes it
lies in. -/
def IsSimple (flow : Flow) (config : Config) (stmt : StmtId) : Prop :=
  ∃ shape, flow.body.get? stmt = some shape ∧ shape.isLambda = false ∧ ∀ scopes, ∃ operation,
    flow.shapeCode config (flow.emit config) scopes stmt shape = .instr stmt operation

/-- A rethrow is simple. -/
theorem IsSimple.of_rethrow {stmt : StmtId} (found : flow.body.get? stmt = some .rethrow) :
    flow.IsSimple config stmt := ⟨_, found, rfl, fun _ ↦ ⟨_, rfl⟩⟩

/-- A jump is simple, as it has a target. -/
theorem Accepted.isSimple_of_jump (accepted : flow.Accepted) {jump : StmtId} {form : Jump}
    (found : flow.body.get? jump = some (.jump form)) : flow.IsSimple config jump := by
  refine ⟨_, found, rfl, fun scopes ↦ ?_⟩
  obtain ⟨route, routed⟩ := accepted.exists_routed found
  have resolved := accepted.target?_eq_some.mpr ⟨form, route, found, routed, rfl⟩
  rcases flow.jumpCode_eq jump scopes with ⟨none, -⟩ | ⟨target, operation, -, -, code⟩
  · rw [resolved] at none
    cases none
  · exact ⟨operation, code⟩

namespace IsSimple

variable {stmt : StmtId} (simple : flow.IsSimple config stmt) (tree : flow.body.IsTree)

include simple

theorem has : flow.body.has stmt = true := by
  obtain ⟨shape, found, -⟩ := simple
  exact Body.has_iff_get?.mpr ⟨shape, found⟩

theorem isLambda : flow.body.isLambda stmt = false := by
  obtain ⟨shape, found, plain, -⟩ := simple
  rw [Body.isLambda, found]
  exact plain

include tree

/-- The code of a scope has an instruction for each simple statement of the method in it. -/
theorem mem_sources_emit {scope : StmtId} (has : flow.body.has scope = true)
    (scopes : List StmtId) :
    stmt ∈ (flow.emit config scope scopes).sources ↔ stmt ∈ flow.body.inMethod scope := by
  revert scopes
  refine tree.inductionUp (motive := fun scope ↦ ∀ scopes,
    stmt ∈ (flow.emit config scope scopes).sources ↔ stmt ∈ flow.body.inMethod scope)
    (fun scope shape shaped ih scopes ↦ ?_) has
  have same := emit_eq config tree shaped scopes
  rw [tree.mem_inMethod_step (Body.has_iff_get?.mpr ⟨_, shaped⟩), same]
  show stmt ∈ (flow.template config scopes scope shape).sources ↔ _
  rw [@Code.mem_sources _ ⟨0, 0, []⟩]
  constructor
  · rintro ⟨operation, at', token⟩
    rcases Code.mem_tokens_iff.mp token with own | ⟨part, listed, inside⟩
    · obtain ⟨rfl, -⟩ := forall_own_template config tree shaped scopes _ _ own
      exact ⟨simple.isLambda, .inl rfl⟩
    · obtain ⟨scopes', nests⟩ := nests_template tree shaped scopes _ part listed
      obtain ⟨child, open'⟩ := mem_children_of_nested tree shaped listed
      refine ⟨open', .inr ⟨part.stmt, child, ?_⟩⟩
      rw [Body.children_of_get? shaped] at child
      rw [← ih part.stmt child scopes', nests.code]
      exact Code.mem_sources.mpr ⟨operation, at', inside⟩
  · rintro ⟨open', rfl | ⟨child, member, listed⟩⟩
    · obtain ⟨shape', found, -, codes⟩ := simple
      cases shaped.symm.trans found
      obtain ⟨operation, code⟩ := codes scopes
      rw [← Code.mem_sources, template, Code.sources_append, List.mem_append, code]
      exact .inr (List.mem_singleton_self _)
    · obtain ⟨part, nested, rfl⟩ := exists_nested config tree shaped member open' scopes ⟨0, 0, []⟩
      obtain ⟨scopes', nests⟩ := nests_template tree shaped scopes _ part nested
      rw [Body.children_of_get? shaped] at member
      rw [← ih part.stmt member scopes', nests.code, @Code.mem_sources _ part.place] at listed
      obtain ⟨operation, at', token⟩ := listed
      exact ⟨operation, at', Code.tokens_nested nested token⟩

/-- An exit instruction is made for another statement. -/
theorem mem_sources_scope {part owner : StmtId} (has : flow.body.has part = true)
    (other : stmt ≠ owner) (condition : Bool) (operation : Instruction LabelKey)
    (scopes : List StmtId) :
    stmt ∈ (flow.emit config part scopes ++
        Code.onlyIf condition (.instr owner operation)).sources ↔
      stmt ∈ flow.body.inMethod part := by
  rw [Code.sources_append, List.mem_append, simple.mem_sources_emit tree has]
  cases condition <;> simp [Code.onlyIf, Code.sources, Code.instrs, other]

/-- A simple statement of the method has an instruction. -/
theorem exists_instr (rooted : flow.body.has root = true)
    (own : flow.body.methodOf root = root) (within : flow.body.methodOf stmt = root)
    (start : Place) :
    ∃ operation at', (.instr stmt operation, at') ∈ (flow.emit config root []).tokens start := by
  rw [← Code.mem_sources, simple.mem_sources_emit tree rooted, tree.mem_inMethod rooted simple.has,
    within, own]
  exact ⟨within ▸ (tree.methodOf_spec simple.has).2, rfl, simple.isLambda⟩

variable (rooted : flow.body.has root = true)

include rooted

/-- The instruction of a simple statement stands where the statement is laid out. -/
theorem exists_laid {start at' : Place} {operation : Instruction LabelKey}
    (token : (.instr stmt operation, at') ∈ (flow.emit config root []).tokens start) :
    ∃ scopes shape, flow.Laid config root start stmt scopes at' ∧
      flow.body.get? stmt = some shape ∧
      flow.shapeCode config (flow.emit config) scopes stmt shape = .instr stmt operation := by
  obtain ⟨other, scopes, place, shape, laid, shaped, own⟩ :=
    exists_own tree rooted token (by simp)
  obtain ⟨rfl, -⟩ := forall_own_template config tree shaped scopes place _ own
  obtain ⟨shape', found, -, codes⟩ := simple
  cases shaped.symm.trans found
  obtain ⟨operation', code⟩ := codes scopes
  rw [own_template, code] at own
  cases List.mem_singleton.mp own
  exact ⟨scopes, shape, laid, shaped, code⟩

/-- A simple statement of the method has one instruction. -/
theorem place_unique {start at' at'' : Place} {operation operation' : Instruction LabelKey}
    (token : (.instr stmt operation, at') ∈ (flow.emit config root []).tokens start)
    (token' : (.instr stmt operation', at'') ∈ (flow.emit config root []).tokens start) :
    at' = at'' := by
  obtain ⟨scopes, shape, laid, -⟩ := simple.exists_laid tree rooted token
  obtain ⟨scopes', shape', laid', -⟩ := simple.exists_laid tree rooted token'
  exact laid.place_unique tree rooted laid'

/-- The one instruction of a simple statement among those of the method. -/
theorem getElem?_instrs {start at' : Place} {operation operation' : Instruction LabelKey}
    (token : (.instr stmt operation, at') ∈ (flow.emit config root []).tokens start)
    {index : Nat} : (flow.emit config root []).instrs[index]? = some (stmt, operation') ↔
      start.offset + index = at'.offset ∧ operation' = operation := by
  rw [@Code.getElem?_instrs _ start]
  constructor
  · rintro ⟨at'', token', same⟩
    obtain rfl := simple.place_unique tree rooted token' token
    obtain ⟨-, rfl, -⟩ := Code.instr_unique token' token rfl
    exact ⟨same.symm, rfl⟩
  · rintro ⟨same, rfl⟩
    exact ⟨at', token, same.symm⟩

/-- A region covers the instruction of a simple statement if its code has an instruction for the
statement. -/
theorem covers_iff_mem_sources {start at' place : Place} {operation : Instruction LabelKey}
    (token : (.instr stmt operation, at') ∈ (flow.emit config root []).tokens start)
    {piece : Code} {region : Region}
    (subset : piece.tokens place ⊆ (flow.emit config root []).tokens start)
    (spans : region.span.start = place.offset ∧ region.span.stop = place.offset + piece.size) :
    region.span.covers at'.offset = true ↔ stmt ∈ piece.sources := by
  rw [Span.covers_iff, spans.1, spans.2, @Code.mem_sources _ place]
  constructor
  · rintro ⟨first, last⟩
    have lt : at'.offset - place.offset < piece.instrs.length := by
      rw [Code.length_instrs]
      omega
    obtain ⟨at'', token', offset⟩ := Code.getElem?_instrs.mp (List.getElem?_eq_getElem lt)
    obtain ⟨rfl, rfl, rfl⟩ := Code.instr_unique token (subset token') (by omega)
    exact ⟨_, _, token'⟩
  · rintro ⟨operation', at'', token'⟩
    rw [simple.place_unique tree rooted token (subset token')]
    have := Code.offset_mem_tokens token'
    simp only [Token.width] at this
    omega

end IsSimple
end Flow
end ProtectedRegions
