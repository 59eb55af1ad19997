import ProtectedRegions.Proofs.Code.Formed
import ProtectedRegions.Proofs.Lowering.Crossing

/-!
# Regions of statements

Each region in the code of a method belongs to one `try` or synthetic statement. What is in it is
the code of a protected part with an exit instruction, of a filter, of all the parts of a `try`, or
of these and a handler behind them.
-/

namespace ProtectedRegions

namespace Code

/-- The regions of code that belong to no statement inside it, each as a code of its own. -/
def ownRegions : Code → List Code
  | nothing | note _ | instr .. | mark _ | statement .. => []
  | append first second => first.ownRegions ++ second.ownRegions
  | region head inner => region head inner :: inner.ownRegions
  | handled head inner handler =>
    handled head inner handler :: (inner.ownRegions ++ handler.ownRegions)

/-- An own region starts at its token, and what is in it is in the code. -/
theorem exists_ownRegion {code : Code} {place at' : Place} {region : Region}
    (mem : (.opens region, at') ∈ code.own place) :
    ∃ piece ∈ code.ownRegions, piece.topRegions at' = [region] ∧
      piece.tokens at' ⊆ code.tokens place := by
  induction code generalizing place with
  | nothing | note | statement => cases mem
  | instr | mark => cases List.mem_singleton.mp mem
  | append first second ihFirst ihSecond =>
    rcases List.mem_append.mp mem with mem | mem
    · obtain ⟨piece, listed, top, subset⟩ := ihFirst mem
      exact ⟨piece, List.mem_append_left _ listed, top, List.subset_append_of_subset_left _ subset⟩
    · obtain ⟨piece, listed, top, subset⟩ := ihSecond mem
      exact ⟨piece, List.mem_append_right _ listed, top,
        List.subset_append_of_subset_right _ subset⟩
  | region head inner ih =>
    rcases List.mem_cons.mp mem with same | mem
    · cases same
      exact ⟨_, List.mem_cons_self, rfl, List.Subset.refl _⟩
    · obtain ⟨piece, listed, top, subset⟩ := ih mem
      exact ⟨piece, List.mem_cons_of_mem _ listed, top, List.subset_cons_of_subset _ subset⟩
  | handled head inner handler ihInner ihHandler =>
    rw [own, List.mem_cons, List.mem_append] at mem
    rcases mem with same | mem | mem
    · cases same
      exact ⟨_, List.mem_cons_self, rfl, List.Subset.refl _⟩
    · obtain ⟨piece, listed, top, subset⟩ := ihInner mem
      exact ⟨piece, List.mem_cons_of_mem _ (List.mem_append_left _ listed), top,
        List.subset_cons_of_subset _ (List.subset_append_of_subset_left _ subset)⟩
    · obtain ⟨piece, listed, top, subset⟩ := ihHandler mem
      exact ⟨piece, List.mem_cons_of_mem _ (List.mem_append_right _ listed), top,
        List.subset_cons_of_subset _ (List.subset_append_of_subset_right _ subset)⟩

end Code

namespace Flow

/-- The regions of a statement. -/
inductive Piece (flow : Flow) (config : Config) (scopes : List StmtId) (stmt : StmtId) :
    Statement → Code → Prop
  /-- The body of a `try` or of a catch clause. -/
  | part {parts : TryStatement} {part : StmtId} {head : RegionHead} {owner : Option StmtId}
      (mem : part ∈ parts.protectedParts) (own : head.stmt = part)
      (kind : head.kind = .tryBlock ∨ head.kind = .catchBlock)
      (exits : head.exits = flow.exits ⟨[part], part, stmt, owner⟩) :
      Piece flow config scopes stmt (.tryBlock parts)
        (.region head (flow.protectedCode (flow.emit config) scopes stmt part))
  | filter {parts : TryStatement} {head : RegionHead} {place : Nat}
      (kind : head.kind = .filterBlock) (exits : head.exits = []) :
      Piece flow config scopes stmt (.tryBlock parts)
        (.region head (.instr stmt (.filter stmt place) ++ .instr stmt .endFilter))
  /-- The body of a `try` together with its catch clauses. -/
  | group {parts : TryStatement} {head : RegionHead} {entry : CatchClause × Nat}
      {clauses : List (CatchClause × Nat)} (own : head.stmt = stmt) (kind : head.kind = .tryBlock)
      (exits : head.exits = flow.exits (.ofParts parts.protectedParts stmt stmt))
      (listed : parts.catches.zipIdx = entry :: clauses) :
      Piece flow config scopes stmt (.tryBlock parts)
        (.region head (flow.tryBodyCode (flow.emit config) scopes stmt parts.body ++
          .concat ((entry :: clauses).map fun (clause, place) ↦
            flow.catchCode (flow.emit config) scopes stmt place clause)))
  | handler {parts : TryStatement} {clause : HandlerClause} {head : RegionHead}
      (found : parts.handler = some clause) (own : head.stmt = stmt)
      (kind : head.kind = clause.kind.regionKind)
      (exits : head.exits = flow.exits (.ofParts parts.protectedParts stmt stmt)) :
      Piece flow config scopes stmt (.tryBlock parts)
        (.handled head (flow.groupCode (flow.emit config) scopes stmt parts)
          (flow.handlerCode (flow.emit config) scopes stmt clause.body))
  | cleanup {kind : SyntheticKind} {body : StmtId} {head inside : RegionHead}
      (guarded : (flow.decideCleanup config kind stmt body).isProtected = true)
      (own : head.stmt = stmt) (isFinally : head.kind = .finallyBlock)
      (exits : head.exits = flow.exits (.ofScope body stmt)) (same : inside.exits = head.exits) :
      Piece flow config scopes stmt (.synthetic kind body)
        (.handled head (.region inside (flow.protectedCode (flow.emit config) scopes stmt body))
          (.instr stmt (.cleanup stmt kind) ++ .instr stmt .endFinally))
  /-- The body of a synthetic statement whose cleanup is in a `finally`. -/
  | guarded {kind : SyntheticKind} {body : StmtId} {head : RegionHead}
      (guarded : (flow.decideCleanup config kind stmt body).isProtected = true)
      (own : head.stmt = body) (isTry : head.kind = .tryBlock)
      (exits : head.exits = flow.exits (.ofScope body stmt)) :
      Piece flow config scopes stmt (.synthetic kind body)
        (.region head (flow.protectedCode (flow.emit config) scopes stmt body))

variable {flow : Flow} {config : Config} {root : StmtId} {start : Place}

/-- The own regions of code inside a template are pieces of the statement. -/
private def Pieces (flow : Flow) (config : Config) (scopes : List StmtId) (stmt : StmtId)
    (shape : Statement) (code : Code) : Prop :=
  ∀ piece ∈ code.ownRegions, flow.Piece config scopes stmt shape piece

section Shapes

variable {scopes : List StmtId} {stmt : StmtId} {shape : Statement}

private theorem Pieces.append {first second : Code}
    (pieces : flow.Pieces config scopes stmt shape first)
    (pieces' : flow.Pieces config scopes stmt shape second) :
    flow.Pieces config scopes stmt shape (first ++ second) :=
  List.forall_mem_append.mpr ⟨pieces, pieces'⟩

private theorem Pieces.of_nil {code : Code} (none : code.ownRegions = []) :
    flow.Pieces config scopes stmt shape code := by
  rw [Pieces, none]
  exact List.forall_mem_nil _

private theorem Pieces.concat {parts : List Code}
    (each : ∀ code ∈ parts, flow.Pieces config scopes stmt shape code) :
    flow.Pieces config scopes stmt shape (Code.concat parts) := by
  induction parts with
  | nil => exact .of_nil rfl
  | cons first rest ih =>
    exact (each first List.mem_cons_self).append
      (ih fun code mem ↦ each code (List.mem_cons_of_mem _ mem))

private theorem Pieces.notes (events : List Event) :
    flow.Pieces config scopes stmt shape (.notes events) :=
  .concat fun code mem ↦ by
    obtain ⟨event, -, rfl⟩ := List.mem_map.mp mem
    exact .of_nil rfl

private theorem Pieces.onlyIf {condition : Bool} {code : Code}
    (pieces : flow.Pieces config scopes stmt shape code) :
    flow.Pieces config scopes stmt shape (.onlyIf condition code) := by
  cases condition with
  | false => exact .of_nil rfl
  | true => exact pieces

private theorem Pieces.region {head : RegionHead} {code : Code}
    (own : flow.Piece config scopes stmt shape (.region head code))
    (pieces : flow.Pieces config scopes stmt shape code) :
    flow.Pieces config scopes stmt shape (.region head code) :=
  List.forall_mem_cons.mpr ⟨own, pieces⟩

private theorem Pieces.handled {head : RegionHead} {code handler : Code}
    (own : flow.Piece config scopes stmt shape (.handled head code handler))
    (pieces : flow.Pieces config scopes stmt shape code)
    (pieces' : flow.Pieces config scopes stmt shape handler) :
    flow.Pieces config scopes stmt shape (.handled head code handler) :=
  List.forall_mem_cons.mpr ⟨own, List.forall_mem_append.mpr ⟨pieces, pieces'⟩⟩

/-- The children of a statement have their regions for themselves. -/
private theorem Pieces.emit (tree : flow.body.IsTree) {child : StmtId}
    (has : flow.body.has child = true) (scopes' : List StmtId) :
    flow.Pieces config scopes stmt shape (flow.emit config child scopes') := by
  obtain ⟨inner, code⟩ := exists_emit config tree has scopes'
  exact .of_nil (code ▸ rfl)

private theorem Pieces.scope (tree : flow.body.IsTree) {child : StmtId}
    (has : flow.body.has child = true) (scopes' : List StmtId) (condition : Bool)
    (operation : Instruction LabelKey) :
    flow.Pieces config scopes stmt shape
      (flow.emit config child scopes' ++ .onlyIf condition (.instr stmt operation)) :=
  .append (.emit tree has scopes') (.onlyIf (.of_nil rfl))

variable (tree : flow.body.IsTree)

include tree

private theorem pieces_groupCode {parts : TryStatement}
    (has : ∀ part ∈ parts.protectedParts, flow.body.has part = true) :
    flow.Pieces config scopes stmt (.tryBlock parts)
      (flow.groupCode (flow.emit config) scopes stmt parts) := by
  have body : flow.Pieces config scopes stmt (.tryBlock parts)
      (flow.tryBodyCode (flow.emit config) scopes stmt parts.body) :=
    .append (.region (.part List.mem_cons_self rfl (.inl rfl) rfl)
      (.scope tree (has _ List.mem_cons_self) _ _ _)) (.notes _)
  unfold groupCode
  split
  · exact body
  · next some =>
    have listed : parts.catches.zipIdx ≠ [] := by
      simpa [List.isEmpty_iff] using some
    obtain ⟨entry, clauses, listed⟩ := List.exists_cons_of_ne_nil listed
    refine .append (.region ?_ (.append body (.concat fun code mem ↦ ?_))) (.notes _)
    · rw [listed]
      exact .group rfl rfl rfl listed
    · obtain ⟨entry, listed, rfl⟩ := List.mem_map.mp mem
      have member : entry.1.body ∈ parts.protectedParts := List.mem_cons_of_mem _
        (List.mem_map_of_mem (List.fst_mem_of_mem_zipIdx listed))
      exact .append (.append (.onlyIf (.region (.filter rfl rfl) (.of_nil rfl)))
        (.region (.part member rfl (.inr rfl) rfl) (.scope tree (has _ member) _ _ _))) (.notes _)

private theorem pieces_tryCode {parts : TryStatement}
    (has : ∀ part ∈ (Statement.tryBlock parts).children, flow.body.has part = true) :
    flow.Pieces config scopes stmt (.tryBlock parts)
      (flow.tryCode (flow.emit config) scopes stmt parts) := by
  have group := @pieces_groupCode flow config scopes stmt tree parts fun part mem ↦
    has part (List.mem_append_left _ mem)
  refine .append ?_ (.of_nil rfl)
  cases handler : parts.handler with
  | none => exact group
  | some clause =>
    have has := has clause.body (by simp [Statement.children, handler])
    exact .append (.handled (.handler handler rfl rfl rfl) group (.scope tree has _ _ _)) (.notes _)

private theorem pieces_syntheticCode {kind : SyntheticKind} {body : StmtId}
    (has : flow.body.has body = true) :
    flow.Pieces config scopes stmt (.synthetic kind body)
      (flow.syntheticCode config (flow.emit config) scopes stmt kind body) := by
  refine .append ?_ (.of_nil rfl)
  split
  · next guarded =>
    exact .handled (.cleanup guarded rfl rfl rfl rfl) (.region (.guarded guarded rfl rfl rfl)
      (.scope tree has _ _ _)) (.of_nil rfl)
  · exact .scope tree has _ _ _

end Shapes

/-- The own regions of a statement are its pieces. -/
theorem piece_of_ownRegions (config : Config) (tree : flow.body.IsTree) {stmt : StmtId}
    {shape : Statement} (found : flow.body.get? stmt = some shape) (scopes : List StmtId) :
    ∀ piece ∈ (flow.template config scopes stmt shape).ownRegions,
      flow.Piece config scopes stmt shape piece := by
  have has (child : StmtId) (mem : child ∈ shape.children) : flow.body.has child = true :=
    tree.has_child (Body.mem_children_of_get? found mem)
  have inner (child : StmtId) (mem : child ∈ shape.children) :
      flow.Pieces config scopes stmt shape (flow.emit config child scopes) :=
    .emit tree (has child mem) scopes
  suffices pieces : flow.Pieces config scopes stmt shape
      (flow.shapeCode config (flow.emit config) scopes stmt shape) from
    flow.template_elim config scopes stmt shape (motive := flow.Pieces config scopes stmt shape)
      (.append (.of_nil rfl) pieces) fun _ ↦ .append (.of_nil rfl) pieces
  cases shape with
  | block children =>
    refine .concat fun code listed ↦ ?_
    obtain ⟨child, mem, rfl⟩ := List.mem_map.mp listed
    exact inner child mem
  | conditional condition thenBranch elseBranch =>
    have first := inner thenBranch List.mem_cons_self
    cases elseBranch with
    | none => exact .append (.append (.of_nil rfl) first) (.of_nil rfl)
    | some elseBranch =>
      have second := inner elseBranch (List.mem_cons_of_mem _ (List.mem_singleton_self _))
      exact .append (.append (.append (.append (.append (.of_nil rfl) first)
        (.onlyIf (.of_nil rfl))) (.of_nil rfl)) second) (.of_nil rfl)
  | tryBlock parts => exact pieces_tryCode tree has
  | labeled label body => exact .append (.of_nil rfl) (inner body List.mem_cons_self)
  | loop condition body =>
    exact .append (.append (.append (.append (.of_nil rfl) (.onlyIf (.of_nil rfl)))
      (inner body List.mem_cons_self)) (.onlyIf (.of_nil rfl))) (.of_nil rfl)
  | switch sections default =>
    refine .append (.append (.of_nil rfl) (.concat fun code listed ↦ ?_)) (.of_nil rfl)
    obtain ⟨part, mem, rfl⟩ := List.mem_map.mp listed
    exact .append (.append (.of_nil rfl) (inner part mem)) (.onlyIf (.of_nil rfl))
  | synthetic kind body => exact pieces_syntheticCode tree (has body List.mem_cons_self)
  | jump form =>
    rcases flow.jumpCode_eq stmt scopes with ⟨-, code⟩ | ⟨_, _, -, -, code⟩
    · rw [shapeCode, code]
      exact .of_nil rfl
    · rw [shapeCode, code]
      exact .of_nil rfl
  | expression | throwException | rethrow | lambda => exact .of_nil rfl

/-- The exits of a piece are those of a query, if there are any. -/
theorem Piece.exits {scopes : List StmtId} {stmt : StmtId} {shape : Statement} {piece : Code}
    (own : flow.Piece config scopes stmt shape piece) {place : Place} {region : Region}
    (top : piece.topRegions place = [region]) :
    region.exits = [] ∨ ∃ query, region.exits = flow.exits query := by
  cases own with
  | filter _ none =>
    cases top
    exact .inl none
  | part _ _ _ exits | group _ _ exits | handler _ _ _ exits | cleanup _ _ _ exits
  | guarded _ _ _ exits =>
    cases top
    exact .inr ⟨_, exits⟩

/-- A region spans the code of its piece. -/
theorem Piece.spans {scopes : List StmtId} {stmt : StmtId} {shape : Statement} {piece : Code}
    (own : flow.Piece config scopes stmt shape piece) {place : Place} {region : Region}
    (top : piece.topRegions place = [region]) :
    region.span.start = place.offset ∧ region.span.stop = place.offset + piece.size := by
  cases own <;> cases top <;> exact ⟨rfl, rfl⟩

/-- A region of a method is a piece of a statement that is laid out in it. -/
theorem Accepted.exists_piece (accepted : flow.Accepted) (member : root ∈ flow.body.methods)
    {region : Region} {at' : Place}
    (opens : (.opens region, at') ∈ (flow.methodCode config root).tokens start) :
    ∃ stmt scopes place shape piece, flow.Laid config root start stmt scopes place ∧
      flow.body.get? stmt = some shape ∧ flow.Piece config scopes stmt shape piece ∧
      piece.topRegions at' = [region] ∧
      piece.tokens at' ⊆ (flow.emit config root []).tokens start := by
  have tree := accepted.wellFormed.toIsTree
  rcases List.mem_append.mp opens with mem | mem
  · obtain ⟨stmt, scopes, place, shape, laid, found, own⟩ :=
      exists_own tree (tree.has_of_mem_methods member) mem (by simp)
    obtain ⟨piece, listed, top, subset⟩ := Code.exists_ownRegion own
    refine ⟨stmt, scopes, place, shape, piece, laid, found,
      piece_of_ownRegions config tree found scopes piece listed, top, fun entry inside ↦ ?_⟩
    apply laid.tokens_subset tree
    rw [emit_eq _ tree found]
    exact List.mem_cons_of_mem _ (List.mem_append_left _ (subset inside))
  · rcases mem_epilogue mem with same | same <;> cases same

end Flow
end ProtectedRegions
