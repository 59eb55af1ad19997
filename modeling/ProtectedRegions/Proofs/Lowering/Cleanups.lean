import ProtectedRegions.Proofs.Flow.Exits
import ProtectedRegions.Proofs.Lowering.Finally
import ProtectedRegions.Proofs.Lowering.Forest
import ProtectedRegions.Proofs.Lowering.Shown

/-!
# Placement of cleanups

A synthetic statement gets a `finally` of its own exactly if its policy asks for one or a live jump
that needs the cleanup crosses its body. The cleanup is then the handler of that `finally`;
otherwise it stands right behind the body, unless the body is left by other ways only. Either way
there is no second one.
-/

namespace ProtectedRegions

/-- The statement and the kind of a cleanup. -/
def Instruction.cleanup? {τ : Type} : Instruction τ → Option (StmtId × SyntheticKind)
  | .cleanup stmt kind => some (stmt, kind)
  | _ => none

/-- Linking keeps the cleanups. -/
theorem Instruction.mapTargets_eq_cleanup {τ υ : Type} {f : τ → υ} {instr : Instruction τ}
    {stmt : StmtId} {kind : SyntheticKind} :
    instr.mapTargets f = .cleanup stmt kind ↔ instr = .cleanup stmt kind := by
  cases instr <;> simp [mapTargets, mapTargetsM]

/-- The region in which the cleanup of a synthetic statement runs. -/
structure Region.IsCleanup (region : Region) (stmt : StmtId) (kind : SyntheticKind) : Prop where
  handles : region.kind = .finallyBlock
  origin : region.origin = .synthetic kind
  own : region.stmt = stmt

/-- Whether a region is made for the synthetic statement `stmt` with the body `inner`. -/
def Region.StemsFrom (region : Region) (stmt inner : StmtId) : Prop :=
  region.kind = .finallyBlock ∧ region.stmt = stmt ∨
    region.kind = .tryBlock ∧ region.isSynthetic = true ∧ region.stmt = inner

/-- The cleanup of a synthetic statement is the handler of a `finally` of its own, from `start` on,
over the block of the body, and it is nowhere else. -/
structure RegionTree.RunsInFinally (tree : RegionTree) (stmt : StmtId) (kind : SyntheticKind)
    (inner : StmtId) (region block : Region) (start : Nat) : Prop where
  found : tree.region? region.id = some region
  isCleanup : region.IsCleanup stmt kind
  only {other : Region} : other ∈ tree.regions → other.IsCleanup stmt kind → other = region
  child : tree.region? block.id = some block
  children : region.children = [block.id]
  parent : block.parent = some region.id
  body : block.kind = .tryBlock ∧ block.origin = .synthetic kind ∧ block.stmt = inner
  covers : block.span.start = region.span.start ∧ block.span.stop = start
  handler : region.handler = some (.ofLength start 2)
  cleanup {offset : Nat} {kind' : SyntheticKind} :
    tree.instructions[offset]? = some (.cleanup stmt kind') ↔ offset = start ∧ kind' = kind
  finish : tree.instructions[start + 1]? = some .endFinally

namespace Flow

variable {flow : Flow} {config : Config} {root : StmtId}

/-- A live jump out of the body of a synthetic statement that needs the cleanup: a return counts
for pinned memory only if the configuration says so. -/
structure NeedsCleanup (flow : Flow) (config : Config) (kind : SyntheticKind)
    (stmt inner jump : StmtId) (target : JumpTarget) : Prop where
  inside : flow.body.Inside inner jump
  method : flow.body.methodOf jump = flow.body.methodOf stmt
  live : flow.isReachable jump = true
  resolved : flow.target? jump = some target
  crosses : target.isReturn = true ∨ ¬ flow.body.Inside inner target.scope
  counts : target.isReturn = true → kind = .fixed → config.cleanupOnFixedReturn = true

/-- An edge needs the cleanup unless it returns out of pinned memory. -/
theorem needsCleanup_iff {kind : SyntheticKind} {target : JumpTarget} {source : StmtId}
    {reachable : Bool} :
    config.needsCleanup kind ⟨source, target.exitTarget, .leave, reachable⟩ = true ↔
      (target.isReturn = true → kind = .fixed → config.cleanupOnFixedReturn = true) := by
  cases target <;> cases kind <;>
    simp [Config.needsCleanup, JumpTarget.exitTarget, JumpTarget.isReturn]

namespace Accepted

variable (accepted : flow.Accepted)

include accepted

/-- Some jump needs the cleanup of a synthetic statement if some edge out of its body does. -/
theorem exists_needsCleanup {stmt inner : StmtId} {kind : SyntheticKind}
    (has : flow.body.has inner = true)
    (method : flow.body.methodOf inner = flow.body.methodOf stmt) :
    (∃ jump target, flow.NeedsCleanup config kind stmt inner jump target) ↔
      ∃ edge ∈ (flow.exits (.ofScope inner stmt)).leaves, config.needsCleanup kind edge = true := by
  have tree := accepted.wellFormed.toIsTree
  have searches {jump : StmtId} :
      jump ∈ flow.searched (.ofScope inner stmt) ↔ jump ∈ flow.body.inMethod inner := by
    simp [searched, ExitQuery.ofScope]
  constructor
  · rintro ⟨jump, target, inside, within, live, resolved, crossed, counts⟩
    obtain ⟨form, found, -⟩ := accepted.resolved_of_target resolved
    have listed : jump ∈ flow.body.inMethod inner := by
      apply (tree.mem_inMethod has (Body.has_iff_get?.mpr ⟨_, found⟩)).mpr
      refine ⟨inside, within.trans method.symm, ?_⟩
      rw [Body.isLambda, found]
      rfl
    obtain ⟨edge, mem, leaves, source⟩ := (exists_leave_iff found live resolved).mpr
      ⟨searches.mpr listed, (accepted.crosses_iff resolved).mpr crossed⟩
    refine ⟨edge, List.mem_filter.mpr ⟨mem, beq_iff_eq.mpr leaves⟩, ?_⟩
    obtain ⟨-, -, edges⟩ := leave_mem_exits_iff.mp ⟨mem, leaves⟩
    obtain ⟨-, target', resolved', -, same⟩ := leaveEdge?_eq_some.mp edges
    rw [source, resolved] at resolved'
    cases resolved'
    rw [same]
    exact needsCleanup_iff.mpr counts
  · rintro ⟨edge, mem, needs⟩
    obtain ⟨mem, leaves⟩ := List.mem_filter.mp mem
    obtain ⟨source, ⟨form, jump⟩, found⟩ := leave_mem_exits_iff.mp ⟨mem, beq_iff_eq.mp leaves⟩
    obtain ⟨live, target, resolved, crossed, same⟩ := leaveEdge?_eq_some.mp found
    obtain ⟨inside, within, -⟩ :=
      (tree.mem_inMethod has (Body.has_iff_get?.mpr ⟨_, jump⟩)).mp (searches.mp source)
    refine ⟨edge.source, target, inside, within.trans method, live, resolved,
      (accepted.crosses_iff resolved).mp crossed, ?_⟩
    rw [same] at needs
    exact needsCleanup_iff.mp needs

/-- The body of a synthetic statement is protected if the policy asks for it or if a live jump that
needs the cleanup leaves the body. -/
theorem isProtected_iff {stmt inner : StmtId} {kind : SyntheticKind}
    (shaped : flow.body.get? stmt = some (.synthetic kind inner)) :
    (flow.decideCleanup config kind stmt inner).isProtected = true ↔
      config.policy kind = .always ∨
        ∃ jump target, flow.NeedsCleanup config kind stmt inner jump target := by
  have tree := accepted.wellFormed.toIsTree
  have child : inner ∈ flow.body.children stmt :=
    Body.mem_children_of_get? shaped (List.mem_singleton_self inner)
  have open' : flow.body.isLambda stmt = false := by
    rw [Body.isLambda, shaped]
    rfl
  have method : flow.body.methodOf inner = flow.body.methodOf stmt := by
    rw [tree.methodOf_child child, open', if_neg Bool.false_ne_true]
  rw [decideCleanup, Bool.or_eq_true, decide_eq_true_iff, decide_eq_true_iff, List.countP_pos_iff,
    accepted.exists_needsCleanup (tree.has_child child) method]

end Accepted

/-- Which jumps need a cleanup depends on the configuration for pinned memory alone. -/
theorem NeedsCleanup.of_returns {config' : Config} {kind : SyntheticKind}
    {stmt inner jump : StmtId} {target : JumpTarget}
    (needs : flow.NeedsCleanup config kind stmt inner jump target)
    (returns : kind = .fixed → config'.cleanupOnFixedReturn = config.cleanupOnFixedReturn) :
    flow.NeedsCleanup config' kind stmt inner jump target where
  inside := needs.inside
  method := needs.method
  live := needs.live
  resolved := needs.resolved
  crosses := needs.crosses
  counts leaves fixed := (returns fixed).trans (needs.counts leaves fixed)

section Instructions

/-- The cleanups of a selection. -/
theorem hidesTransfers_cleanup? :
    HidesTransfers (Instruction.cleanup? (τ := LabelKey)) where
  branch _ := rfl
  branchIf _ := rfl
  switch _ := rfl
  leave _ := rfl
  ret := rfl
  endFilter := rfl
  endFinally := rfl

/-- The cleanup made for a statement of the given shape, if there is one. -/
def ownCleanup (flow : Flow) (config : Config) (stmt : StmtId) :
    Statement → List (StmtId × SyntheticKind)
  | .synthetic kind body =>
    if (flow.decideCleanup config kind stmt body).isProtected || flow.runsOn body then
      [(stmt, kind)]
    else []
  | _ => []

theorem mem_ownCleanup {stmt : StmtId} {shape : Statement} {entry : StmtId × SyntheticKind} :
    entry ∈ flow.ownCleanup config stmt shape ↔ ∃ kind body, shape = .synthetic kind body ∧
      ((flow.decideCleanup config kind stmt body).isProtected = true ∨ flow.runsOn body = true) ∧
      entry = (stmt, kind) := by
  cases shape with
  | synthetic kind body =>
    rw [ownCleanup, List.mem_ite_nil_right, Bool.or_eq_true, List.mem_singleton]
    constructor
    · rintro ⟨stays, same⟩
      exact ⟨kind, body, rfl, stays, same⟩
    · rintro ⟨_, _, ⟨⟩, stays, same⟩
      exact ⟨stays, same⟩
  | _ => simp [ownCleanup]

theorem nodup_ownCleanup {stmt : StmtId} {shape : Statement} :
    (flow.ownCleanup config stmt shape).Nodup := by
  cases shape with
  | synthetic kind body =>
    rw [ownCleanup]
    split
    · exact List.nodup_singleton _
    · exact List.nodup_nil
  | _ => exact List.nodup_nil

/-- The cleanups of a statement are those of its children and its own behind them. -/
theorem shownShape_cleanup? {below : StmtId → List (StmtId × SyntheticKind)} {stmt : StmtId}
    {shape : Statement} :
    flow.shownShape config Instruction.cleanup? below stmt shape =
      shape.laidOut.flatMap below ++ flow.ownCleanup config stmt shape := by
  cases shape with
  | tryBlock parts =>
    have clauses {shown : CatchClause × Nat → List (StmtId × SyntheticKind)}
        (silent : ∀ entry, shown entry = below entry.1.body) :
        parts.catches.zipIdx.flatMap shown = parts.catches.flatMap (below ·.body) := by
      conv_rhs => rw [← List.zipIdx_map_fst 0 parts.catches, List.flatMap_map]
      exact congrArg (parts.catches.zipIdx.flatMap ·) (funext silent)
    rw [shownShape, clauses fun entry ↦ by simp [Instruction.cleanup?]]
    cases found : parts.handler <;>
      simp [Statement.laidOut, Statement.children, TryStatement.protectedParts, ownCleanup, found,
        List.flatMap_map]
  | synthetic kind body =>
    simp [shownShape, Statement.laidOut, Statement.children, ownCleanup, Instruction.cleanup?]
  | block | conditional | labeled | loop | switch | expression | jump | throwException
  | rethrow | lambda =>
    simp [shownShape, Statement.laidOut, Statement.children, ownCleanup, Instruction.cleanup?]

/-- The statement of a cleanup in the code of a scope is synthetic and lies in the scope, and no
statement has two cleanups. -/
theorem cleanups_emit (config : Config) (tree : flow.body.IsTree) {scope : StmtId}
    (has : flow.body.has scope = true) (scopes : List StmtId) :
    ((flow.emit config scope scopes).shown Instruction.cleanup?).Nodup ∧
      ∀ entry ∈ (flow.emit config scope scopes).shown Instruction.cleanup?,
        flow.body.Inside scope entry.1 ∧ ∃ shape, flow.body.get? entry.1 = some shape ∧
          entry ∈ flow.ownCleanup config entry.1 shape := by
  revert scopes
  apply tree.inductionUp (motive := fun scope ↦ ∀ scopes,
    ((flow.emit config scope scopes).shown Instruction.cleanup?).Nodup ∧
      ∀ entry ∈ (flow.emit config scope scopes).shown Instruction.cleanup?,
        flow.body.Inside scope entry.1 ∧ ∃ shape, flow.body.get? entry.1 = some shape ∧
          entry ∈ flow.ownCleanup config entry.1 shape) ?_ has
  intro scope shape found ih scopes
  have child {inner : StmtId} (mem : inner ∈ shape.laidOut) : inner ∈ flow.body.children scope :=
    Body.mem_children_of_get? found (Statement.mem_children_of_laidOut mem)
  have below {inner : StmtId} (mem : inner ∈ shape.laidOut) :=
    ih inner (Statement.mem_children_of_laidOut mem) []
  have own {entry : StmtId × SyntheticKind} (mem : entry ∈ flow.ownCleanup config scope shape) :
      entry.1 = scope := by
    obtain ⟨_, _, -, -, rfl⟩ := mem_ownCleanup.mp mem
    rfl
  rw [shown_emit hidesTransfers_cleanup? config tree found, shownShape_cleanup?]
  constructor
  · apply List.Nodup.append
    · apply List.nodup_flatMap.mpr
      refine ⟨fun inner mem ↦ (below mem).1, ?_⟩
      apply (tree.nodup_laidOut found).imp_of_mem
      intro first second mem mem' different entry listed listed'
      exact different (tree.child_unique (child mem) (child mem') ((below mem).2 entry listed).1
        ((below mem').2 entry listed').1)
    · exact nodup_ownCleanup
    · intro entry listed mem
      obtain ⟨inner, laidOut, listed⟩ := List.mem_flatMap.mp listed
      have inside := ((below laidOut).2 entry listed).1
      rw [own mem] at inside
      exact tree.not_inside_parent (child laidOut) inside
  · intro entry mem
    rcases List.mem_append.mp mem with mem | mem
    · obtain ⟨inner, laidOut, listed⟩ := List.mem_flatMap.mp mem
      obtain ⟨inside, rest⟩ := (below laidOut).2 entry listed
      exact ⟨(Body.Inside.of_child (child laidOut)).trans inside, rest⟩
    · have same := own mem
      rw [same]
      exact ⟨.refl, shape, found, mem⟩

/-- The cleanups of a method. -/
theorem cleanups_methodCode (config : Config) (tree : flow.body.IsTree)
    (rooted : flow.body.has root = true) :
    ((flow.methodCode config root).shown Instruction.cleanup?).Nodup ∧
      ∀ entry ∈ (flow.methodCode config root).shown Instruction.cleanup?,
        ∃ shape, flow.body.get? entry.1 = some shape ∧
          entry ∈ flow.ownCleanup config entry.1 shape := by
  obtain ⟨nodup, origin⟩ := cleanups_emit config tree rooted []
  rw [methodCode, Code.shown_append, shown_epilogue hidesTransfers_cleanup?, List.append_nil]
  exact ⟨nodup, fun entry mem ↦ (origin entry mem).2⟩

/-- A cleanup in the code of a method. -/
theorem cleanup_of_token (tree : flow.body.IsTree) (rooted : flow.body.has root = true)
    {source stmt inner : StmtId} {kind kind' : SyntheticKind} {place at' : Place}
    (shaped : flow.body.get? stmt = some (.synthetic kind inner))
    (token : (.instr source (.cleanup stmt kind'), at') ∈
      (flow.methodCode config root).tokens place) :
    kind' = kind ∧ ((flow.decideCleanup config kind stmt inner).isProtected = true ∨
      flow.runsOn inner = true) := by
  have listed : (stmt, kind') ∈ (flow.methodCode config root).shown Instruction.cleanup? := by
    rw [← Code.filterMap_shown _ place]
    exact List.mem_filterMap.mpr ⟨_, token, rfl⟩
  obtain ⟨shape, found, mem⟩ := (cleanups_methodCode config tree rooted).2 _ listed
  rw [shaped] at found
  cases found
  obtain ⟨_, _, same, stays, entry⟩ := mem_ownCleanup.mp mem
  cases same
  cases entry
  exact ⟨rfl, stays⟩

/-- Behind a body that is not protected and does not complete there is no cleanup. -/
theorem not_cleanup (tree : flow.body.IsTree) (rooted : flow.body.has root = true)
    {stmt inner : StmtId} {kind : SyntheticKind}
    (shaped : flow.body.get? stmt = some (.synthetic kind inner))
    (plain : (flow.decideCleanup config kind stmt inner).isProtected = false)
    (stops : flow.runsOn inner = false) (offset : Nat) (kind' : SyntheticKind) :
    (flow.methodTree config root).instructions[offset]? ≠ some (.cleanup stmt kind') := by
  intro found
  obtain ⟨source, operation, at', token, -, same⟩ := getElem?_methodTree.mp found
  rw [eq_comm, Instruction.mapTargets_eq_cleanup] at same
  subst same
  rcases (cleanup_of_token tree rooted shaped token).2 with guarded | goes
  · rw [plain] at guarded
    cases guarded
  · rw [stops] at goes
    cases goes

/-- A statement has one cleanup in the code of a method, if it has any. -/
theorem cleanup_unique (tree : flow.body.IsTree) (rooted : flow.body.has root = true)
    {source source' stmt : StmtId} {kind : SyntheticKind} {place at' at'' : Place}
    (token : (.instr source (.cleanup stmt kind), at') ∈
      (flow.methodCode config root).tokens place)
    (token' : (.instr source' (.cleanup stmt kind), at'') ∈
      (flow.methodCode config root).tokens place) : at' = at'' := by
  have nodup := (cleanups_methodCode config tree rooted).1
  rw [← Code.filterMap_shown _ place] at nodup
  exact congrArg Prod.snd (eq_of_nodup_filterMap nodup token token' rfl rfl)

/-- Where the cleanups of a statement stand in the instructions of a method, if one stands at the
given place. -/
theorem cleanup_iff (tree : flow.body.IsTree) (rooted : flow.body.has root = true)
    {source stmt inner : StmtId} {kind : SyntheticKind} {at' : Place}
    (shaped : flow.body.get? stmt = some (.synthetic kind inner))
    (token : (.instr source (.cleanup stmt kind), at') ∈
      (flow.methodCode config root).tokens (flow.methodPlace config root))
    {offset : Nat} {kind' : SyntheticKind} :
    (flow.methodTree config root).instructions[offset]? = some (.cleanup stmt kind') ↔
      offset = at'.offset ∧ kind' = kind := by
  rw [getElem?_methodTree]
  constructor
  · rintro ⟨source', operation, at'', token', rfl, same⟩
    rw [eq_comm, Instruction.mapTargets_eq_cleanup] at same
    subst same
    obtain ⟨rfl, -⟩ := cleanup_of_token tree rooted shaped token'
    rw [cleanup_unique tree rooted token' token]
    exact ⟨rfl, rfl⟩
  · rintro ⟨rfl, rfl⟩
    exact ⟨source, _, at', token, rfl, rfl⟩

end Instructions

section Regions

variable {stmt inner : StmtId} {kind : SyntheticKind} {scopes : List StmtId} {place : Place}

/-- The head of the `finally` region of a protected synthetic statement. -/
def cleanupHead (flow : Flow) (stmt : StmtId) (kind : SyntheticKind) (inner : StmtId) :
    RegionHead :=
  ⟨.finallyBlock, .synthetic kind, stmt, none, flow.exits (.ofScope inner stmt)⟩

/-- The head of the `try` region over the body of a protected synthetic statement. -/
def guardedHead (flow : Flow) (stmt : StmtId) (kind : SyntheticKind) (inner : StmtId) :
    RegionHead :=
  ⟨.tryBlock, .synthetic kind, inner, none, flow.exits (.ofScope inner stmt)⟩

/-- The body of a protected synthetic statement. -/
def guardedCode (flow : Flow) (config : Config) (scopes : List StmtId) (stmt : StmtId)
    (kind : SyntheticKind) (inner : StmtId) : Code :=
  .region (flow.guardedHead stmt kind inner)
    (flow.protectedCode (flow.emit config) scopes stmt inner)

/-- The handler of a protected synthetic statement. -/
def cleanupCode (stmt : StmtId) (kind : SyntheticKind) : Code :=
  .instr stmt (.cleanup stmt kind) ++ .instr stmt .endFinally

/-- The code of a synthetic statement whose cleanup is in a `finally`. -/
theorem own_of_protected (scopes : List StmtId) (place : Place)
    (guarded : (flow.decideCleanup config kind stmt inner).isProtected = true) :
    let head := flow.cleanupHead stmt kind inner
    let code := flow.guardedCode config scopes stmt kind inner
    let inBody := place.inBody head code (cleanupCode stmt kind)
    let inHandler := place.inHandler head code (cleanupCode stmt kind)
    ∀ entry ∈ [(Token.opens (place.handled head code (cleanupCode stmt kind)), place),
        (.opens (inBody.region (flow.guardedHead stmt kind inner)
          (flow.protectedCode (flow.emit config) scopes stmt inner)), inBody),
        (.instr stmt (.cleanup stmt kind), inHandler),
        (.instr stmt .endFinally, inHandler.after (.instr stmt (.cleanup stmt kind)))],
      entry ∈ (flow.template config scopes stmt (.synthetic kind inner)).own place := by
  intro head code inBody inHandler entry mem
  have shape : flow.shapeCode config (flow.emit config) scopes stmt (.synthetic kind inner) =
      .handled head code (cleanupCode stmt kind) ++ .mark (.endOf stmt) := by
    rw [shapeCode, syntheticCode, if_pos guarded]
    rfl
  rw [own_template, shape]
  apply List.mem_append_left
  simp only [List.mem_cons, List.not_mem_nil, or_false] at mem
  obtain rfl | rfl | rfl | rfl := mem
  · exact List.mem_cons_self ..
  · exact List.mem_cons_of_mem _ (List.mem_append_left _ (List.mem_cons_self ..))
  · exact List.mem_cons_of_mem _ (List.mem_append_right _ (List.mem_cons_self ..))
  · exact List.mem_cons_of_mem _ (List.mem_append_right _
      (List.mem_cons_of_mem _ (List.mem_singleton_self _)))

/-- The code of a synthetic statement whose cleanup follows its body. -/
theorem own_of_elided (plain : (flow.decideCleanup config kind stmt inner).isProtected = false)
    (runs : flow.runsOn inner = true) :
    (.instr stmt (.cleanup stmt kind), place.after (flow.emit config inner scopes)) ∈
      (flow.template config scopes stmt (.synthetic kind inner)).own place := by
  rw [own_template, shapeCode, syntheticCode, if_neg (by simp [plain]), runs, Code.onlyIf_true]
  apply List.mem_append_left
  exact List.mem_append_right _ (List.mem_singleton_self _)

/-- The end of the body of a synthetic statement whose cleanup follows the body. -/
theorem Laid.stands_elided (tree : flow.body.IsTree) {start : Place} (first : start.offset = 0)
    (laid : flow.Laid config root start stmt scopes place)
    (shaped : flow.body.get? stmt = some (.synthetic kind inner))
    (plain : (flow.decideCleanup config kind stmt inner).isProtected = false) :
    flow.Stands config root (.node (.ending inner))
      (place.after (flow.emit config inner scopes)).offset := by
  have has := tree.has_child (Body.mem_children_of_get? shaped (List.mem_singleton_self inner))
  obtain ⟨shape, found⟩ := Body.has_iff_get?.mp has
  obtain ⟨code, emitted⟩ := exists_emit config tree has scopes
  have listed : ⟨inner, code, place⟩ ∈
      (flow.template config scopes stmt (.synthetic kind inner)).nested place := by
    rw [nested_template, shapeCode, syntheticCode, if_neg (by simp [plain]), Code.nested_append,
      nested_scope emitted]
    exact List.mem_append_left _ (List.mem_singleton_self _)
  obtain ⟨scopes', nests⟩ := nests_template tree shaped scopes place _ listed
  have same : code = flow.template config scopes' inner shape := by
    have both := nests.code.symm.trans (emit_eq config tree found scopes')
    cases both
    rfl
  have stands := (laid.child shaped listed nests).stands_ending tree first found
  rw [emitted, same]
  exact stands

/-- The regions made for a synthetic statement, and no others, are synthetic. -/
theorem synthetic_of_ownHeads {shape : Statement} {head : RegionHead} {kind : SyntheticKind}
    (own : head ∈ flow.ownHeads config stmt shape) (origin : head.origin = .synthetic kind) :
    ∃ inner, shape = .synthetic kind inner ∧
      (flow.decideCleanup config kind stmt inner).isProtected = true ∧
      (head = flow.cleanupHead stmt kind inner ∨ head = flow.guardedHead stmt kind inner) := by
  cases ownHead_of_mem own with
  | body | filter | caught | group | handler => cases origin
  | cleanup guarded =>
    cases origin
    exact ⟨_, rfl, guarded, .inl rfl⟩
  | guarded guarded =>
    cases origin
    exact ⟨_, rfl, guarded, .inr rfl⟩

end Regions

namespace Accepted

variable (accepted : flow.Accepted) (member : root ∈ flow.body.methods) {stmt inner : StmtId}
  {kind : SyntheticKind} (shaped : flow.body.get? stmt = some (.synthetic kind inner))

include accepted member shaped

/-- A `finally` region of a synthetic statement is there only if its body is protected. -/
theorem protected_of_finally {region : Region}
    (listed : region ∈ (flow.methodTree config root).regions)
    (handles : region.kind = .finallyBlock) (own : region.stmt = stmt) :
    (flow.decideCleanup config kind stmt inner).isProtected = true := by
  have below : region.kind ≠ .method := by
    rw [handles]
    simp
  obtain ⟨at', opens⟩ := (accepted.mem_regions_methodTree member).mp ⟨listed, below⟩
  obtain ⟨scopes, place, shape, -, found, fits⟩ := accepted.exists_finally member opens handles
  rw [own] at found fits
  cases shaped.symm.trans found
  cases fits with
  | cleanup guarded => exact guarded

/-- A synthetic statement has no regions if its body is not protected. -/
theorem not_stemsFrom (plain : (flow.decideCleanup config kind stmt inner).isProtected = false)
    {region : Region} (listed : region ∈ (flow.methodTree config root).regions) :
    ¬ region.StemsFrom stmt inner := by
  have tree := accepted.wellFormed.toIsTree
  have rooted := tree.has_of_mem_methods member
  have exposed : (flow.decideCleanup config kind stmt inner).isProtected ≠ true := by
    simp [plain]
  intro stems
  rcases stems with ⟨handles, own⟩ | ⟨blocks, synthetic, own⟩
  · exact exposed (accepted.protected_of_finally member shaped listed handles own)
  · obtain ⟨kind', origin⟩ : ∃ kind', region.origin = .synthetic kind' := by
      rw [Region.isSynthetic] at synthetic
      split at synthetic
      · next kind' origin => exact ⟨kind', origin⟩
      · cases synthetic
    rcases flow.toRegionHead_methodTree config tree rooted listed with
      same | ⟨owner, -, shape, found, mem⟩
    · rw [show region.kind = .method from congrArg RegionHead.kind same] at blocks
      cases blocks
    · obtain ⟨body, rfl, guarded, same | same⟩ := synthetic_of_ownHeads mem origin
      · rw [show region.kind = .finallyBlock from congrArg RegionHead.kind same] at blocks
        cases blocks
      · have part : body = inner := (congrArg RegionHead.stmt same).symm.trans own
        subst part
        have mem := Body.mem_children_of_get? found (List.mem_singleton_self body)
        have mem' := Body.mem_children_of_get? shaped (List.mem_singleton_self body)
        cases tree.parent_unique mem mem'
        cases found.symm.trans shaped
        exact exposed guarded

variable (within : flow.body.methodOf stmt = root)

include within

/-- A synthetic statement of a method is laid out in its code. -/
theorem exists_laid_synthetic (config : Config) :
    ∃ scopes place, flow.Laid config root (flow.methodPlace config root) stmt scopes place := by
  have tree := accepted.wellFormed.toIsTree
  have has := Body.has_iff_get?.mpr ⟨_, shaped⟩
  apply Laid.exists_place config _ tree _ has
  · rw [within, tree.methodOf_of_mem_methods member]
  · rw [← within]
    exact (tree.methodOf_spec has).2

/-- A protected synthetic statement has its cleanup in a `finally`. -/
theorem runsInFinally (guarded : (flow.decideCleanup config kind stmt inner).isProtected = true) :
    ∃ region block start,
      (flow.methodTree config root).RunsInFinally stmt kind inner region block start := by
  have tree := accepted.wellFormed.toIsTree
  have rooted := tree.has_of_mem_methods member
  obtain ⟨scopes, place, laid⟩ := accepted.exists_laid_synthetic member shaped within config
  have token (entry : Token × Place)
      (own : entry ∈ (flow.template config scopes stmt (.synthetic kind inner)).own place) :
      entry ∈ (flow.methodCode config root).tokens (flow.methodPlace config root) :=
    tokens_methodCode (laid.own_mem tree shaped own)
  have own := own_of_protected scopes place guarded
  simp only [List.forall_mem_cons, List.not_mem_nil, false_implies, implies_true, and_true] at own
  obtain ⟨opens, opens', cleans, ends⟩ := own
  refine ⟨_, _, _, {
    found := region?_methodTree (token _ opens)
    isCleanup := ⟨rfl, rfl, rfl⟩
    only := ?_
    child := region?_methodTree (token _ opens')
    children := rfl
    parent := rfl
    body := ⟨rfl, rfl, rfl⟩
    covers := ⟨rfl, rfl⟩
    handler := rfl
    cleanup := cleanup_iff tree rooted shaped (token _ cleans)
    finish := getElem?_methodTree.mpr ⟨stmt, .endFinally, _, token _ ends, rfl, rfl⟩ }⟩
  intro other listed cleanup
  have below : other.kind ≠ .method := by
    rw [cleanup.handles]
    simp
  obtain ⟨at', opens'⟩ := (accepted.mem_regions_methodTree member).mp ⟨listed, below⟩
  obtain ⟨scopes', place', shape, laid', found, fits⟩ :=
    accepted.exists_finally member opens' cleanup.handles
  rw [cleanup.own] at laid' found fits
  cases laid.scopes_unique tree rooted laid'
  cases laid.place_unique tree rooted laid'
  cases found.symm.trans shaped
  exact fits.unique (.cleanup guarded)

/-- A synthetic statement has a `finally` if its body is protected. -/
theorem exists_isCleanup :
    (∃ region ∈ (flow.methodTree config root).regions, region.IsCleanup stmt kind) ↔
      (flow.decideCleanup config kind stmt inner).isProtected = true := by
  constructor
  · rintro ⟨region, listed, cleanup⟩
    exact accepted.protected_of_finally member shaped listed cleanup.handles cleanup.own
  · intro guarded
    obtain ⟨region, block, start, runs⟩ := accepted.runsInFinally member shaped within guarded
    exact ⟨region, List.mem_of_getElem? runs.found, runs.isCleanup⟩

/-- Without a `finally`, the cleanup stands right behind the body if control may get there. -/
theorem runsBehind (plain : (flow.decideCleanup config kind stmt inner).isProtected = false)
    (runs : flow.runsOn inner = true) :
    ∃ start, flow.Stands config root (.node (.ending inner)) start ∧
      ∀ offset kind', (flow.methodTree config root).instructions[offset]? =
        some (.cleanup stmt kind') ↔ offset = start ∧ kind' = kind := by
  have tree := accepted.wellFormed.toIsTree
  have rooted := tree.has_of_mem_methods member
  obtain ⟨scopes, place, laid⟩ := accepted.exists_laid_synthetic member shaped within config
  refine ⟨_, laid.stands_elided tree rfl shaped plain, ?_⟩
  intro offset kind'
  exact cleanup_iff tree rooted shaped
    (tokens_methodCode (laid.own_mem tree shaped (own_of_elided plain runs)))

end Accepted

end Flow

namespace Config

/-- A synthetic statement has a `finally` region exactly if the policy of its kind asks for one or a
live jump that needs the cleanup leaves its body. The cleanup is then the handler of the only such
region, over the body, and stands nowhere else. Otherwise the statement has no region, and its
cleanup stands once, right behind the body, provided that the body completes or is dead. No other
choice of the configuration plays a part in the decision. -/
theorem cleanup_placement {draft : Draft} {body : Body} (made : draft.toBody = .ok body)
    {flow : Flow} (analysed : Flow.ofBody body = .ok flow) {config : Config} {tree : RegionTree}
    (builds : config.Builds body tree) {stmt inner : StmtId} {kind : SyntheticKind}
    (shaped : body.get? stmt = some (.synthetic kind inner))
    (within : body.methodOf stmt = tree.method) :
    ((∃ region ∈ tree.regions, region.IsCleanup stmt kind) ↔
      config.policy kind = .always ∨
        ∃ jump target, flow.NeedsCleanup config kind stmt inner jump target) ∧
    ((∃ region ∈ tree.regions, region.IsCleanup stmt kind) →
      ∃ region block start, tree.RunsInFinally stmt kind inner region block start) ∧
    ((¬ ∃ region ∈ tree.regions, region.IsCleanup stmt kind) →
      (∀ region ∈ tree.regions, ¬ region.StemsFrom stmt inner) ∧
      if flow.completes inner = true ∨ flow.isReachable inner = false then
        ∃ start, flow.Stands config tree.method (.node (.ending inner)) start ∧
          ∀ offset kind', tree.instructions[offset]? = some (.cleanup stmt kind') ↔
            offset = start ∧ kind' = kind
      else ∀ (offset : Nat) (kind' : SyntheticKind),
        tree.instructions[offset]? ≠ some (.cleanup stmt kind')) ∧
    ∀ (config' : Config) (tree' : RegionTree), config'.Builds body tree' →
      tree'.method = tree.method → config'.policy kind = config.policy kind →
      (kind = .fixed → config'.cleanupOnFixedReturn = config.cleanupOnFixedReturn) →
      ((∃ region ∈ tree'.regions, region.IsCleanup stmt kind) ↔
        ∃ region ∈ tree.regions, region.IsCleanup stmt kind) := by
  obtain ⟨accepted, rfl, root, member, rfl⟩ := builds.exists_root made analysed
  have within : flow.body.methodOf stmt = root := within
  have tree := accepted.wellFormed.toIsTree
  have rooted := tree.has_of_mem_methods member
  have decides (config : Config) :
      (∃ region ∈ (flow.methodTree config root).regions, region.IsCleanup stmt kind) ↔
        (flow.decideCleanup config kind stmt inner).isProtected = true :=
    accepted.exists_isCleanup member shaped within
  refine ⟨(decides config).trans (accepted.isProtected_iff shaped), ?_, ?_, ?_⟩
  · intro placed
    exact accepted.runsInFinally member shaped within ((decides config).mp placed)
  · intro free
    have plain : (flow.decideCleanup config kind stmt inner).isProtected = false := by
      rwa [decides, Bool.not_eq_true] at free
    have runs : flow.runsOn inner = true ↔
        flow.completes inner = true ∨ flow.isReachable inner = false := by
      rw [Flow.runsOn, Bool.or_eq_true, Bool.not_eq_true']
    refine ⟨fun region listed ↦ accepted.not_stemsFrom member shaped plain listed, ?_⟩
    split
    · next goes => exact accepted.runsBehind member shaped within plain (runs.mpr goes)
    · next stops =>
      rw [← runs, Bool.not_eq_true] at stops
      exact Flow.not_cleanup tree rooted shaped plain stops
  · intro config' tree' builds' same policy returns
    obtain ⟨-, -, root', -, rfl⟩ := builds'.exists_root made analysed
    have same : root' = root := same
    subst same
    have needs (jump : StmtId) (target : JumpTarget) :
        flow.NeedsCleanup config' kind stmt inner jump target ↔
          flow.NeedsCleanup config kind stmt inner jump target :=
      ⟨fun needs ↦ needs.of_returns fun fixed ↦ (returns fixed).symm,
        fun needs ↦ needs.of_returns returns⟩
    rw [decides config', decides config, accepted.isProtected_iff shaped,
      accepted.isProtected_iff shaped, policy]
    simp only [needs]

end Config

/-- A `return` out of pinned memory in a lock. -/
def Draft.pinned : Draft where
  statements := #[.jump .returnOut, .synthetic .fixed ⟨0⟩, .synthetic .lock ⟨1⟩]
  labelCount := 0
  localCount := 0
  root := ⟨2⟩

/-- The lock is released in a `finally`, and the memory is not unpinned at all. -/
theorem Config.cleanup_placement_pinned :
    ∃ body flow tree, Draft.pinned.toBody = .ok body ∧ Flow.ofBody body = .ok flow ∧
      Config.default.build body = .ok tree ∧
      (∃ region block start, tree.RunsInFinally ⟨2⟩ .lock ⟨1⟩ region block start) ∧
      ∀ region ∈ tree.regions, ¬ region.StemsFrom ⟨1⟩ ⟨0⟩ := by
  have places : Config.default.tests .pinned (fun flow tree ↦ decide
      (flow.body.get? ⟨2⟩ = some (.synthetic .lock ⟨1⟩) ∧
        flow.body.get? ⟨1⟩ = some (.synthetic .fixed ⟨0⟩) ∧
        flow.body.methodOf ⟨2⟩ = tree.method ∧ flow.body.methodOf ⟨1⟩ = tree.method ∧
        (∃ region ∈ tree.regions, region.kind = .finallyBlock ∧
          region.origin = .synthetic .lock ∧ region.stmt = ⟨2⟩) ∧
        ∀ region ∈ tree.regions, region.origin ≠ .synthetic .fixed)) = true := by
    decide +kernel
  obtain ⟨body, flow, tree, made, analysed, built, holds⟩ := exists_built places
  obtain ⟨lock, fixed, within, within', ⟨region, listed, kind, origin, own⟩, none⟩ :=
    of_decide_eq_true holds
  obtain ⟨-, -, same⟩ := Config.checks_iff made analysed
  rw [same] at lock fixed within within'
  have guarded := cleanup_placement made analysed (.outer built) lock within
  have plain := cleanup_placement made analysed (.outer built) fixed within'
  refine ⟨body, flow, tree, made, analysed, built,
    guarded.2.1 ⟨region, listed, kind, origin, own⟩, (plain.2.2.1 ?_).1⟩
  intro ⟨region, listed, cleanup⟩
  exact none region listed cleanup.origin

end ProtectedRegions
