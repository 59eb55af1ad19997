import ProtectedRegions.Lowering.Build
import ProtectedRegions.Proofs.Code.Linking
import ProtectedRegions.Proofs.Flow.Live
import ProtectedRegions.Proofs.Lowering.Labels

/-!
# The code of a method

The code of a method places no label twice: a label belongs to one statement, and each
statement is laid out once. It names only labels of statements of the method, and its exit, for
which there is an epilogue. So the code of every method is laid out and linked.
-/

namespace ProtectedRegions

namespace Body.WellFormed

variable {body : Body}

/-- The labels of a statement name it or a child of it, or are defined by it. -/
theorem owner_of_label (wf : body.WellFormed) {stmt : StmtId} {shape : Statement}
    (found : body.get? stmt = some shape) {label : LabelKey} (mem : label ∈ shape.labels stmt) :
    (∃ name, label = .user name ∧ body.labelTarget? name = some stmt) ∨
      label = .head stmt ∨ label = .endOf stmt ∨
      ∃ child ∈ body.children stmt, label = .caseOf child ∨ label = .elseOf child := by
  have child {child : StmtId} (mem : child ∈ shape.children) : child ∈ body.children stmt :=
    mem_children_of_get? found mem
  cases shape with
  | labeled name inner =>
    exact .inl ⟨name, List.mem_singleton.mp mem, wf.labelTarget?_eq_some.mpr ⟨inner, found⟩⟩
  | conditional condition thenBranch elseBranch =>
    cases elseBranch with
    | none => exact .inr (.inr (.inl (List.mem_singleton.mp mem)))
    | some elseBranch =>
      simp only [Statement.labels, List.mem_cons, List.not_mem_nil, or_false] at mem
      rcases mem with rfl | rfl
      · exact .inr (.inr (.inr ⟨_, child (by simp [Statement.children]), .inr rfl⟩))
      · exact .inr (.inr (.inl rfl))
  | switch sections default =>
    simp only [Statement.labels, List.mem_append, List.mem_map, List.mem_singleton] at mem
    rcases mem with ⟨part, listed, rfl⟩ | rfl
    · exact .inr (.inr (.inr ⟨part, child listed, .inl rfl⟩))
    · exact .inr (.inr (.inl rfl))
  | loop condition inner =>
    simp only [Statement.labels, List.mem_cons, List.not_mem_nil, or_false] at mem
    rcases mem with rfl | rfl
    · exact .inr (.inl rfl)
    · exact .inr (.inr (.inl rfl))
  | tryBlock | synthetic => exact .inr (.inr (.inl (List.mem_singleton.mp mem)))
  | _ => cases mem

/-- A label belongs to one statement. -/
theorem labels_unique (wf : body.WellFormed) {first second : StmtId} {shape shape' : Statement}
    (found : body.get? first = some shape) (found' : body.get? second = some shape')
    {label : LabelKey} (mem : label ∈ shape.labels first) (mem' : label ∈ shape'.labels second) :
    first = second := by
  have tree := wf.toIsTree
  rcases wf.owner_of_label found mem with
    ⟨name, rfl, target⟩ | rfl | rfl | ⟨child, member, rfl | rfl⟩
  · rcases wf.owner_of_label found' mem' with
      ⟨name', h, target'⟩ | h | h | ⟨child', member', h | h⟩ <;> cases h
    rw [target] at target'
    exact Option.some.inj target'
  all_goals
    rcases wf.owner_of_label found' mem' with
      ⟨name', h, target'⟩ | h | h | ⟨child', member', h | h⟩ <;> cases h
  · rfl
  · rfl
  · exact tree.parent_unique member member'
  · exact tree.parent_unique member member'

/-- No label of a statement is placed twice by its template. -/
theorem nodup_labels (wf : body.WellFormed) {stmt : StmtId} {shape : Statement}
    (found : body.get? stmt = some shape) : (shape.labels stmt).Nodup := by
  cases shape with
  | switch sections default =>
    have nodup : sections.Nodup := by
      have := wf.nodup_children stmt
      rwa [children_of_get? found] at this
    rw [Statement.labels, List.nodup_append]
    refine ⟨nodup.map fun _ _ h ↦ LabelKey.caseOf.inj h, List.nodup_singleton _, ?_⟩
    intro label mem other mem' same
    obtain ⟨part, -, rfl⟩ := List.mem_map.mp mem
    rw [List.mem_singleton.mp mem'] at same
    cases same
  | conditional condition thenBranch elseBranch => cases elseBranch <;> simp [Statement.labels]
  | _ => simp [Statement.labels]

end Body.WellFormed

namespace Flow

variable {flow : Flow} {root : StmtId}

/-- The code of a statement places the labels of the statements inside, each of them once. -/
theorem nodup_marks (config : Config) (wf : flow.body.WellFormed) {stmt : StmtId}
    (has : flow.body.has stmt = true) (scopes : List StmtId) :
    (flow.emit config stmt scopes).marks.Nodup ∧
      ∀ label ∈ (flow.emit config stmt scopes).marks, ∃ inner shape,
        flow.body.Inside stmt inner ∧ flow.body.get? inner = some shape ∧
          label ∈ shape.labels inner := by
  have tree := wf.toIsTree
  revert scopes
  refine tree.inductionUp (motive := fun stmt ↦ ∀ scopes,
    (flow.emit config stmt scopes).marks.Nodup ∧
      ∀ label ∈ (flow.emit config stmt scopes).marks, ∃ inner shape,
        flow.body.Inside stmt inner ∧ flow.body.get? inner = some shape ∧
          label ∈ shape.labels inner)
    (fun stmt shape found ih scopes ↦ ?_) has
  -- Each part of the template has its labels below a child of its own.
  have part {part : CodePart}
      (mem : part ∈ (flow.template config scopes stmt shape).nested ⟨0, 0, []⟩) :
      part.stmt ∈ flow.body.children stmt ∧ part.inner.marks.Nodup ∧
        ∀ label ∈ part.inner.marks, ∃ inner shape, flow.body.Inside part.stmt inner ∧
          flow.body.get? inner = some shape ∧ label ∈ shape.labels inner := by
    obtain ⟨scopes', nests⟩ := nests_template tree found scopes _ part mem
    have child := (mem_children_of_nested tree found mem).1
    have := ih part.stmt (Body.children_of_get? found ▸ child) scopes'
    rw [nests.code, Code.marks] at this
    exact ⟨child, this⟩
  rw [emit_eq _ tree found, Code.marks]
  have listed := Code.marks_perm (flow.template config scopes stmt shape) ⟨0, 0, []⟩
  rw [ownMarks_template config tree found] at listed
  constructor
  · rw [listed.nodup_iff, List.nodup_append]
    refine ⟨wf.nodup_labels found, ?_, ?_⟩
    · rw [List.nodup_flatMap]
      refine ⟨fun inner listed ↦ (part listed).2.1, ?_⟩
      refine (pairwise_nested config tree found scopes ⟨0, 0, []⟩).imp_of_mem
        fun mem mem' different ↦ ?_
      obtain ⟨child, -, below⟩ := part mem
      obtain ⟨child', -, below'⟩ := part mem'
      intro label inside inside'
      obtain ⟨inner, shape, within, found, owned⟩ := below label inside
      obtain ⟨inner', shape', within', found', owned'⟩ := below' label inside'
      cases wf.labels_unique found found' owned owned'
      exact different (tree.child_unique child child' within within')
    · intro label own label' nested same
      subst same
      obtain ⟨inner, listed, mem⟩ := List.mem_flatMap.mp nested
      obtain ⟨child, -, below⟩ := part listed
      obtain ⟨inner, shape, within, found', owned⟩ := below label mem
      cases wf.labels_unique found found' own owned
      exact tree.not_inside_parent child within
  · intro label mem
    rcases List.mem_append.mp (listed.subset mem) with own | nested
    · exact ⟨stmt, shape, .refl, found, own⟩
    · obtain ⟨inner, listed, mem⟩ := List.mem_flatMap.mp nested
      obtain ⟨child, -, below⟩ := part listed
      obtain ⟨inner, shape, within, found, owned⟩ := below label mem
      exact ⟨inner, shape, (Body.Inside.of_child child).trans within, found, owned⟩

/-- A label of a statement that is laid out stands outside the regions of the statement. -/
theorem Laid.mark_mem {config : Config} {start : Place} (tree : flow.body.IsTree) {stmt : StmtId}
    {scopes : List StmtId} {place : Place} {shape : Statement}
    (laid : flow.Laid config root start stmt scopes place)
    (found : flow.body.get? stmt = some shape) {label : LabelKey}
    (mem : label ∈ shape.labels stmt) :
    ∃ at', (.mark label, at') ∈ (flow.template config scopes stmt shape).own place ∧
      (.mark label, at') ∈ (flow.emit config root []).tokens start ∧
      at'.guards = place.guards := by
  rw [← ownMarks_template config tree found scopes] at mem
  obtain ⟨at', own⟩ := Code.mem_ownMarks.mp mem
  exact ⟨at', own, laid.own_mem tree found own,
    (forall_own_template config tree found scopes place _ own).2⟩

/-- The label of a jump inside a method is one of its target. -/
theorem Accepted.labelKey_mem (accepted : flow.Accepted) {stmt : StmtId} {target : JumpTarget}
    (resolved : flow.target? stmt = some target) (stays : target.isReturn = false) :
    flow.body.has stmt = true ∧ flow.body.methodOf target.scope = flow.body.methodOf stmt ∧
      ∃ shape, flow.body.get? target.scope = some shape ∧
        target.labelKey ∈ shape.labels target.scope := by
  obtain ⟨form, route, found, routed, rfl⟩ := accepted.target?_eq_some.mp resolved
  have tree := accepted.wellFormed.toIsTree
  have has := Body.has_iff_get?.mpr ⟨_, found⟩
  have resolved := accepted.resolved_of_routed found routed
  refine ⟨has, (resolved.scope_spec tree has).2, ?_⟩
  cases target : route.target with
  | atLabel label labeled =>
    rw [target] at resolved
    cases resolved with
    | goto found => exact ⟨_, found, List.mem_singleton_self _⟩
  | breakOf construct =>
    rw [target] at resolved
    cases resolved with
    | breakOut _ _ _ breakable =>
      obtain ⟨shape, found, breakable⟩ := (Option.any_eq_true _ _).mp breakable
      refine ⟨shape, found, ?_⟩
      cases shape with
      | loop | switch => simp [Statement.labels, JumpTarget.labelKey, JumpTarget.scope]
      | _ => cases breakable
  | continueOf loop =>
    rw [target] at resolved
    cases resolved with
    | continueLoop _ _ _ isLoop =>
      obtain ⟨shape, found, isLoop⟩ := (Option.any_eq_true _ _).mp isLoop
      refine ⟨shape, found, ?_⟩
      cases shape with
      | loop => simp [Statement.labels, JumpTarget.labelKey, JumpTarget.scope]
      | _ => cases isLoop
  | returnFrom root =>
    rw [target] at stays
    cases stays

/-- The labels that the code of a method names are its own, or its exit. -/
theorem Accepted.mem_marks_of_named (accepted : flow.Accepted) (config : Config)
    (member : root ∈ flow.body.methods) {source : StmtId} {operation : Instruction LabelKey}
    (mem : (source, operation) ∈ (flow.emit config root []).instrs) {label : LabelKey}
    (named : label ∈ operation.targets) :
    label ∈ (flow.emit config root []).marks ∨ label = .methodExit := by
  have tree := accepted.wellFormed.toIsTree
  have rooted := tree.has_of_mem_methods member
  obtain ⟨index, listed⟩ := List.mem_iff_getElem?.mp mem
  obtain ⟨at', token, -⟩ := (@Code.getElem?_instrs _ ⟨0, 0, []⟩ ..).mp listed
  obtain ⟨stmt, scopes, place, shape, laid, found, own⟩ := exists_own tree rooted token (by simp)
  have placed {stmt : StmtId} {scopes : List StmtId} {place : Place} {shape : Statement}
      (laid : flow.Laid config root ⟨0, 0, []⟩ stmt scopes place)
      (found : flow.body.get? stmt = some shape) (mem : label ∈ shape.labels stmt) :
      label ∈ (flow.emit config root []).marks := by
    obtain ⟨at', -, token, -⟩ := laid.mark_mem tree found mem
    exact Code.mem_marks.mpr ⟨at', token⟩
  obtain ⟨rfl, fits⟩ := forall_own_template config tree found scopes place _ own
  cases fits with
  | plain targets =>
    rw [targets] at named
    cases named
  | branch targets => exact .inl (placed laid found (targets label named))
  | leave target =>
    cases List.mem_singleton.mp named
    exact .inl (placed laid found target)
  | jump resolved by' =>
    have inMethod {target : JumpTarget} (resolved : flow.target? source = some target)
        (stays : target.isReturn = false) :
        target.labelKey ∈ (flow.emit config root []).marks := by
      obtain ⟨has, same, shape, found, mem⟩ := accepted.labelKey_mem resolved stays
      have inside := laid.inside tree
      have same := same.trans inside.2
      have has' := Body.has_iff_get?.mpr ⟨_, found⟩
      have around := (tree.methodOf_spec has').2
      rw [same, tree.methodOf_of_mem_methods member] at around
      obtain ⟨scopes, place, laid⟩ := Laid.exists_place config ⟨0, 0, []⟩ tree around has' same
      obtain ⟨at', -, token, -⟩ := laid.mark_mem tree found mem
      exact Code.mem_marks.mpr ⟨at', token⟩
    cases by' with
    | ret => cases named
    | leaveMethod => exact .inr (List.mem_singleton.mp named)
    | branch stays | leave stays =>
      cases List.mem_singleton.mp named
      exact .inl (inMethod resolved stays)

/-- The statements in the code of a method are those that run in the method. -/
theorem mem_statements_iff (config : Config) (tree : flow.body.IsTree)
    (rooted : flow.body.has root = true) {stmt : StmtId} :
    stmt ∈ (flow.emit config root []).statements ↔ flow.body.has stmt = true ∧
      flow.body.Inside root stmt ∧ flow.body.methodOf stmt = flow.body.methodOf root := by
  rw [← Code.filterMap_entry? _ ⟨0, 0, []⟩, List.mem_filterMap]
  constructor
  · rintro ⟨⟨token, at'⟩, listed, starts⟩
    have same : token = .node (.entry stmt) := by
      cases token with
      | node node =>
        cases node <;> cases starts
        rfl
      | _ => cases starts
    rw [same] at listed
    obtain ⟨other, scopes, place, shape, laid, found, belongs⟩ := exists_origin tree rooted listed
    rcases belongs with entry | own | ending
    · cases entry
      exact ⟨laid.has tree rooted, laid.inside tree⟩
    · exact (forall_own_template config tree found scopes place _ own).elim
    · cases ending
  · rintro ⟨has, inside, same⟩
    obtain ⟨scopes, place, laid⟩ := Laid.exists_place config ⟨0, 0, []⟩ tree inside has same
    exact ⟨_, laid.entry_mem tree rooted, rfl⟩

/-- The code of the method at `root` with its epilogue. -/
def methodCode (flow : Flow) (config : Config) (root : StmtId) : Code :=
  flow.emit config root [] ++ flow.epilogue root (flow.emit config root []).layout

/-- The head of the region of a whole method. -/
def methodHead (flow : Flow) (root : StmtId) : RegionHead :=
  ⟨.method, .method, root, none, flow.exits (.ofScope root root)⟩

/-- The tree that the code of the method at `root` is laid out to. -/
def methodTree (flow : Flow) (config : Config) (root : StmtId) : RegionTree where
  regions := (Code.region (flow.methodHead root) (flow.methodCode config root)).regions 0 0 none
  instructions := (flow.methodCode config root).linked
  method := root

/-- A method has an epilogue or none. -/
theorem epilogue_cases (flow : Flow) (root : StmtId) (layout : Layout) :
    flow.epilogue root layout = .nothing ∨
      flow.epilogue root layout = .mark .methodExit ++ .instr root .ret := by
  rw [epilogue]
  cases flow.runsOn root || layout.mentions .methodExit || layout.targets layout.offset
  · exact .inl rfl
  · exact .inr rfl

/-- An epilogue is the exit of the method and a return there. -/
theorem mem_epilogue {root : StmtId} {layout : Layout} {place : Place} {entry : Token × Place}
    (mem : entry ∈ (flow.epilogue root layout).tokens place) :
    entry = (.mark .methodExit, place) ∨ entry = (.instr root .ret, place) := by
  rcases flow.epilogue_cases root layout with none | some
  · rw [none] at mem
    cases mem
  · rw [some] at mem
    exact (List.mem_cons.mp mem).imp_right List.mem_singleton.mp

/-- The exit of a method is no label of a statement. -/
theorem methodExit_not_mem {stmt : StmtId} {shape : Statement} :
    LabelKey.methodExit ∉ shape.labels stmt := by
  intro mem
  cases shape with
  | conditional condition thenBranch elseBranch =>
    cases elseBranch <;> simp [Statement.labels] at mem
  | _ => simp [Statement.labels] at mem

/-- The code of a method with its epilogue places no label twice. -/
theorem nodup_marks_methodCode (config : Config) (wf : flow.body.WellFormed)
    (member : root ∈ flow.body.methods) : (flow.methodCode config root).marks.Nodup := by
  obtain ⟨nodup, owned⟩ := nodup_marks config wf (wf.toIsTree.has_of_mem_methods member) []
  rw [methodCode]
  rcases flow.epilogue_cases root (flow.emit config root []).layout with none | some
  · rw [none]
    show ((flow.emit config root []).marks ++ []).Nodup
    rw [List.append_nil]
    exact nodup
  · rw [some]
    show ((flow.emit config root []).marks ++ [LabelKey.methodExit]).Nodup
    rw [List.nodup_append]
    refine ⟨nodup, List.nodup_singleton _, fun label mem label' mem' same ↦ ?_⟩
    rw [List.mem_singleton.mp mem'] at same
    subst same
    obtain ⟨stmt, shape, -, -, listed⟩ := owned _ mem
    exact methodExit_not_mem listed

/-- The labels that the code of a method with its epilogue names are placed. -/
theorem Accepted.placed_methodCode (accepted : flow.Accepted) (config : Config)
    (member : root ∈ flow.body.methods) :
    ∀ entry ∈ (flow.methodCode config root).instrs, ∀ label ∈ entry.2.targets,
      label ∈ (flow.methodCode config root).marks := by
  rintro ⟨source, operation⟩ mem label named
  have listed : (source, operation) ∈ (flow.emit config root []).instrs := by
    rcases List.mem_append.mp mem with mem | mem
    · exact mem
    · rcases flow.epilogue_cases root (flow.emit config root []).layout with none | some
      · rw [none] at mem
        cases mem
      · rw [some] at mem
        cases List.mem_singleton.mp mem
        cases named
  rcases accepted.mem_marks_of_named config member listed named with mem | rfl
  · exact List.mem_append_left _ mem
  · -- A leave to the exit of the method makes an epilogue.
    have mentions : (flow.emit config root []).layout.mentions .methodExit = true :=
      Code.mentions_layout.mpr ⟨_, listed, named⟩
    rw [methodCode, epilogue, mentions, Bool.or_true, Bool.true_or]
    exact List.mem_append_right _ List.mem_cons_self

/-- The code of a method is laid out and linked. -/
theorem Accepted.lay_methodCode (accepted : flow.Accepted) (config : Config)
    (member : root ∈ flow.body.methods) :
    (flow.emit config root []).lay .empty = .ok (flow.emit config root []).layout ∧
      (flow.methodCode config root).lay .empty = .ok (flow.methodCode config root).layout ∧
      (flow.methodCode config root).layout.link = .ok (flow.methodCode config root).linked := by
  have nodup := nodup_marks_methodCode config accepted.wellFormed member
  refine ⟨Code.lay_empty (List.Nodup.of_append_left nodup), Code.lay_empty nodup, ?_⟩
  exact Code.link_layout (accepted.placed_methodCode config member)

end Flow
end ProtectedRegions
