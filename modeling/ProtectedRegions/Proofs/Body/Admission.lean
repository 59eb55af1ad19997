import Mathlib.Data.List.Count
import ProtectedRegions.Proofs.Body.Search

/-!
# Admission of drafts

A draft is accepted if and only if it is a tree: every statement but the root is named as a child
exactly once and hangs off the root, and labels, handlers, catch locals and default sections are in
order. Each check is first said as a condition on what it reads, and the conditions are then put
together. The body of an accepted draft has the parents and the labels that its statements say.
-/

namespace ProtectedRegions

namespace Draft

/-- All children that the statements name, in id order of the latter. -/
def named (draft : Draft) : List StmtId := draft.statements.toList.flatMap Statement.children

/-- The conditions under which the statements of a draft are the body of a method. -/
structure WellFormed (draft : Draft) : Prop where
  root_lt : draft.root.index < draft.size
  child_lt {child : StmtId} : child ∈ draft.named → child.index < draft.size
  root_free : draft.root ∉ draft.named
  named_once {stmt : StmtId} : stmt.index < draft.size → stmt ≠ draft.root →
    draft.named.count stmt = 1
  attached {stmt : StmtId} : stmt.index < draft.size → draft.Attached stmt
  allocated {stmt inner : StmtId} {label : LabelId} :
    draft.statements.shape? stmt = some (.labeled label inner) → label.index < draft.labelCount
  label_unique {first second inner inner' : StmtId} {label : LabelId} :
    draft.statements.shape? first = some (.labeled label inner) →
    draft.statements.shape? second = some (.labeled label inner') → first = second
  goto_defined {jump : StmtId} {label : LabelId} :
    draft.statements.shape? jump = some (.jump (.goto label)) →
    ∃ stmt inner, draft.statements.shape? stmt = some (.labeled label inner)
  handled {stmt : StmtId} {parts : TryStatement} :
    draft.statements.shape? stmt = some (.tryBlock parts) →
    parts.catches ≠ [] ∨ parts.handler.isSome = true
  bound_once : (bindersOf draft.statements.entries).Nodup
  default_lt {stmt : StmtId} {sections : List StmtId} {default : Nat} :
    draft.statements.shape? stmt = some (.switch sections (some default)) →
    default < sections.length

variable {draft : Draft}

/-! ### The census -/

/-- What the census asks of a shape on its own. -/
structure Sound (draft : Draft) (shape : Statement) : Prop where
  children {child : StmtId} :
    child ∈ shape.children → child.index < draft.size ∧ child ≠ draft.root
  complete : shape.IsComplete
  allocated {label : LabelId} :
    shape.definedLabel? = some label → label.index < draft.labelCount

/-- What is defined by one statement, or by several, is defined there once and not before. -/
private def Fresh {α : Type} (new known : List α) : Prop := new.Nodup ∧ new.Disjoint known

private theorem fresh_nil {α : Type} {known : List α} : Fresh [] known :=
  ⟨List.nodup_nil, List.disjoint_nil_left known⟩

private theorem fresh_singleton {α : Type} {a : α} {known : List α} :
    Fresh [a] known ↔ a ∉ known := by
  simp [Fresh]

private theorem fresh_append {α : Type} {first second known : List α} :
    Fresh (first ++ second) known ↔ Fresh first known ∧ Fresh second (first.reverse ++ known) := by
  simp only [Fresh, List.nodup_append', List.disjoint_append_left, List.disjoint_append_right,
    List.disjoint_reverse_right, @List.disjoint_comm _ second first]
  tauto

private theorem exists_bind_iff {binders : List LocalId} {before : Census} :
    (∃ after, binders.foldlM Census.bind before = .ok after) ↔ Fresh binders before.binders := by
  induction binders generalizing before with
  | nil => exact iff_of_true ⟨before, rfl⟩ fresh_nil
  | cons binder rest ih =>
    have bound {middle : Census} : before.bind binder = .ok middle ↔
        binder ∉ before.binders ∧ { before with binders := binder :: before.binders } = middle := by
      unfold Census.bind
      split
      · next known => simp [known]
      · next fresh => simp [fresh]
    rw [← List.singleton_append, fresh_append, fresh_singleton]
    simp only [List.singleton_append, List.foldlM_cons, Outcome.bind_eq_ok, bound]
    constructor
    · rintro ⟨after, _, ⟨fresh, rfl⟩, later⟩
      exact ⟨fresh, ih.mp ⟨after, later⟩⟩
    · rintro ⟨fresh, later⟩
      obtain ⟨after, later⟩ := (@ih { before with binders := binder :: before.binders }).mpr later
      exact ⟨after, _, ⟨fresh, rfl⟩, later⟩

private theorem exists_defineLabel_iff {before : Census} {stmt : StmtId} {label : LabelId} :
    (∃ after, before.defineLabel draft.labelCount stmt label = .ok after) ↔
      label.index < draft.labelCount ∧ Fresh [label] (before.definitions.map (·.1)) := by
  rw [fresh_singleton, ← lookup_eq_none, Census.defineLabel]
  split
  · next refused => simp [Nat.not_lt.mpr refused]
  · next allocated =>
    cases before.definitions.lookup label <;> simp [Nat.lt_of_not_le allocated]

private theorem isComplete_tryBlock_iff {parts : TryStatement} :
    ¬ (parts.catches.isEmpty && parts.handler.isNone) = true ↔
      (Statement.tryBlock parts).IsComplete := by
  cases catches : parts.catches <;> cases handler : parts.handler <;>
    simp [Statement.IsComplete, catches, handler]

private theorem checkChildren_eq_ok {stmt : StmtId} {shape : Statement} :
    shape.children.forM (draft.checkChild stmt) = .ok () ↔
      ∀ child ∈ shape.children, child.index < draft.size ∧ child ≠ draft.root :=
  Outcome.forM_eq_ok.trans (forall₂_congr fun _ _ ↦ checkChild_eq_ok)

/-- A check that may refuse gives a result if it does not refuse and what follows gives one. -/
private theorem exists_ite_ok {p : Prop} [Decidable p] {error : Error} {x : Except Error Census} :
    (∃ after, (if p then .error error else x) = .ok after) ↔ ¬ p ∧ ∃ after, x = .ok after := by
  split <;> simp [*]

private theorem sound_iff {shape : Statement} : draft.Sound shape ↔
    (∀ child ∈ shape.children, child.index < draft.size ∧ child ≠ draft.root) ∧
      shape.IsComplete ∧
        ∀ label, shape.definedLabel? = some label → label.index < draft.labelCount := by
  constructor
  · intro sound
    exact ⟨fun _ ↦ sound.children, sound.complete, fun _ ↦ sound.allocated⟩
  · rintro ⟨children, complete, allocated⟩
    exact ⟨@children, complete, @allocated⟩

/-- A statement is recorded if its shape is sound and it defines a new label and new locals. -/
private theorem exists_record_iff {before : Census} {stmt : StmtId} {shape : Statement} :
    (∃ after, Census.record draft before (stmt, shape) = .ok after) ↔
      draft.Sound shape ∧ Fresh shape.definedLabel?.toList (before.definitions.map (·.1)) ∧
        Fresh shape.binders before.binders := by
  unfold Census.record
  simp only [Outcome.bind_eq_ok, Unique.exists_iff, exists_and_left]
  rw [sound_iff, and_assoc]
  refine and_congr checkChildren_eq_ok ?_
  have plain : (∃ after, Except.ok before = (Except.ok after : Except Error Census)) ↔ True :=
    iff_true_intro ⟨before, rfl⟩
  cases shape with
  | labeled label body =>
    simp [exists_defineLabel_iff, Statement.definedLabel?, Statement.IsComplete, Statement.binders,
      fresh_nil]
  | tryBlock parts =>
    simp only [exists_ite_ok, isComplete_tryBlock_iff, exists_bind_iff]
    simp [Statement.definedLabel?, Statement.binders, fresh_nil]
  | switch sections default =>
    cases default with
    | none => simp [Statement.definedLabel?, Statement.IsComplete, Statement.binders, fresh_nil]
    | some default =>
      simp only [exists_ite_ok, plain]
      simp [Statement.definedLabel?, Statement.IsComplete, Statement.binders, fresh_nil]
  | _ => simp [Statement.definedLabel?, Statement.IsComplete, Statement.binders, fresh_nil]

private theorem exists_recordAll_iff {entries : List (StmtId × Statement)} {before : Census} :
    (∃ after, entries.foldlM (Census.record draft) before = .ok after) ↔
      (∀ entry ∈ entries, draft.Sound entry.2) ∧
        Fresh ((definitionsOf entries).map (·.1)) (before.definitions.map (·.1)) ∧
        Fresh (bindersOf entries) before.binders := by
  induction entries generalizing before with
  | nil => exact iff_of_true ⟨before, rfl⟩ ⟨List.forall_mem_nil _, fresh_nil, fresh_nil⟩
  | cons entry rest ih =>
    obtain ⟨stmt, shape⟩ := entry
    have labels : (definitionsOf ((stmt, shape) :: rest)).map (·.1) =
        shape.definedLabel?.toList ++ (definitionsOf rest).map (·.1) := by
      cases label : shape.definedLabel? <;> simp [definitionsOf, label]
    have locals : bindersOf ((stmt, shape) :: rest) = shape.binders ++ bindersOf rest := rfl
    -- What is known after the first statement.
    have known {middle : Census} (first : Census.record draft before (stmt, shape) = .ok middle) :
        middle.definitions.map (·.1) =
            shape.definedLabel?.toList.reverse ++ before.definitions.map (·.1) ∧
          middle.binders = shape.binders.reverse ++ before.binders := by
      obtain ⟨-, -, definitions, binders, -⟩ := record_eq_ok first
      refine ⟨?_, binders⟩
      rw [definitions]
      cases shape.definedLabel? <;> rfl
    simp only [List.foldlM_cons, Outcome.bind_eq_ok, List.forall_mem_cons, labels, locals,
      fresh_append]
    constructor
    · rintro ⟨after, middle, first, later⟩
      obtain ⟨sound, fresh, fresh'⟩ := exists_record_iff.mp ⟨middle, first⟩
      obtain ⟨sounds, later, later'⟩ := ih.mp ⟨after, later⟩
      rw [(known first).1] at later
      rw [(known first).2] at later'
      exact ⟨⟨sound, sounds⟩, ⟨fresh, later⟩, fresh', later'⟩
    · rintro ⟨⟨sound, sounds⟩, ⟨fresh, later⟩, fresh', later'⟩
      obtain ⟨middle, first⟩ := exists_record_iff.mpr ⟨sound, fresh, fresh'⟩
      rw [← (known first).1] at later
      rw [← (known first).2] at later'
      obtain ⟨after, rest⟩ := ih.mpr ⟨sounds, later, later'⟩
      exact ⟨after, middle, first, rest⟩

/-- The census is taken if all shapes are sound and define labels and catch locals once. -/
theorem exists_census_iff : (∃ census, draft.census = .ok census) ↔
    (∀ stmt shape, draft.statements.shape? stmt = some shape → draft.Sound shape) ∧
      ((definitionsOf draft.statements.entries).map (·.1)).Nodup ∧
      (bindersOf draft.statements.entries).Nodup := by
  unfold census
  rw [exists_recordAll_iff]
  simp only [Prod.forall, StatementTable.mem_entries, Fresh, List.map_nil,
    List.disjoint_nil_right, and_true]

/-! ### Parents -/

/-- The adopted statements are the named ones, in order. -/
theorem map_adoptions : draft.adoptions.map (·.1) = draft.named := by
  have shapes : draft.statements.toList = draft.statements.entries.map (·.2) := by
    simp [StatementTable.entries, Function.comp_def]
  rw [named, shapes, List.flatMap_map, adoptions, List.map_flatMap]
  simp [Function.comp_def]

/-- A statement is named if it is a child of some statement. -/
theorem mem_named {child : StmtId} :
    child ∈ draft.named ↔ ∃ parent, child ∈ draft.statements.childrenOf parent := by
  simp only [← map_adoptions, List.mem_map, Prod.exists, mem_adoptions, exists_and_right,
    exists_eq_right]

/-- Adoptions go through if they are of different statements that have no parent yet. -/
private theorem exists_adoptAll {adoptions : List (StmtId × StmtId)}
    {before : Array (Option StmtId)}
    (inside : ∀ adoption ∈ adoptions, adoption.1.index < before.size)
    (nodup : (adoptions.map (·.1)).Nodup)
    (free : ∀ adoption ∈ adoptions, before[adoption.1.index]?.join = none) :
    ∃ after, adoptions.foldlM adopt before = .ok after := by
  induction adoptions generalizing before with
  | nil => exact ⟨before, rfl⟩
  | cons adoption rest ih =>
    obtain ⟨child, parent⟩ := adoption
    rw [List.map_cons, List.nodup_cons] at nodup
    rw [List.forall_mem_cons] at inside free
    have adopted : adopt before (child, parent) =
        .ok (before.setIfInBounds child.index (some parent)) := by
      simp only [adopt, free.1]
    obtain ⟨after, later⟩ := @ih (before.setIfInBounds child.index (some parent))
      (by simpa using inside.2) nodup.2 fun adoption mem ↦ by
        have other : adoption.1 ≠ child := fun same ↦
          nodup.1 (List.mem_map.mpr ⟨adoption, mem, same⟩)
        rw [join_setIfInBounds inside.1, if_neg other]
        exact free.2 adoption mem
    exact ⟨after, by rw [List.foldlM_cons, adopted]; exact later⟩

/-- If all named statements are in range, each gets a parent if none is named twice. -/
theorem exists_parents_iff (inside : ∀ child ∈ draft.named, child.index < draft.size) :
    (∃ parents, draft.parents = .ok parents) ↔ draft.named.Nodup := by
  have inside' (adoption : StmtId × StmtId) (mem : adoption ∈ draft.adoptions) :
      adoption.1.index < draft.size :=
    inside _ (map_adoptions ▸ List.mem_map_of_mem mem)
  rw [← map_adoptions]
  constructor
  · rintro ⟨parents, adopted⟩
    exact (adopt_all (Array.size_replicate ..) inside' adopted).2.1
  · intro nodup
    refine exists_adoptAll (by simpa using inside') nodup fun adoption mem ↦ ?_
    rw [Array.getElem?_replicate]
    split <;> rfl

/-- Once the children have passed and the parents are entered, nothing is named twice. -/
theorem hangs_of_parents {parents : Array (Option StmtId)}
    (root_lt : draft.root.index < draft.size)
    (passed : ∀ child ∈ draft.named, child.index < draft.size ∧ child ≠ draft.root)
    (adopted : draft.parents = .ok parents) : draft.Hangs := by
  have inside (child parent : StmtId) (mem : child ∈ draft.statements.childrenOf parent) :=
    passed child (mem_named.mpr ⟨parent, mem⟩)
  obtain ⟨entered, nodup⟩ := parents_eq_ok adopted fun child parent mem ↦
    (inside child parent mem).1
  refine ⟨root_lt, fun mem ↦ (inside _ _ mem).1, fun parent mem ↦ (inside _ _ mem).2 rfl, nodup, ?_⟩
  intro first second child mem mem'
  have found := (entered _ _).mpr mem
  rw [(entered _ _).mpr mem'] at found
  exact (Option.some.inj found).symm

/-! ### Labels -/

/-- No label is undefined if each `goto` names one that is looked up with success. -/
theorem undefinedLabel?_eq_none_iff {definitions : List (LabelId × StmtId)} :
    draft.undefinedLabel? definitions = none ↔ ∀ jump label,
      draft.statements.shape? jump = some (.jump (.goto label)) →
      ∃ stmt, definitions.lookup label = some stmt := by
  simp only [undefinedLabel?, List.findSome?_eq_none_iff]
  constructor
  · intro defined jump label found
    have mem : Statement.jump (.goto label) ∈ draft.statements.toList :=
      Array.mem_toList_iff.mpr (Array.mem_of_getElem? found)
    have := defined _ mem
    simp only [ite_eq_right_iff, reduceCtorEq, imp_false, Option.isNone_iff_eq_none] at this
    exact Option.ne_none_iff_exists'.mp this
  · intro defined shape mem
    obtain ⟨index, found⟩ := Array.mem_iff_getElem?.mp (Array.mem_toList_iff.mp mem)
    split
    · next label =>
      obtain ⟨stmt, found⟩ := defined ⟨index⟩ label found
      simp [found]
    · rfl

/-- The labels are defined once if no two statements define the same. -/
private theorem nodup_labels (unique : ∀ first second inner inner' label,
    draft.statements.shape? first = some (.labeled label inner) →
    draft.statements.shape? second = some (.labeled label inner') → first = second) :
    ((definitionsOf draft.statements.entries).map (·.1)).Nodup := by
  have ids : (draft.statements.entries.map (·.1)).Nodup := by
    have indices : draft.statements.entries.map (·.1) =
        (draft.statements.toList.zipIdx.map Prod.snd).map StmtId.mk := by
      rw [StatementTable.entries, List.map_map, List.map_map]
      rfl
    rw [indices, List.zipIdx_map_snd]
    exact (List.nodup_range' _).map fun _ _ same ↦ StmtId.mk.inj same
  have defining (entry : StmtId × Statement) (label : LabelId)
      (mem : entry ∈ draft.statements.entries) (defined : entry.2.definedLabel? = some label) :
      ∃ inner, draft.statements.shape? entry.1 = some (.labeled label inner) := by
    have found := StatementTable.mem_entries.mp mem
    cases shape : entry.2 <;> rw [shape] at defined found <;> cases defined
    exact ⟨_, found⟩
  have labels : (definitionsOf draft.statements.entries).map (·.1) =
      draft.statements.entries.filterMap (·.2.definedLabel?) := by
    rw [definitionsOf, List.map_filterMap]
    congr 1
    funext entry
    obtain ⟨stmt, shape⟩ := entry
    change (shape.definedLabel?.map (·, stmt)).map (·.1) = shape.definedLabel?
    simp [Function.comp_def]
  rw [labels, List.Nodup, List.pairwise_filterMap]
  refine (List.pairwise_map.mp ids).imp_of_mem fun {entry entry'} mem mem' apart ↦ ?_
  rintro label defined label' defined' rfl
  obtain ⟨inner, found⟩ := defining entry _ mem defined
  obtain ⟨inner', found'⟩ := defining entry' _ mem' defined'
  exact apart (unique _ _ _ _ _ found found')

/-! ### Admission -/

/-- Checks that are all passed make a body. -/
theorem toBody_of_checks {census : Census} {parents : Array (Option StmtId)}
    (root_lt : draft.root.index < draft.size) (counted : draft.census = .ok census)
    (adopted : draft.parents = .ok parents) (attached : draft.detached? = none)
    (defined : draft.undefinedLabel? census.definitions = none) :
    ∃ body, draft.toBody = .ok body := by
  refine ⟨⟨draft.statements, draft.root, parents, census.definitions, draft.localCount⟩, ?_⟩
  simp only [toBody, if_neg (Nat.not_le.mpr root_lt), Outcome.bind_eq_ok]
  refine ⟨census, counted, parents, adopted, ?_⟩
  rw [attached, defined]
  rfl

/-- A child of a statement that the census has read is a statement other than the root. -/
private theorem passed_of_sound
    (sound : ∀ stmt shape, draft.statements.shape? stmt = some shape → draft.Sound shape)
    (child : StmtId) (mem : child ∈ draft.named) :
    child.index < draft.size ∧ child ≠ draft.root := by
  obtain ⟨parent, mem⟩ := mem_named.mp mem
  unfold StatementTable.childrenOf at mem
  split at mem
  · next shape found => exact (sound parent shape found).children mem
  · cases mem

/-- A draft whose body is made is well-formed. -/
theorem wellFormed_of_accepted {body : Body} (accepted : draft.toBody = .ok body) :
    draft.WellFormed := by
  obtain ⟨census, parents, root_lt, counted, adopted, attached, defined, -⟩ :=
    toBody_eq_ok accepted
  obtain ⟨sound, -, bound⟩ := exists_census_iff.mp ⟨census, counted⟩
  obtain ⟨-, labels, -⟩ := census_eq_ok counted
  have passed := passed_of_sound sound
  have hangs := hangs_of_parents root_lt passed adopted
  have attached := (detached?_eq_none_iff hangs).mp attached
  have nodup := (exists_parents_iff fun child mem ↦ (passed child mem).1).mp ⟨parents, adopted⟩
  have goes := undefinedLabel?_eq_none_iff.mp defined
  refine {
    root_lt
    child_lt := fun mem ↦ (passed _ mem).1
    root_free := fun mem ↦ (passed _ mem).2 rfl
    named_once := fun {stmt} lt other ↦ ?_
    attached := attached _
    allocated := fun found ↦ (sound _ _ found).allocated rfl
    label_unique := fun {first second _ _ label} found found' ↦ ?_
    goto_defined := fun {jump label} found ↦ ?_
    handled := fun found ↦ (sound _ _ found).complete
    bound_once := bound
    default_lt := fun found ↦ (sound _ _ found).complete }
  · -- What hangs off the root is the root or a child.
    cases attached stmt lt with
    | root => exact absurd rfl other
    | child _ mem => exact List.count_eq_one_of_mem nodup (mem_named.mpr ⟨_, mem⟩)
  · have known := (labels label first).mpr ⟨_, found⟩
    rw [(labels label second).mpr ⟨_, found'⟩] at known
    exact (Option.some.inj known).symm
  · obtain ⟨stmt, known⟩ := goes jump label found
    obtain ⟨inner, found⟩ := (labels label stmt).mp known
    exact ⟨stmt, inner, found⟩

/-- A well-formed draft passes all checks. -/
theorem WellFormed.accepted (formed : draft.WellFormed) : ∃ body, draft.toBody = .ok body := by
  have passed (child : StmtId) (mem : child ∈ draft.named) :
      child.index < draft.size ∧ child ≠ draft.root :=
    ⟨formed.child_lt mem, fun same ↦ formed.root_free (same ▸ mem)⟩
  have nodup : draft.named.Nodup := by
    refine List.nodup_iff_count_le_one.mpr fun child ↦ ?_
    by_cases mem : child ∈ draft.named
    · exact Nat.le_of_eq (formed.named_once (passed child mem).1 (passed child mem).2)
    · rw [List.count_eq_zero_of_not_mem mem]
      exact Nat.zero_le 1
  have sound (stmt : StmtId) (shape : Statement)
      (found : draft.statements.shape? stmt = some shape) : draft.Sound shape := by
    refine ⟨fun {child} mem ↦ passed child (mem_named.mpr ⟨stmt, ?_⟩), ?_, fun {label} defined ↦ ?_⟩
    · rw [StatementTable.childrenOf, found]
      exact mem
    · cases shape with
      | tryBlock parts => exact formed.handled found
      | switch sections default =>
        cases default with
        | none => exact trivial
        | some default => exact formed.default_lt found
      | _ => exact trivial
    · cases shape <;> cases defined
      exact formed.allocated found
  obtain ⟨census, counted⟩ := exists_census_iff.mpr
    ⟨sound, nodup_labels fun _ _ _ _ _ ↦ formed.label_unique, formed.bound_once⟩
  obtain ⟨parents, adopted⟩ :=
    (exists_parents_iff fun child mem ↦ (passed child mem).1).mpr nodup
  have hangs := hangs_of_parents formed.root_lt passed adopted
  have attached := (detached?_eq_none_iff hangs).mpr fun _ ↦ formed.attached
  refine toBody_of_checks formed.root_lt counted adopted attached
    (undefinedLabel?_eq_none_iff.mpr fun jump label found ↦ ?_)
  obtain ⟨stmt, inner, found⟩ := formed.goto_defined found
  exact ⟨stmt, ((census_eq_ok counted).2.1 label stmt).mpr ⟨inner, found⟩⟩

end Draft

namespace Body

/-- The statement that is a number of steps further out. -/
def climb (body : Body) : Nat → StmtId → Option StmtId
  | 0, stmt => some stmt
  | steps + 1, stmt => (body.parent? stmt).bind (body.climb steps)

/-- From each statement the root is some number of steps out. -/
theorem IsTree.exists_climb {body : Body} (tree : body.IsTree) {stmt : StmtId}
    (has : body.has stmt = true) : ∃ steps, body.climb steps stmt = some body.root := by
  apply tree.inductionDown (motive := fun stmt ↦ ∃ steps, body.climb steps stmt = _) _ _ has
  · exact ⟨0, rfl⟩
  · rintro parent stmt mem ⟨steps, climbed⟩
    refine ⟨steps + 1, ?_⟩
    rw [climb, tree.parent?_eq_some.mpr mem]
    exact climbed

end Body

namespace Draft

/-- A draft is accepted if and only if it is well-formed. The body that it makes has its
statements, and the parents, the ways to the root and the labels are those that the statements say.
The search for detached statements, which does not look whether it has seen a statement before, is
made on drafts that may hold cycles; it ends after at most as many visits as there are statements,
and finds the first that is not visited. -/
theorem toBody_accepts_iff (draft : Draft) :
    ((∃ body, draft.toBody = .ok body) ↔ draft.WellFormed) ∧
    (∀ body, draft.toBody = .ok body →
      body.statements = draft.statements ∧ body.root = draft.root ∧
      (∀ child parent, body.parent? child = some parent ↔ child ∈ body.children parent) ∧
      (∀ stmt, body.has stmt = true → ∃ steps, body.climb steps stmt = some body.root) ∧
      ∀ label stmt, body.labelTarget? label = some stmt ↔
        ∃ inner, body.get? stmt = some (.labeled label inner)) ∧
    ∀ census parents, draft.root.index < draft.size → draft.census = .ok census →
      draft.parents = .ok parents →
      ∃ count ≤ draft.size, ∃ search, Search.Steps draft count (.start draft) search ∧
        search.next? draft = none ∧ draft.detached? =
          draft.statements.ids.find? fun stmt ↦ decide (stmt ∉ search.visited) := by
  refine ⟨⟨?_, WellFormed.accepted⟩, ?_, ?_⟩
  · rintro ⟨body, accepted⟩
    exact wellFormed_of_accepted accepted
  · intro body accepted
    have formed := wellFormed_of_toBody accepted
    obtain ⟨census, parents, -, -, -, -, -, rfl⟩ := toBody_eq_ok accepted
    exact ⟨rfl, rfl, fun _ _ ↦ formed.parent?_eq_some, fun _ ↦ formed.exists_climb,
      fun _ _ ↦ formed.labelTarget?_eq_some⟩
  · intro census parents root_lt counted adopted
    have passed := passed_of_sound (exists_census_iff.mp ⟨census, counted⟩).1
    have hangs := hangs_of_parents root_lt passed adopted
    obtain ⟨count, search, steps, finished⟩ := Search.exists_end hangs
    obtain ⟨invariant, length⟩ := steps.invariant hangs
    have le := invariant.length_le hangs
    exact ⟨count, by omega, search, steps, finished, detached?_eq hangs steps finished⟩

/-- A labeled statement with a jump to it, beside two blocks that are children of each other or,
untied, one of the other and of the root. -/
def knotted (tied : Bool) : Draft where
  statements := #[.jump (.goto ⟨0⟩), .labeled ⟨0⟩ ⟨0⟩, .block [⟨3⟩],
    .block (if tied then [⟨2⟩] else []), .block (⟨1⟩ :: if tied then [] else [⟨2⟩])]
  labelCount := 1
  localCount := 0
  root := ⟨4⟩

/-- The blocks are detached where they are tied, and the search still ends. -/
theorem toBody_accepts_iff_knotted :
    (¬ (knotted true).WellFormed ∧ ∃ count ≤ 5, ∃ search,
      Search.Steps (knotted true) count (.start (knotted true)) search ∧
        search.next? (knotted true) = none ∧ (knotted true).statements.ids.find? (fun stmt ↦
          decide (stmt ∉ search.visited)) = some ⟨2⟩) ∧
      ∃ body, (knotted false).toBody = .ok body ∧ (knotted false).WellFormed ∧
        body.parent? ⟨3⟩ = some ⟨2⟩ ∧ body.labelTarget? ⟨0⟩ = some ⟨1⟩ ∧
        ∃ steps, body.climb steps ⟨3⟩ = some body.root := by
  constructor
  · obtain ⟨accepts, -, ends⟩ := toBody_accepts_iff (knotted true)
    have refused : (knotted true).toBody.toOption = none := by
      decide +kernel
    have detached : (knotted true).detached? = some ⟨2⟩ := by
      decide +kernel
    refine ⟨fun formed ↦ ?_, ?_⟩
    · obtain ⟨body, accepted⟩ := accepts.mpr formed
      rw [accepted] at refused
      cases refused
    · obtain ⟨count, le, search, steps, finished, found⟩ := ends ⟨[(⟨0⟩, ⟨1⟩)], []⟩
        #[some ⟨1⟩, some ⟨4⟩, some ⟨3⟩, some ⟨2⟩, none] (by decide) rfl rfl
      exact ⟨count, le, search, steps, finished, found.symm.trans detached⟩
  · obtain ⟨accepts, keeps, -⟩ := toBody_accepts_iff (knotted false)
    have passes : (knotted false).toBody.toOption.any (fun body ↦ body.has ⟨3⟩ ∧
        ⟨3⟩ ∈ body.children ⟨2⟩ ∧ body.get? ⟨1⟩ = some (.labeled ⟨0⟩ ⟨0⟩)) = true := by
      decide +kernel
    cases made : (knotted false).toBody with
    | error => simp [made, Except.toOption] at passes
    | ok body =>
      rw [made, Except.toOption, Option.any_some] at passes
      obtain ⟨has, child, defined⟩ := of_decide_eq_true passes
      obtain ⟨-, -, parents, ways, labels⟩ := keeps body made
      exact ⟨body, rfl, accepts.mp ⟨body, made⟩, (parents _ _).mpr child,
        (labels _ _).mpr ⟨_, defined⟩, ways _ has⟩

end Draft
end ProtectedRegions
