import Mathlib.Data.List.Nodup
import ProtectedRegions.Code.Instruction
import ProtectedRegions.Proofs.Body.Methods
import ProtectedRegions.Proofs.Body.Nearest

/-!
# Document order

The statements of a method in document order, parents first, and the instructions that stand for
them. Expressions, closures, `throw` and `rethrow` stand for themselves, and the filter of a catch
clause stands in front of its body. Nothing here looks at what control can reach.
-/

namespace ProtectedRegions

/-- The instruction that stands for a statement of the given shape. -/
def Statement.payload? (stmt : StmtId) : Statement → Option (Instruction Nat)
  | .expression _ => some (.code stmt)
  | .throwException => some .throwException
  | .rethrow => some .rethrow
  | .lambda _ => some (.closure stmt)
  | _ => none

namespace Body

/-- The filter in front of a catch body. -/
def filterOf? (body : Body) (stmt : StmtId) : Option (Instruction Nat) :=
  match body.role? stmt, body.parent? stmt, body.parentShape? stmt with
  | some (.catchBody place), some owner, some (.tryBlock parts) =>
    if (parts.catches[place]?).any (·.isFiltered) then some (.filter owner place) else none
  | _, _, _ => none

/-- The instructions that stand in the place of a statement. -/
def payloadOf (body : Body) (stmt : StmtId) : List (Instruction Nat) :=
  (body.filterOf? stmt).toList ++ ((body.get? stmt).bind (·.payload? stmt)).toList

/-- The statements at and below a scope that run in its method, in document order. -/
def document (body : Body) (scope : StmtId) : List StmtId :=
  (body.statements.preorder scope).filter (body.methodOf · = body.methodOf scope)

/-- The instructions that stand for the statements of a scope, in document order, each with the
statement in whose place it stands. -/
def payload (body : Body) (scope : StmtId) : List (StmtId × Instruction Nat) :=
  (body.document scope).flatMap fun stmt ↦ (body.payloadOf stmt).map (stmt, ·)

/-- What stands in the place of a statement, read off its shape and that of its parent. -/
inductive Shows (body : Body) : StmtId → Instruction Nat → Prop
  | code {stmt : StmtId} {uses : List LocalId} (shaped : body.get? stmt = some (.expression uses)) :
      Shows body stmt (.code stmt)
  | closure {stmt inner : StmtId} (shaped : body.get? stmt = some (.lambda inner)) :
      Shows body stmt (.closure stmt)
  | throwException {stmt : StmtId} (shaped : body.get? stmt = some .throwException) :
      Shows body stmt .throwException
  | rethrow {stmt : StmtId} (shaped : body.get? stmt = some .rethrow) : Shows body stmt .rethrow
  | filter {owner : StmtId} {parts : TryStatement} {place : Nat} {clause : CatchClause}
      (shaped : body.get? owner = some (.tryBlock parts))
      (found : parts.catches[place]? = some clause) (filtered : clause.isFiltered = true) :
      Shows body clause.body (.filter owner place)

namespace IsTree

variable {body : Body} (tree : body.IsTree) {scope stmt : StmtId}

include tree

/-- What is inside a child is a statement. -/
theorem has_of_inside_child {parent : StmtId} (mem : scope ∈ body.children parent)
    (inside : body.Inside scope stmt) : body.has stmt = true :=
  tree.has_inside (tree.has_child mem) inside

/-! ### The walk -/

omit tree in
/-- A list with one member that contributes anything. -/
private theorem flatMap_of_unique {α β : Type} {list : List α} {part : α → List β} {only : α}
    (nodup : list.Nodup) (mem : only ∈ list)
    (empty : ∀ other ∈ list, other ≠ only → part other = []) : list.flatMap part = part only := by
  obtain ⟨before, after, rfl⟩ := List.append_of_mem mem
  obtain ⟨-, rest, distinct⟩ := List.nodup_append.mp nodup
  have first : before.flatMap part = [] := List.flatMap_eq_nil_iff.mpr fun other mem ↦
    empty other (by simp [mem]) (distinct other mem only List.mem_cons_self)
  have last : after.flatMap part = [] := List.flatMap_eq_nil_iff.mpr fun other mem ↦
    empty other (by simp [mem]) fun same ↦ (List.nodup_cons.mp rest).1 (same ▸ mem)
  rw [List.flatMap_append, List.flatMap_cons, first, last, List.nil_append, List.append_nil]

/-- The walk visits a statement before what is below it. -/
theorem preorder_eq (has : body.has stmt = true) : body.statements.preorder stmt =
    stmt :: (body.children stmt).flatMap body.statements.preorder :=
  tree.recurse_eq (fun _ _ _ same ↦ congrArg _ (List.flatMap_congr same)) has

/-- The walk visits what is inside. -/
theorem mem_preorder (has : body.has scope = true) :
    stmt ∈ body.statements.preorder scope ↔ body.Inside scope stmt := by
  refine tree.inductionBelow (motive := fun scope ↦
    stmt ∈ body.statements.preorder scope ↔ body.Inside scope stmt) ?_ has
  intro scope has ih
  rw [tree.preorder_eq has, List.mem_cons, List.mem_flatMap]
  constructor
  · rintro (rfl | ⟨child, mem, visited⟩)
    · exact .refl
    · exact (Inside.of_child mem).trans ((ih child mem).mp visited)
  · intro inside
    refine (exists_child_of_inside inside).imp_right ?_
    rintro ⟨child, mem, inside⟩
    exact ⟨child, mem, (ih child mem).mpr inside⟩

/-- The walk visits each statement once. -/
theorem nodup_preorder (has : body.has scope = true) :
    (body.statements.preorder scope).Nodup := by
  refine tree.inductionBelow (motive := fun scope ↦ (body.statements.preorder scope).Nodup) ?_ has
  intro scope has ih
  rw [tree.preorder_eq has, List.nodup_cons]
  constructor
  · intro mem
    obtain ⟨child, mem, visited⟩ := List.mem_flatMap.mp mem
    exact tree.not_inside_parent mem ((tree.mem_preorder (tree.has_child mem)).mp visited)
  · refine List.nodup_flatMap.mpr ⟨ih, (tree.nodup_children scope).imp_of_mem ?_⟩
    intro first second mem mem' different stmt visited visited'
    exact different (tree.child_unique mem mem'
      ((tree.mem_preorder (tree.has_child mem)).mp visited)
      ((tree.mem_preorder (tree.has_child mem')).mp visited'))

/-- What the walk over a scope visits inside another scope is the walk over that one. -/
theorem filter_preorder {outer inner : StmtId} (has : body.has inner = true)
    (inside : body.Inside outer inner) {p : StmtId → Bool}
    (decides : ∀ stmt, body.has stmt = true → (p stmt = true ↔ body.Inside inner stmt)) :
    (body.statements.preorder outer).filter p = body.statements.preorder inner := by
  refine tree.inductionBelow (motive := fun outer ↦ body.Inside outer inner →
    (body.statements.preorder outer).filter p = body.statements.preorder inner) ?_
    (has_of_inside inside has) inside
  intro outer hasOuter ih inside
  rcases exists_child_of_inside inside with rfl | ⟨child, mem, within⟩
  · rw [List.filter_eq_self]
    intro stmt visited
    have within := (tree.mem_preorder hasOuter).mp visited
    refine (decides stmt ?_).mpr within
    rcases exists_child_of_inside within with rfl | ⟨child, mem, within⟩
    · exact hasOuter
    · exact tree.has_of_inside_child mem within
  · have apart : ¬ body.Inside inner outer := fun holds ↦
      tree.not_inside_parent mem (within.trans holds)
    -- The other children hold nothing of the inner scope.
    have empty : ∀ other ∈ body.children outer, other ≠ child →
        (body.statements.preorder other).filter p = [] := by
      intro other mem' different
      rw [List.filter_eq_nil_iff]
      intro stmt visited holds
      have around := (tree.mem_preorder (tree.has_child mem')).mp visited
      have holds := (decides stmt (tree.has_of_inside_child mem' around)).mp holds
      exact different (tree.child_unique mem' mem around (within.trans holds))
    rw [tree.preorder_eq hasOuter, List.filter_cons_of_neg (fun holds ↦
      apart ((decides outer hasOuter).mp holds)), List.filter_flatMap,
      flatMap_of_unique (tree.nodup_children outer) mem empty, ih child mem within]

/-! ### The document of a scope -/

/-- The document of a scope holds what is inside and runs in its method. -/
theorem mem_document (has : body.has scope = true) :
    stmt ∈ body.document scope ↔
      body.Inside scope stmt ∧ body.methodOf stmt = body.methodOf scope := by
  rw [document, List.mem_filter, tree.mem_preorder has, decide_eq_true_iff]

/-- A lambda is all there is of its method at and below it; any other scope comes before the
documents of its children. -/
theorem document_eq (has : body.has scope = true) : body.document scope =
    scope :: if body.isLambda scope then [] else (body.children scope).flatMap body.document := by
  rw [document, tree.preorder_eq has, List.filter_cons_of_pos (by simp), List.filter_flatMap]
  congr 1
  by_cases lambda : body.isLambda scope = true
  · rw [if_pos lambda, List.flatMap_eq_nil_iff]
    intro child mem
    rw [List.filter_eq_nil_iff]
    intro stmt visited
    have inside := (tree.mem_preorder (tree.has_child mem)).mp visited
    have has := tree.has_of_inside_child mem inside
    simp [tree.not_inside_of_lambda lambda mem inside has]
  · rw [if_neg lambda]
    apply List.flatMap_congr
    intro child mem
    have same := tree.methodOf_child mem
    rw [if_neg lambda] at same
    rw [document, same]

/-- A document lists each statement once. -/
theorem nodup_document (has : body.has scope = true) : (body.document scope).Nodup :=
  (tree.nodup_preorder has).filter _

/-- A walk over a scope visits the document of the scope, except for the lambdas in it. -/
theorem inMethod_eq_filter (has : body.has scope = true) :
    body.inMethod scope = (body.document scope).filter (!body.isLambda ·) := by
  refine tree.inductionBelow (motive := fun scope ↦
    body.inMethod scope = (body.document scope).filter (!body.isLambda ·)) ?_ has
  intro scope has ih
  rw [tree.inMethod_eq has, tree.document_eq has]
  cases lambda : body.isLambda scope with
  | true => simp [lambda]
  | false =>
    rw [if_neg Bool.false_ne_true, if_neg Bool.false_ne_true,
      List.filter_cons_of_pos (by simp [lambda]), List.filter_flatMap, List.flatMap_congr ih]

/-- A walk over a scope visits no statement twice. -/
theorem nodup_inMethod (has : body.has scope = true) : (body.inMethod scope).Nodup := by
  rw [tree.inMethod_eq_filter has]
  exact (tree.nodup_document has).filter _

/-- What a walk over a scope visits inside another scope of the same method is the walk over that
one. -/
theorem filter_inMethod {outer inner : StmtId} (has : body.has inner = true)
    (inside : body.Inside outer inner) (same : body.methodOf inner = body.methodOf outer)
    {p : StmtId → Bool}
    (decides : ∀ stmt, body.has stmt = true → (p stmt = true ↔ body.Inside inner stmt)) :
    (body.inMethod outer).filter p = body.inMethod inner := by
  rw [tree.inMethod_eq_filter (has_of_inside inside has), tree.inMethod_eq_filter has, document,
    document, same, ← tree.filter_preorder has inside decides]
  simp only [List.filter_filter]
  exact List.filter_congr fun stmt _ ↦ by ac_rfl

/-! ### The instructions of a scope -/

/-- The payload of a scope is what stands in its own place and the payload of its children, unless
it is a lambda. -/
theorem payload_eq (has : body.has scope = true) : body.payload scope =
    (body.payloadOf scope).map (scope, ·) ++
      if body.isLambda scope then [] else (body.children scope).flatMap body.payload := by
  rw [payload, tree.document_eq has, List.flatMap_cons]
  split
  · rfl
  · rw [List.flatMap_assoc]
    rfl

/-- The body of a catch clause is a child of the `try`. -/
theorem parent?_of_catch {owner : StmtId} {parts : TryStatement} {place : Nat}
    {clause : CatchClause} (shaped : body.get? owner = some (.tryBlock parts))
    (found : parts.catches[place]? = some clause) : body.parent? clause.body = some owner := by
  refine tree.parent?_eq_some.mpr (mem_children_of_get? shaped ?_)
  have mem := List.mem_map_of_mem (f := (·.body)) (List.mem_of_getElem? found)
  exact List.mem_append_left _ (List.mem_cons_of_mem _ mem)

/-- In front of the body of a catch clause stands its filter, if it has one. -/
theorem filterOf?_catch {owner : StmtId} {parts : TryStatement} {place : Nat}
    {clause : CatchClause} (shaped : body.get? owner = some (.tryBlock parts))
    (found : parts.catches[place]? = some clause) : body.filterOf? clause.body =
      if clause.isFiltered then some (.filter owner place) else none := by
  have outer := tree.parent?_of_catch shaped found
  have role := tree.role?_eq_some.mpr (.catchBody shaped found rfl)
  simp [filterOf?, role, outer, parentShape?, shaped, found]

/-- Nothing else than the filter of a catch clause stands in front of a statement. -/
theorem filterOf?_eq_some {instr : Instruction Nat} : body.filterOf? stmt = some instr ↔
    ∃ owner parts place clause, body.get? owner = some (.tryBlock parts) ∧
      parts.catches[place]? = some clause ∧ clause.isFiltered = true ∧ clause.body = stmt ∧
        instr = .filter owner place := by
  constructor
  · intro listed
    rw [filterOf?] at listed
    split at listed
    · next place owner parts role outer shaped =>
      cases tree.role?_eq_some.mp role with
      | @catchBody owner' parts' _ clause shaped' found own =>
        subst own
        have outer' := tree.parent?_of_catch shaped' found
        cases outer'.symm.trans outer
        have same : body.get? owner = some (.tryBlock parts) := by
          simpa only [parentShape?, outer, Option.bind_some] using shaped
        cases shaped'.symm.trans same
        rw [found, Option.any_some] at listed
        obtain ⟨filtered, same⟩ := Option.ite_none_right_eq_some.mp listed
        cases same
        exact ⟨owner, parts, place, clause, shaped', found, filtered, rfl, rfl⟩
    · cases listed
  · rintro ⟨owner, parts, place, clause, shaped, found, filtered, rfl, rfl⟩
    rw [tree.filterOf?_catch shaped found, if_pos filtered]

/-- What stands in the place of a statement is what its shape and that of its parent show. -/
theorem mem_payloadOf {instr : Instruction Nat} :
    instr ∈ body.payloadOf stmt ↔ body.Shows stmt instr := by
  rw [payloadOf, List.mem_append, Option.mem_toList, Option.mem_toList, tree.filterOf?_eq_some,
    Option.bind_eq_some_iff]
  constructor
  · rintro (⟨owner, parts, place, clause, shaped, found, filtered, rfl, rfl⟩ | ⟨shape, shaped, own⟩)
    · exact .filter shaped found filtered
    · cases shape <;> cases own
      · exact .code shaped
      · exact .throwException shaped
      · exact .rethrow shaped
      · exact .closure shaped
  · intro shows
    cases shows with
    | filter shaped found filtered =>
      exact .inl ⟨_, _, _, _, shaped, found, filtered, rfl, rfl⟩
    | code shaped | closure shaped | throwException shaped | rethrow shaped =>
      exact .inr ⟨_, shaped, rfl⟩

/-- What shows something is a statement. -/
theorem has_of_shows {instr : Instruction Nat} (shows : body.Shows stmt instr) :
    body.has stmt = true := by
  cases shows with
  | filter shaped found =>
    exact tree.has_child (tree.parent?_eq_some.mp (tree.parent?_of_catch shaped found))
  | code shaped | closure shaped | throwException shaped | rethrow shaped =>
    exact has_iff_get?.mpr ⟨_, shaped⟩

/-- At most a filter and one other instruction stand in the place of a statement. -/
theorem nodup_payloadOf (stmt : StmtId) : (body.payloadOf stmt).Nodup := by
  have filters {instr : Instruction Nat} (listed : body.filterOf? stmt = some instr) :
      ∀ shape : Statement, shape.payload? stmt ≠ some instr := by
    obtain ⟨owner, -, place, -, -, -, -, -, rfl⟩ := tree.filterOf?_eq_some.mp listed
    intro shape own
    cases shape <;> cases own
  rw [payloadOf]
  cases listed : body.filterOf? stmt <;>
    cases own : (body.get? stmt).bind (·.payload? stmt) <;> simp
  obtain ⟨shape, -, own⟩ := Option.bind_eq_some_iff.mp own
  rintro rfl
  exact filters listed shape own

/-- The payload of a scope is what its statements show, and nothing is in it twice. -/
theorem payload_spec (has : body.has scope = true) : (body.payload scope).Nodup ∧
    ∀ stmt instr, (stmt, instr) ∈ body.payload scope ↔
      stmt ∈ body.document scope ∧ body.Shows stmt instr := by
  constructor
  · refine List.nodup_flatMap.mpr ⟨fun stmt _ ↦ ?_, (tree.nodup_document has).imp ?_⟩
    · exact (tree.nodup_payloadOf stmt).map fun _ _ same ↦ (Prod.mk.inj same).2
    · intro first second different entry mem mem'
      obtain ⟨_, -, rfl⟩ := List.mem_map.mp mem
      obtain ⟨_, -, same⟩ := List.mem_map.mp mem'
      exact different (Prod.mk.inj same).1.symm
  · intro stmt instr
    simp only [payload, List.mem_flatMap, List.mem_map, Prod.mk.injEq, ← tree.mem_payloadOf]
    constructor
    · rintro ⟨_, mem, _, shows, rfl, rfl⟩
      exact ⟨mem, shows⟩
    · rintro ⟨mem, shows⟩
      exact ⟨stmt, mem, instr, shows, rfl, rfl⟩

end IsTree
end Body
end ProtectedRegions
