import Mathlib.Data.List.Nodup
import ProtectedRegions.Proofs.Lowering.Emission

/-!
# The places of statements

Each statement of a method is laid out once in the code of the method, in certain scopes and at
a certain place. The tokens of the code of the method are the starts and ends of these
statements and the tokens of their templates.
-/

namespace ProtectedRegions
namespace Flow

/-- The statement is laid out in the given scopes and at the given place, in the code of the
method at `root` that starts at `start`. -/
inductive Laid (flow : Flow) (config : Config) (root : StmtId) (start : Place) :
    StmtId → List StmtId → Place → Prop
  | root : Laid flow config root start root [] start
  | child {stmt : StmtId} {scopes scopes' : List StmtId} {place : Place} {shape : Statement}
      {part : CodePart} (outer : Laid flow config root start stmt scopes place)
      (found : flow.body.get? stmt = some shape)
      (mem : part ∈ (flow.template config scopes stmt shape).nested place)
      (nests : flow.Nests config scopes place part scopes') :
      Laid flow config root start part.stmt scopes' part.place

variable {flow : Flow} {config : Config} {root : StmtId} {start : Place}

/-- A part of a template is a child of the statement. -/
theorem mem_children_of_nested (tree : flow.body.IsTree) {stmt : StmtId} {shape : Statement}
    (found : flow.body.get? stmt = some shape) {scopes : List StmtId} {place : Place}
    {part : CodePart} (mem : part ∈ (flow.template config scopes stmt shape).nested place) :
    part.stmt ∈ flow.body.children stmt ∧ flow.body.isLambda stmt = false := by
  have listed : part.stmt ∈ shape.laidOut := by
    rw [← heads_template config tree found scopes, ← Code.map_stmt_nested _ place]
    exact List.mem_map_of_mem mem
  refine ⟨Body.mem_children_of_get? found (Statement.mem_children_of_laidOut listed), ?_⟩
  rw [Body.isLambda, found]
  cases shape with
  | lambda => cases listed
  | _ => rfl

/-- What is not the body of a lambda is a part of the template of its parent. -/
theorem exists_nested (config : Config) (tree : flow.body.IsTree) {stmt child : StmtId}
    {shape : Statement} (found : flow.body.get? stmt = some shape) (mem : child ∈ flow.body.children stmt)
    (open' : flow.body.isLambda stmt = false) (scopes : List StmtId) (place : Place) :
    ∃ part ∈ (flow.template config scopes stmt shape).nested place, part.stmt = child := by
  have listed : child ∈ shape.laidOut := by
    rw [Body.children_of_get? found] at mem
    rw [Body.isLambda, found] at open'
    cases shape with
    | lambda => cases open'
    | _ => exact mem
  rw [← heads_template config tree found scopes, ← Code.map_stmt_nested _ place] at listed
  exact List.mem_map.mp listed

/-- The parts of a template are different statements. -/
theorem pairwise_nested (config : Config) (tree : flow.body.IsTree) {stmt : StmtId}
    {shape : Statement} (found : flow.body.get? stmt = some shape) (scopes : List StmtId)
    (place : Place) : ((flow.template config scopes stmt shape).nested place).Pairwise
      fun first second ↦ first.stmt ≠ second.stmt := by
  have nodup := tree.nodup_laidOut found
  rw [← heads_template config tree found scopes, ← Code.map_stmt_nested _ place] at nodup
  exact List.pairwise_map.mp nodup

namespace Laid

/-- A statement that is laid out runs in the method. -/
theorem inside (tree : flow.body.IsTree) {stmt : StmtId} {scopes : List StmtId} {place : Place}
    (laid : flow.Laid config root start stmt scopes place) :
    flow.body.Inside root stmt ∧ flow.body.methodOf stmt = flow.body.methodOf root := by
  induction laid with
  | root => exact ⟨.refl, rfl⟩
  | child outer found mem nests ih =>
    obtain ⟨child, open'⟩ := mem_children_of_nested tree found mem
    refine ⟨.child ih.1 child, ?_⟩
    rw [tree.methodOf_child child, open']
    exact ih.2

/-- Every statement of a method is laid out in its code. -/
theorem exists_place (config : Config) (start : Place) (tree : flow.body.IsTree) {stmt : StmtId}
    (inside : flow.body.Inside root stmt) (has : flow.body.has stmt = true)
    (same : flow.body.methodOf stmt = flow.body.methodOf root) :
    ∃ scopes place, flow.Laid config root start stmt scopes place := by
  induction inside with
  | refl => exact ⟨[], start, .root⟩
  | @child parent stmt outside mem ih =>
    obtain ⟨shape, found, -⟩ := Body.get?_of_mem_children mem
    have has' := Body.has_of_mem_children mem
    obtain ⟨scopes, place, laid⟩ :=
      ih has' (tree.methodOf_between outside (.of_child mem) has same)
    have open' : flow.body.isLambda parent = false := by
      by_contra lambda
      rw [Bool.not_eq_false] at lambda
      have own := tree.methodOf_child mem
      rw [if_pos lambda, same] at own
      -- The method would start at the body of the lambda, yet hold the lambda itself.
      have around := (tree.methodOf_spec (Body.has_of_inside outside has')).2
      rw [own] at around
      exact tree.not_inside_parent mem (around.trans outside)
    obtain ⟨part, listed, rfl⟩ := exists_nested config tree found mem open' scopes place
    obtain ⟨scopes', nests⟩ := nests_template tree found scopes place part listed
    exact ⟨scopes', part.place, .child laid found listed nests⟩

/-- A statement that is laid out is a statement of the body. -/
theorem has (tree : flow.body.IsTree) (rooted : flow.body.has root = true) {stmt : StmtId}
    {scopes : List StmtId} {place : Place}
    (laid : flow.Laid config root start stmt scopes place) : flow.body.has stmt = true := by
  cases laid with
  | root => exact rooted
  | child outer found mem nests => exact tree.has_child (mem_children_of_nested tree found mem).1

/-- The tokens of a statement are among those of the method. -/
theorem tokens_subset (tree : flow.body.IsTree) {stmt : StmtId} {scopes : List StmtId}
    {place : Place} (laid : flow.Laid config root start stmt scopes place) :
    (flow.emit config stmt scopes).tokens place ⊆ (flow.emit config root []).tokens start := by
  induction laid with
  | root => exact List.Subset.refl _
  | child outer found mem nests ih =>
    intro entry inside
    rw [nests.code] at inside
    have within := Code.tokens_nested mem inside
    apply ih
    rw [emit_eq _ tree found]
    exact List.mem_cons_of_mem _ (List.mem_append_left _ within)

/-- The start of a statement is a token of the method. -/
theorem entry_mem (tree : flow.body.IsTree) (rooted : flow.body.has root = true) {stmt : StmtId}
    {scopes : List StmtId} {place : Place}
    (laid : flow.Laid config root start stmt scopes place) :
    (.node (.entry stmt), place) ∈ (flow.emit config root []).tokens start := by
  obtain ⟨shape, found⟩ := Body.has_iff_get?.mp (laid.has tree rooted)
  apply laid.tokens_subset tree
  rw [emit_eq _ tree found]
  exact List.mem_cons_self

/-- The tokens of the template of a statement are tokens of the method. -/
theorem own_mem (tree : flow.body.IsTree) {stmt : StmtId} {scopes : List StmtId} {place : Place}
    {shape : Statement} (laid : flow.Laid config root start stmt scopes place)
    (found : flow.body.get? stmt = some shape) {entry : Token × Place}
    (mem : entry ∈ (flow.template config scopes stmt shape).own place) :
    entry ∈ (flow.emit config root []).tokens start := by
  apply laid.tokens_subset tree
  rw [emit_eq _ tree found]
  exact List.mem_cons_of_mem _ (List.mem_append_left _ (Code.own_subset mem))

end Laid

/-- A token of a method with the statement that it belongs to. -/
structure Origin (flow : Flow) (config : Config) (root : StmtId) (start : Place)
    (entry : Token × Place) (stmt : StmtId) (scopes : List StmtId) (place : Place)
    (shape : Statement) : Prop where
  laid : flow.Laid config root start stmt scopes place
  found : flow.body.get? stmt = some shape
  belongs : entry = (.node (.entry stmt), place) ∨
    entry ∈ (flow.template config scopes stmt shape).own place ∨
    entry = (.node (.ending stmt), place.after (flow.template config scopes stmt shape))

/-- The tokens of a method are the starts and ends of statements and the tokens of their
templates. -/
theorem exists_origin (tree : flow.body.IsTree) (rooted : flow.body.has root = true)
    {entry : Token × Place} (mem : entry ∈ (flow.emit config root []).tokens start) :
    ∃ stmt scopes place shape,
      flow.Origin config root start entry stmt scopes place shape := by
  suffices h : ∀ {stmt : StmtId}, flow.body.has stmt = true → ∀ scopes place,
      flow.Laid config root start stmt scopes place →
      entry ∈ (flow.emit config stmt scopes).tokens place →
      ∃ stmt scopes place shape, flow.Origin config root start entry stmt scopes place shape
    from h rooted [] start .root mem
  intro stmt has
  refine tree.inductionUp (motive := fun stmt ↦ ∀ scopes place,
    flow.Laid config root start stmt scopes place →
    entry ∈ (flow.emit config stmt scopes).tokens place →
    ∃ stmt scopes place shape, flow.Origin config root start entry stmt scopes place shape)
    (fun stmt shape found ih ↦ ?_) has
  intro scopes place laid mem
  rw [emit_eq _ tree found, Code.tokens, List.mem_cons, List.mem_append, List.mem_singleton] at mem
  rcases mem with start | inner | ends
  · exact ⟨stmt, scopes, place, shape, laid, found, .inl start⟩
  · rcases Code.mem_tokens_iff.mp inner with own | ⟨part, listed, inside⟩
    · exact ⟨stmt, scopes, place, shape, laid, found, .inr (.inl own)⟩
    · obtain ⟨scopes', nests⟩ := nests_template tree found scopes place part listed
      rw [← nests.code] at inside
      have child := (mem_children_of_nested tree found listed).1
      rw [Body.children_of_get? found] at child
      exact ih part.stmt child scopes' part.place (.child laid found listed nests) inside
  · exact ⟨stmt, scopes, place, shape, laid, found, .inr (.inr ends)⟩

/-- A token that is no node belongs to the template of a statement. -/
theorem exists_own (tree : flow.body.IsTree) (rooted : flow.body.has root = true) {token : Token}
    {at' : Place} (mem : (token, at') ∈ (flow.emit config root []).tokens start)
    (plain : ∀ node, token ≠ .node node) :
    ∃ stmt scopes place shape, flow.Laid config root start stmt scopes place ∧
      flow.body.get? stmt = some shape ∧
      (token, at') ∈ (flow.template config scopes stmt shape).own place := by
  obtain ⟨stmt, scopes, place, shape, laid, found, belongs⟩ := exists_origin tree rooted mem
  rcases belongs with starts | own | ends
  · exact (plain _ (congrArg Prod.fst starts)).elim
  · exact ⟨stmt, scopes, place, shape, laid, found, own⟩
  · exact (plain _ (congrArg Prod.fst ends)).elim

/-- The code of a statement holds each statement once, and only what is inside of it. -/
theorem nodup_statements (config : Config) (tree : flow.body.IsTree) {stmt : StmtId}
    (has : flow.body.has stmt = true) (scopes : List StmtId) :
    (flow.emit config stmt scopes).statements.Nodup ∧
      ∀ inner ∈ (flow.emit config stmt scopes).statements, flow.body.Inside stmt inner := by
  revert scopes
  refine tree.inductionUp (motive := fun stmt ↦ ∀ scopes,
    (flow.emit config stmt scopes).statements.Nodup ∧
      ∀ inner ∈ (flow.emit config stmt scopes).statements, flow.body.Inside stmt inner)
    (fun stmt shape found ih scopes ↦ ?_) has
  rw [emit_eq _ tree found, Code.statements, Code.statements_eq_flatMap _ ⟨0, 0, []⟩]
  -- Each part of the template has its statements below a child of its own.
  have part {part : CodePart}
      (mem : part ∈ (flow.template config scopes stmt shape).nested ⟨0, 0, []⟩) :
      part.stmt ∈ flow.body.children stmt ∧ (part.stmt :: part.inner.statements).Nodup ∧
        ∀ inner ∈ part.stmt :: part.inner.statements, flow.body.Inside part.stmt inner := by
    obtain ⟨scopes', nests⟩ := nests_template tree found scopes _ part mem
    have child := (mem_children_of_nested tree found mem).1
    have := ih part.stmt (Body.children_of_get? found ▸ child) scopes'
    rw [nests.code, Code.statements] at this
    exact ⟨child, this⟩
  constructor
  · rw [List.nodup_cons]
    constructor
    · intro mem
      obtain ⟨inner, listed, mem⟩ := List.mem_flatMap.mp mem
      obtain ⟨child, -, below⟩ := part listed
      exact tree.not_inside_parent child (below stmt mem)
    · rw [List.nodup_flatMap]
      refine ⟨fun inner listed ↦ (part listed).2.1, ?_⟩
      refine (pairwise_nested config tree found scopes ⟨0, 0, []⟩).imp_of_mem
        fun mem mem' different ↦ ?_
      obtain ⟨child, -, below⟩ := part mem
      obtain ⟨child', -, below'⟩ := part mem'
      intro inner inside inside'
      exact different (tree.child_unique child child' (below _ inside) (below' _ inside'))
  · intro inner mem
    rcases List.mem_cons.mp mem with rfl | mem
    · exact .refl
    · obtain ⟨outer, listed, mem⟩ := List.mem_flatMap.mp mem
      obtain ⟨child, -, below⟩ := part listed
      exact (Body.Inside.of_child child).trans (below inner mem)

/-- A statement starts at one place. -/
theorem entry_unique (tree : flow.body.IsTree) (rooted : flow.body.has root = true) {stmt : StmtId}
    {place place' : Place}
    (mem : (.node (.entry stmt), place) ∈ (flow.emit config root []).tokens start)
    (mem' : (.node (.entry stmt), place') ∈ (flow.emit config root []).tokens start) :
    place = place' := by
  have nodup := (nodup_statements config tree rooted []).1
  rw [← Code.filterMap_entry? _ start] at nodup
  have := eq_of_nodup_filterMap nodup mem mem' rfl rfl
  cases this
  rfl

/-- A statement is laid out at one place. -/
theorem Laid.place_unique (tree : flow.body.IsTree) (rooted : flow.body.has root = true)
    {stmt : StmtId} {scopes scopes' : List StmtId} {place place' : Place}
    (laid : flow.Laid config root start stmt scopes place)
    (laid' : flow.Laid config root start stmt scopes' place') : place = place' :=
  entry_unique tree rooted (laid.entry_mem tree rooted) (laid'.entry_mem tree rooted)

end Flow
end ProtectedRegions
