import Mathlib.Data.List.Find
import ProtectedRegions.Proofs.Body.Drafts

/-!
# The search of a draft

The statements that hang off the root are found by a search that does not look whether it has seen
a statement before: it takes the last pending statement and makes its children pending. It ends on
every draft in which the root is no child and no statement is named as a child twice, since then no
statement becomes pending twice, whatever cycles there are apart from the root. It visits the
statements of the preorder walk.
-/

namespace ProtectedRegions
namespace Draft

/-- A statement that is reached from the root by going from statements to their children. -/
inductive Attached (draft : Draft) : StmtId → Prop
  | root : Attached draft draft.root
  | child {parent stmt : StmtId} (outer : Attached draft parent)
      (mem : stmt ∈ draft.statements.childrenOf parent) : Attached draft stmt

/-- The root is a statement and no child, and each child is a statement that is named once. -/
structure Hangs (draft : Draft) : Prop where
  root_lt : draft.root.index < draft.size
  child_lt {parent stmt : StmtId} :
    stmt ∈ draft.statements.childrenOf parent → stmt.index < draft.size
  root_free (parent : StmtId) : draft.root ∉ draft.statements.childrenOf parent
  nodup_children (parent : StmtId) : (draft.statements.childrenOf parent).Nodup
  parent_unique {first second stmt : StmtId} : stmt ∈ draft.statements.childrenOf first →
    stmt ∈ draft.statements.childrenOf second → first = second

variable {draft : Draft}

section Under

variable {depth : Nat} {top stmt parent : StmtId}

/-- The statements at and below one, to a depth. -/
def under (draft : Draft) (depth : Nat) (top : StmtId) : List StmtId :=
  StatementTable.descend (fun stmt below ↦
    stmt :: (draft.statements.childrenOf stmt).flatMap below) [] depth top

/-- What is found to a depth is the statement itself, or is found below a child. -/
theorem mem_under_succ : stmt ∈ draft.under (depth + 1) top ↔
    stmt = top ∨ ∃ child ∈ draft.statements.childrenOf top, stmt ∈ draft.under depth child := by
  refine List.mem_cons.trans (or_congr_right ?_)
  exact List.mem_flatMap

/-- What is found to a depth is found one step deeper. -/
theorem mem_under_of_mem (found : stmt ∈ draft.under depth top) :
    stmt ∈ draft.under (depth + 1) top := by
  induction depth generalizing top with
  | zero => cases found
  | succ depth ih =>
    rcases mem_under_succ.mp found with rfl | ⟨child, mem, found⟩
    · exact mem_under_succ.mpr (.inl rfl)
    · exact mem_under_succ.mpr (.inr ⟨child, mem, ih found⟩)

/-- The children of what is found to a depth are found one step deeper. -/
theorem mem_under_child (found : parent ∈ draft.under depth top)
    (mem : stmt ∈ draft.statements.childrenOf parent) : stmt ∈ draft.under (depth + 1) top := by
  induction depth generalizing top with
  | zero => cases found
  | succ depth ih =>
    rcases mem_under_succ.mp found with rfl | ⟨child, mem', found⟩
    · exact mem_under_succ.mpr (.inr ⟨stmt, mem, mem_under_succ.mpr (.inl rfl)⟩)
    · exact mem_under_succ.mpr (.inr ⟨child, mem', ih found⟩)

/-- What is found under an attached statement is attached. -/
theorem attached_of_mem_under (attached : draft.Attached top)
    (found : stmt ∈ draft.under depth top) : draft.Attached stmt := by
  induction depth generalizing top with
  | zero => cases found
  | succ depth ih =>
    rcases mem_under_succ.mp found with rfl | ⟨child, mem, found⟩
    · exact attached
    · exact ih (attached.child mem) found

end Under

/-- The statements visited so far, the latest first, and those that are pending, the last to become
so first. -/
structure Search where
  visited : List StmtId
  pending : List StmtId

namespace Search

/-- Nothing is visited, and the root is pending. -/
def start (draft : Draft) : Search := ⟨[], [draft.root]⟩

/-- Visits the last pending statement; its children become pending. -/
def next? (draft : Draft) : Search → Option Search
  | ⟨_, []⟩ => none
  | ⟨visited, stmt :: rest⟩ =>
    some ⟨stmt :: visited, (draft.statements.childrenOf stmt).reverse ++ rest⟩

/-- A number of visits. -/
inductive Steps (draft : Draft) : Nat → Search → Search → Prop
  | none {search : Search} : Steps draft 0 search search
  | more {count : Nat} {search middle after : Search} (earlier : Steps draft count search middle)
      (last : middle.next? draft = some after) : Steps draft (count + 1) search after

/-- The statements that are or were pending. -/
def seen (search : Search) : List StmtId := search.visited ++ search.pending

/-- What a search has seen: each statement once, as the root or as a child of a visited statement,
with all children of the visited ones. The number of visits bounds the depth. -/
structure Invariant (draft : Draft) (search : Search) : Prop where
  nodup : search.seen.Nodup
  rooted : draft.root ∈ search.seen
  origin {stmt : StmtId} : stmt ∈ search.seen → stmt = draft.root ∨
    ∃ parent ∈ search.visited, stmt ∈ draft.statements.childrenOf parent
  closed {parent stmt : StmtId} : parent ∈ search.visited →
    stmt ∈ draft.statements.childrenOf parent → stmt ∈ search.seen
  visited {stmt : StmtId} : stmt ∈ search.visited →
    stmt ∈ draft.under search.visited.length draft.root
  pending {stmt : StmtId} : stmt ∈ search.pending →
    stmt ∈ draft.under (search.visited.length + 1) draft.root

variable {search after : Search} (hangs : draft.Hangs)

/-- At the start only the root is seen. -/
theorem invariant_start (draft : Draft) : Invariant draft (start draft) where
  nodup := List.nodup_singleton _
  rooted := List.mem_singleton_self _
  origin mem := .inl (List.mem_singleton.mp mem)
  closed mem := nomatch mem
  visited mem := nomatch mem
  pending mem := by
    rw [List.mem_singleton.mp mem]
    exact mem_under_succ.mpr (.inl rfl)

/-- A visit sees the children of the statement as well. -/
private theorem mem_seen_visit {visited rest : List StmtId} {stmt other : StmtId} :
    other ∈ seen ⟨stmt :: visited, (draft.statements.childrenOf stmt).reverse ++ rest⟩ ↔
      other ∈ draft.statements.childrenOf stmt ∨ other ∈ seen ⟨visited, stmt :: rest⟩ := by
  simp [seen]
  tauto

include hangs

section Visit

variable {visited rest : List StmtId} {stmt : StmtId}
  (invariant : Invariant draft ⟨visited, stmt :: rest⟩)

include invariant

/-- A child that was seen before the visit of its parent would be the root, or hang at a visited
statement too. -/
private theorem Invariant.unseen {child : StmtId}
    (mem : child ∈ draft.statements.childrenOf stmt) : child ∉ seen ⟨visited, stmt :: rest⟩ := by
  have unvisited : stmt ∉ visited := fun visits ↦
    (List.nodup_append.mp invariant.nodup).2.2 stmt visits stmt List.mem_cons_self rfl
  intro known
  rcases invariant.origin known with rfl | ⟨parent, before, mem'⟩
  · exact hangs.root_free stmt mem
  · exact unvisited (hangs.parent_unique mem mem' ▸ before)

private theorem Invariant.nodup_visit :
    (seen ⟨stmt :: visited, (draft.statements.childrenOf stmt).reverse ++ rest⟩).Nodup := by
  have children := List.nodup_reverse.mpr (hangs.nodup_children stmt)
  have apart : (draft.statements.childrenOf stmt).reverse.Disjoint
      (seen ⟨visited, stmt :: rest⟩) :=
    fun child mem ↦ invariant.unseen hangs (List.mem_reverse.mp mem)
  refine (List.Perm.nodup_iff ?_).mp (children.append invariant.nodup apart)
  -- The children move behind the visited statements, and the statement before these.
  simp only [seen, List.cons_append]
  refine List.Perm.trans ?_ (List.Perm.cons stmt (List.perm_append_comm_assoc _ _ _))
  exact (List.perm_middle.append_left _).trans List.perm_middle

end Visit

/-- A visit sees the children of the statement for the first time. -/
theorem Invariant.next? (invariant : Invariant draft search)
    (step : search.next? draft = some after) :
    Invariant draft after ∧ after.visited.length = search.visited.length + 1 := by
  obtain ⟨visited, _ | ⟨stmt, rest⟩⟩ := search
  · cases step
  cases step
  refine ⟨{
    nodup := invariant.nodup_visit hangs
    rooted := mem_seen_visit.mpr (.inr invariant.rooted)
    origin := ?_
    closed := ?_
    visited := ?_
    pending := ?_ }, rfl⟩
  · intro other mem
    rcases mem_seen_visit.mp mem with mem | known
    · exact .inr ⟨stmt, List.mem_cons_self, mem⟩
    · refine (invariant.origin known).imp_right ?_
      rintro ⟨parent, before, mem⟩
      exact ⟨parent, List.mem_cons_of_mem _ before, mem⟩
  · intro parent child before mem
    rcases List.mem_cons.mp before with rfl | before
    · exact mem_seen_visit.mpr (.inl mem)
    · exact mem_seen_visit.mpr (.inr (invariant.closed before mem))
  · intro other mem
    rcases List.mem_cons.mp mem with rfl | mem
    · exact invariant.pending List.mem_cons_self
    · exact mem_under_of_mem (invariant.visited mem)
  · intro other mem
    rcases List.mem_append.mp mem with mem | mem
    · have found : stmt ∈ draft.under (visited.length + 1) draft.root :=
        invariant.pending List.mem_cons_self
      exact mem_under_child found (List.mem_reverse.mp mem)
    · exact mem_under_of_mem (invariant.pending (List.mem_cons_of_mem _ mem))

/-- A search sees statements of the draft only, so it makes no more visits than there are
statements. -/
theorem Invariant.length_le (invariant : Invariant draft search) :
    search.visited.length + search.pending.length ≤ draft.size := by
  have inside : search.seen ⊆ draft.statements.ids := by
    intro stmt mem
    rw [StatementTable.mem_ids]
    rcases invariant.origin mem with rfl | ⟨parent, -, mem⟩
    · exact hangs.root_lt
    · exact hangs.child_lt mem
  have le := invariant.nodup.length_le_of_subset inside
  rw [seen, List.length_append] at le
  simpa [StatementTable.ids, Draft.size] using le

/-- Any number of visits keeps what a search knows. -/
theorem Steps.invariant {count : Nat} (steps : Steps draft count (start draft) search) :
    Invariant draft search ∧ search.visited.length = count := by
  generalize from' : start draft = first at steps
  induction steps with
  | none => exact from' ▸ ⟨invariant_start draft, rfl⟩
  | more earlier last ih =>
    obtain ⟨invariant, length⟩ := ih from'
    obtain ⟨invariant, length'⟩ := invariant.next? hangs last
    exact ⟨invariant, length'.trans (by rw [length])⟩

/-- The search ends, whatever the draft holds apart from what hangs off the root. -/
theorem exists_end :
    ∃ count search, Steps draft count (start draft) search ∧ search.next? draft = none := by
  -- A search that never ends would make more visits than there are statements.
  by_contra endless
  push Not at endless
  have goes (count : Nat) : ∃ search, Steps draft count (start draft) search := by
    induction count with
    | zero => exact ⟨_, .none⟩
    | succ count ih =>
      obtain ⟨search, steps⟩ := ih
      obtain ⟨after, last⟩ := Option.ne_none_iff_exists'.mp (endless count search steps)
      exact ⟨after, .more steps last⟩
  obtain ⟨search, steps⟩ := goes (draft.size + 1)
  obtain ⟨invariant, length⟩ := steps.invariant hangs
  have := invariant.length_le hangs
  omega

/-- At its end a search has visited what hangs off the root, to the depth of the preorder walk. -/
theorem Invariant.mem_visited_iff (invariant : Invariant draft search)
    (finished : search.next? draft = none) {stmt : StmtId} :
    (stmt ∈ search.visited ↔ draft.Attached stmt) ∧
      (stmt ∈ search.visited ↔ stmt ∈ draft.statements.preorder draft.root) := by
  have le := invariant.length_le hangs
  obtain ⟨visited, _ | ⟨other, rest⟩⟩ := search
  · have sees : seen ⟨visited, []⟩ = visited := List.append_nil _
    have rooted := invariant.rooted
    have closed := @invariant.closed
    rw [sees] at rooted
    simp only [sees] at closed
    have visits (attached : draft.Attached stmt) : stmt ∈ visited := by
      induction attached with
      | root => exact rooted
      | child _ mem ih => exact closed ih mem
    have reaches (mem : stmt ∈ visited) : stmt ∈ draft.under draft.size draft.root :=
      Nat.le_induction (invariant.visited mem) (fun _ _ found ↦ mem_under_of_mem found) _
        (Nat.le_trans (Nat.le_add_right _ _) le)
    have hangsOff (found : stmt ∈ draft.under draft.size draft.root) : draft.Attached stmt :=
      attached_of_mem_under .root found
    exact ⟨⟨fun mem ↦ hangsOff (reaches mem), visits⟩, reaches, fun found ↦ visits (hangsOff found)⟩
  · cases finished

end Search

/-- The first detached statement is the first that a finished search has not visited. -/
theorem detached?_eq (hangs : draft.Hangs) {count : Nat} {search : Search}
    (steps : Search.Steps draft count (.start draft) search)
    (finished : search.next? draft = none) :
    draft.detached? = draft.statements.ids.find? fun stmt ↦ decide (stmt ∉ search.visited) := by
  have invariant := (steps.invariant hangs).1
  apply List.find?_congr
  intro stmt mem
  have lt : stmt.index < draft.size := StatementTable.mem_ids.mp mem
  have reached : (BitSet.ofList draft.size
      ((draft.statements.preorder draft.root).map (·.index))).contains stmt.index = true ↔
        stmt ∈ search.visited := by
    rw [BitSet.contains_ofList, (invariant.mem_visited_iff hangs finished).2]
    constructor
    · rintro ⟨mem, -⟩
      obtain ⟨other, mem, same⟩ := List.mem_map.mp mem
      cases stmt
      cases other
      cases same
      exact mem
    · intro mem
      exact ⟨List.mem_map_of_mem mem, lt⟩
  rw [Bool.eq_iff_iff, Bool.not_eq_true', ← Bool.not_eq_true, reached, decide_eq_true_iff]

/-- Nothing is detached if all statements hang off the root. -/
theorem detached?_eq_none_iff (hangs : draft.Hangs) :
    draft.detached? = none ↔ ∀ stmt : StmtId, stmt.index < draft.size → draft.Attached stmt := by
  obtain ⟨count, search, steps, finished⟩ := Search.exists_end hangs
  have invariant := (steps.invariant hangs).1
  rw [detached?_eq hangs steps finished, List.find?_eq_none]
  simp only [StatementTable.mem_ids, decide_eq_true_iff, not_not,
    (invariant.mem_visited_iff hangs finished).1]
  rfl

end Draft
end ProtectedRegions
