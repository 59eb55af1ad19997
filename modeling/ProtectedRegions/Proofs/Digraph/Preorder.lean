import Mathlib.Data.Finset.Card
import Mathlib.Data.Finset.Range
import Mathlib.Data.List.Infix
import Mathlib.Data.List.Nodup
import Mathlib.Logic.Relation
import ProtectedRegions.Proofs.Digraph.Session

/-!
# Depth-first pre-order

The recursive traversal visits a node and then, in the order of the edges, each successor that was
not visited before. In its order, the next node is always the first successor that is still
outstanding of the latest node that has such successors, and no other order of the same nodes is
depth-first in this sense.
-/

namespace ProtectedRegions
namespace Digraph

variable {ν ε : Type} {graph : Digraph ν ε} {visited todo after : List Nat} {node start : Nat}

/-- An edge leads from the one node to the other. -/
def Leads (graph : Digraph ν ε) (node next : Nat) : Prop := next ∈ graph.successors node

/-- The recursive traversal: it visits the nodes of a list in turn, each with its successors after
it, and skips those that were visited before. The nodes visited are listed in their order. -/
inductive Visits (graph : Digraph ν ε) : List Nat → List Nat → List Nat → Prop where
  | done {visited : List Nat} : Visits graph visited [] visited
  | skip {visited rest after : List Nat} {node : Nat} (known : node ∈ visited)
      (later : Visits graph visited rest after) : Visits graph visited (node :: rest) after
  | visit {visited within rest after : List Nat} {node : Nat} (new : node ∉ visited)
      (inner : Visits graph (visited ++ [node]) (graph.successors node) within)
      (later : Visits graph within rest after) : Visits graph visited (node :: rest) after

/-- Visits a node that was not visited before, and then its successors in turn. Visits nest up to
`depth`. -/
def visit (graph : Digraph ν ε) : Nat → List Nat → Nat → List Nat
  | 0, visited, _ => visited
  | depth + 1, visited, node =>
    if node ∈ visited then visited
    else (graph.successors node).foldl (graph.visit depth) (visited ++ [node])

/-- The nodes that `start` leads to, in the order of the recursive traversal. Each visit within
another is to one node more, so they nest no deeper than there are nodes. -/
def preorder (graph : Digraph ν ε) (start : Nat) : List Nat := graph.visit graph.size [] start

/-! ### The recursive traversal -/

/-- The nodes visited in addition are all those to be visited and the successors of each other. -/
theorem Visits.exists_new (visits : graph.Visits visited todo after) :
    ∃ new, after = visited ++ new ∧ todo ⊆ after ∧
      ∀ node ∈ new, graph.successors node ⊆ after := by
  induction visits with
  | done => exact ⟨[], (List.append_nil _).symm, List.nil_subset _, nofun⟩
  | skip known _ ih =>
    obtain ⟨new, rfl, later, closed⟩ := ih
    exact ⟨new, rfl, List.cons_subset.mpr ⟨List.mem_append_left _ known, later⟩, closed⟩
  | @visit visited within rest after node _ _ _ ihInner ihLater =>
    obtain ⟨below, rfl, inner, closedInner⟩ := ihInner
    obtain ⟨beside, rfl, later, closedLater⟩ := ihLater
    refine ⟨node :: below ++ beside, by simp, List.cons_subset.mpr ⟨by simp, later⟩, ?_⟩
    intro other mem
    rcases List.mem_append.mp mem with mem | mem
    · rcases List.mem_cons.mp mem with rfl | mem
      · exact List.subset_append_of_subset_left _ inner
      · exact List.subset_append_of_subset_left _ (closedInner other mem)
    · exact closedLater other mem

/-- What was visited remains visited. -/
theorem Visits.subset (visits : graph.Visits visited todo after) : visited ⊆ after := by
  obtain ⟨new, rfl, -, -⟩ := visits.exists_new
  exact List.subset_append_left _ _

/-- No node is visited twice. -/
theorem Visits.nodup (visits : graph.Visits visited todo after) (nodup : visited.Nodup) :
    after.Nodup := by
  induction visits with
  | done => exact nodup
  | skip _ _ ih => exact ih nodup
  | visit new _ _ ihInner ihLater =>
    exact ihLater (ihInner (List.concat_eq_append ▸ nodup.concat new))

/-- Visited are only nodes that edges lead to. -/
theorem Visits.reached (visits : graph.Visits visited todo after) (mem : node ∈ after) :
    node ∈ visited ∨ ∃ root ∈ todo, Relation.ReflTransGen graph.Leads root node := by
  induction visits with
  | done => exact .inl mem
  | skip _ _ ih =>
    refine (ih mem).imp_right fun ⟨root, listed, leads⟩ ↦ ?_
    exact ⟨root, List.mem_cons_of_mem _ listed, leads⟩
  | @visit visited within rest after head new _ _ ihInner ihLater =>
    rcases ihLater mem with before | ⟨root, listed, leads⟩
    · rcases ihInner before with before | ⟨next, listed, leads⟩
      · rcases List.mem_append.mp before with old | same
        · exact .inl old
        · exact .inr ⟨head, List.mem_cons_self, List.mem_singleton.mp same ▸ .refl⟩
      · exact .inr ⟨head, List.mem_cons_self, .head listed leads⟩
    · exact .inr ⟨root, List.mem_cons_of_mem _ listed, leads⟩

/-! ### Nesting -/

/-- The number of nodes that are not in the list. -/
def remaining (graph : Digraph ν ε) (nodes : List Nat) : Nat :=
  ((Finset.range graph.size).filter (· ∉ nodes)).card

/-- There are no more remaining nodes than nodes. -/
theorem remaining_le (graph : Digraph ν ε) (nodes : List Nat) :
    graph.remaining nodes ≤ graph.size :=
  (Finset.card_filter_le _ _).trans_eq (Finset.card_range _)

/-- A longer list leaves no more nodes. -/
theorem remaining_le_of_subset {nodes more : List Nat} (subset : nodes ⊆ more) :
    graph.remaining more ≤ graph.remaining nodes :=
  Finset.card_le_card (Finset.monotone_filter_right _ fun _ _ new old ↦ new (subset old))

/-- A list with one node more leaves fewer. -/
theorem remaining_lt_of_subset {nodes more : List Nat} (subset : nodes ⊆ more)
    (inside : node < graph.size) (new : node ∉ nodes) (listed : node ∈ more) :
    graph.remaining more < graph.remaining nodes := by
  refine Finset.card_lt_card (Finset.ssubset_iff_of_subset ?_ |>.mpr ⟨node, ?_, ?_⟩)
  · exact Finset.monotone_filter_right _ fun _ _ new old ↦ new (subset old)
  · exact Finset.mem_filter.mpr ⟨Finset.mem_range.mpr inside, new⟩
  · exact fun mem ↦ (Finset.mem_filter.mp mem).2 listed

/-- A visit leaves fewer nodes. -/
theorem remaining_concat_lt {nodes : List Nat} (inside : node < graph.size)
    (new : node ∉ nodes) : graph.remaining (nodes ++ [node]) < graph.remaining nodes :=
  graph.remaining_lt_of_subset (List.subset_append_left _ _) inside new
    (List.mem_append_right _ List.mem_cons_self)

/-- With a depth for every remaining node, the traversal is carried out in full. The induction is on
the depth for what lies below a node, and on the list for its siblings. -/
theorem visits_foldl_visit (joined : graph.Joined) (depth : Nat)
    (room : graph.remaining visited ≤ depth) (nodes : ∀ node ∈ todo, node < graph.size) :
    graph.Visits visited todo (todo.foldl (graph.visit depth) visited) := by
  induction depth generalizing visited todo with
  | zero =>
    induction todo with
    | nil => exact .done
    | cons node rest ih =>
      refine .skip ?_ (ih fun other mem ↦ nodes other (List.mem_cons_of_mem _ mem))
      by_contra new
      have := graph.remaining_concat_lt (nodes node List.mem_cons_self) new
      omega
  | succ depth deeper =>
    induction todo generalizing visited with
    | nil => exact .done
    | cons node rest ih =>
      have others : ∀ other ∈ rest, other < graph.size :=
        fun other mem ↦ nodes other (List.mem_cons_of_mem _ mem)
      rw [List.foldl_cons, visit]
      split
      · next known => exact .skip known (ih room others)
      · next new =>
        have fewer := graph.remaining_concat_lt (nodes node List.mem_cons_self) new
        have inner := deeper (by omega : graph.remaining (visited ++ [node]) ≤ depth)
          fun other (mem : other ∈ graph.successors node) ↦ joined.lt_size mem
        have kept := graph.remaining_le_of_subset inner.subset
        exact .visit new inner (ih (by omega) others)

/-- The pre-order is the order of the recursive traversal. -/
theorem visits_preorder (joined : graph.Joined) (inside : start < graph.size) :
    graph.Visits [] [start] (graph.preorder start) :=
  visits_foldl_visit joined graph.size (graph.remaining_le [])
    fun _ mem ↦ List.mem_singleton.mp mem ▸ inside

/-- The pre-order begins with the start. -/
theorem exists_preorder_eq_cons (joined : graph.Joined) (inside : start < graph.size) :
    ∃ rest, graph.preorder start = start :: rest ∧
      graph.Visits [start] (graph.successors start) (start :: rest) := by
  generalize same : graph.preorder start = order
  cases same ▸ visits_preorder joined inside with
  | skip known _ => cases known
  | visit _ inner later =>
    cases later
    obtain ⟨new, rfl, -, -⟩ := inner.exists_new
    exact ⟨new, rfl, inner⟩

/-- The pre-order lists no node twice. -/
theorem nodup_preorder (joined : graph.Joined) (inside : start < graph.size) :
    (graph.preorder start).Nodup :=
  (visits_preorder joined inside).nodup List.nodup_nil

/-- The pre-order lists exactly the nodes that the start leads to. -/
theorem mem_preorder (joined : graph.Joined) (inside : start < graph.size) :
    node ∈ graph.preorder start ↔ Relation.ReflTransGen graph.Leads start node := by
  have visits := visits_preorder joined inside
  constructor
  · intro mem
    obtain ⟨root, listed, leads⟩ := (visits.reached mem).resolve_left List.not_mem_nil
    exact List.mem_singleton.mp listed ▸ leads
  · obtain ⟨new, same, first, closed⟩ := visits.exists_new
    rw [List.nil_append] at same
    intro leads
    induction leads with
    | refl => exact first List.mem_cons_self
    | tail _ step mem => exact closed _ (same ▸ mem) step

/-! ### Orders that are depth-first -/

/-- When a node `b` comes after a node `a` while a successor `c` of `a` is still to come, `b` stands
before `c` among the successors of `a`, or it is a successor of a node between `a` and `b`. -/
def IsDepthFirst (graph : Digraph ν ε) (order : List Nat) : Prop :=
  ∀ ⦃before between rest : List Nat⦄ ⦃a b : Nat⦄, order = before ++ a :: between ++ b :: rest →
    ∀ c ∈ graph.successors a, c ∉ before ++ a :: between → c ≠ b →
      (graph.successors a).idxOf b < (graph.successors a).idxOf c ∨
        ∃ later ∈ between, b ∈ graph.successors later

/-- The nodes of `todo` are the last successors of a visited node; its other successors were
visited, and so were all successors of the nodes visited after it. -/
def Pending (graph : Digraph ν ε) (visited todo : List Nat) : Prop :=
  ∃ before parent between passed, visited = before ++ parent :: between ∧
    graph.successors parent = passed ++ todo ∧ passed ⊆ visited ∧
      ∀ node ∈ between, graph.successors node ⊆ visited

/-- The latest node is one whose successors may be visited next. -/
theorem pending_successors (visited : List Nat) (node : Nat) :
    graph.Pending (visited ++ [node]) (graph.successors node) :=
  ⟨visited, node, [], [], rfl, rfl, List.nil_subset _, nofun⟩

/-- Once a node and all that follows from it is visited, its siblings are next. -/
theorem Pending.tail {rest new : List Nat} (pending : graph.Pending visited (node :: rest))
    (done : node ∈ visited ++ new)
    (closed : ∀ other ∈ new, graph.successors other ⊆ visited ++ new) :
    graph.Pending (visited ++ new) rest := by
  obtain ⟨before, parent, between, passed, rfl, split, known, all⟩ := pending
  refine ⟨before, parent, between ++ new, passed ++ [node], by simp, by simp [split], ?_, ?_⟩
  · exact List.append_subset.mpr ⟨List.subset_append_of_subset_left _ known, by simpa using done⟩
  · intro other mem
    rcases List.mem_append.mp mem with mem | mem
    · exact List.subset_append_of_subset_left _ (all other mem)
    · exact closed other mem

/-- If a visited node has a successor to visit, there is a latest such node, with a first such
successor. -/
theorem exists_pending {known next : Nat} (mem : known ∈ visited) (leads : graph.Leads known next)
    (new : next ∉ visited) :
    ∃ node rest, graph.Pending visited (node :: rest) ∧ node ∉ visited := by
  obtain ⟨parent, latest⟩ : ∃ parent, visited.reverse.find?
      (fun node ↦ (graph.successors node).any (· ∉ visited)) = some parent := by
    refine Option.isSome_iff_exists.mp (List.find?_isSome.mpr ⟨known, by simpa using mem, ?_⟩)
    exact List.any_eq_true.mpr ⟨next, leads, decide_eq_true new⟩
  obtain ⟨open', later, earlier, place, closed⟩ := List.find?_eq_some_iff_append.mp latest
  obtain ⟨node, first⟩ := Option.isSome_iff_exists.mp
    (List.find?_isSome.mpr (List.any_eq_true.mp open'))
  obtain ⟨fresh, passed, rest, split, before⟩ := List.find?_eq_some_iff_append.mp first
  refine ⟨node, rest, ⟨earlier.reverse, parent, later.reverse, passed, ?_, split, ?_, ?_⟩, ?_⟩
  · rw [← List.reverse_reverse visited, place]
    simp
  · exact fun other mem ↦ by simpa using before other mem
  · intro other mem successor listed
    have := closed other (List.mem_reverse.mp mem)
    simp only [Bool.not_eq_true', List.any_eq_false, decide_eq_true_eq, Decidable.not_not] at this
    exact this successor listed
  · exact of_decide_eq_true fresh

/-- Of the members of a list that are not among its first ones, the one that follows these comes
first. -/
theorem idxOf_lt_idxOf {passed rest : List Nat} {first other : Nat} (new : first ∉ passed)
    (fresh : other ∉ passed) (ne : other ≠ first) :
    (passed ++ first :: rest).idxOf first < (passed ++ first :: rest).idxOf other := by
  rw [List.idxOf_append_of_notMem new, List.idxOf_append_of_notMem fresh, List.idxOf_cons_self,
    List.idxOf_cons_ne _ ne.symm]
  omega

/-- A single node is in order. -/
theorem isDepthFirst_singleton (node : Nat) : graph.IsDepthFirst [node] := by
  intro before between rest a b split
  have := congrArg List.length split
  simp only [List.length_append, List.length_cons, List.length_nil] at this
  omega

/-- The first successor to visit of the latest node that has one keeps an order depth-first. -/
theorem IsDepthFirst.concat {rest : List Nat} (law : graph.IsDepthFirst visited)
    (pending : graph.Pending visited (node :: rest)) (new : node ∉ visited) :
    graph.IsDepthFirst (visited ++ [node]) := by
  intro before between later a b split c step fresh ne
  rcases List.eq_nil_or_concat' later with rfl | ⟨front, last, rfl⟩
  · obtain ⟨same, tail⟩ := List.append_inj' split rfl
    cases tail
    obtain ⟨older, parent, newer, passed, place, successors, known, all⟩ := pending
    rw [← same] at fresh
    have first (equal : a = parent) :
        (graph.successors a).idxOf node < (graph.successors a).idxOf c := by
      rw [equal, successors]
      exact idxOf_lt_idxOf (fun mem ↦ new (known mem)) (fun mem ↦ fresh (known mem)) ne
    -- The node stands before the parent, is the parent, or comes after it with nothing to visit.
    rcases List.append_eq_append_iff.mp (same.symm.trans place) with
      ⟨_ | ⟨_, gap⟩, -, tail⟩ | ⟨_ | ⟨_, gap⟩, -, tail⟩
    · exact .inl (first (List.cons.inj tail).1)
    · obtain ⟨-, rfl⟩ := List.cons.inj tail
      exact .inr ⟨parent, by simp, by simp [successors]⟩
    · exact .inl (first (List.cons.inj tail).1.symm)
    · obtain ⟨-, rfl⟩ := List.cons.inj tail
      exact absurd (all a (by simp) step) fresh
  · rw [← List.cons_append, ← List.append_assoc] at split
    exact law (List.append_inj' split rfl).1 c step fresh ne

/-- A depth-first order goes on with the first successor to visit of the latest node that has
one. -/
theorem IsDepthFirst.next_eq {rest others : List Nat} {next : Nat}
    (law : graph.IsDepthFirst (visited ++ next :: rest)) (missing : next ∉ visited)
    (pending : graph.Pending visited (node :: others)) (new : node ∉ visited) : next = node := by
  by_contra ne
  obtain ⟨before, parent, between, passed, rfl, successors, known, all⟩ := pending
  have step : node ∈ graph.successors parent := by simp [successors]
  rcases law rfl node step new (Ne.symm ne) with early | ⟨later, mem, leads⟩
  · have late : (passed ++ node :: others).idxOf node < (passed ++ node :: others).idxOf next :=
      idxOf_lt_idxOf (fun mem ↦ new (known mem)) (fun mem ↦ missing (known mem)) ne
    rw [successors] at early
    omega
  · exact missing (all later mem leads)

/-- A traversal that goes on where an order stands keeps it depth-first. -/
theorem Visits.isDepthFirst (visits : graph.Visits visited todo after)
    (law : graph.IsDepthFirst visited) (pending : graph.Pending visited todo) :
    graph.IsDepthFirst after := by
  induction visits with
  | done => exact law
  | @skip visited _ _ _ known _ ih =>
    have still : _ ∈ visited ++ [] := List.mem_append_left _ known
    refine ih law ?_
    simpa using pending.tail still nofun
  | @visit visited within rest after node new inner _ ihInner ihLater =>
    have within := ihInner (law.concat pending new) (pending_successors _ _)
    obtain ⟨below, rfl, first, closed⟩ := inner.exists_new
    refine ihLater within ?_
    rw [List.append_assoc] at first closed ⊢
    refine pending.tail (by simp) fun other mem ↦ ?_
    rcases List.mem_cons.mp mem with rfl | mem
    · exact first
    · exact closed other mem

/-- The order of the recursive traversal is depth-first. -/
theorem isDepthFirst_preorder (joined : graph.Joined) (inside : start < graph.size) :
    graph.IsDepthFirst (graph.preorder start) := by
  obtain ⟨rest, same, visits⟩ := exists_preorder_eq_cons joined inside
  rw [same]
  exact visits.isDepthFirst (isDepthFirst_singleton start) (pending_successors [] start)

/-- What edges lead to from a visited node is visited, or some edge leads out of the visited
nodes. -/
theorem exists_leads_out (mem : start ∈ visited)
    (leads : Relation.ReflTransGen graph.Leads start node) (new : node ∉ visited) :
    ∃ known ∈ visited, ∃ next, graph.Leads known next ∧ next ∉ visited := by
  induction leads with
  | refl => exact absurd mem new
  | @tail known next _ step ih =>
    by_cases seen : known ∈ visited
    · exact ⟨known, seen, next, step, new⟩
    · exact ih seen

/-- A node that comes next is not yet visited. -/
theorem notMem_of_nodup {rest : List Nat} (nodup : (visited ++ node :: rest).Nodup) :
    node ∉ visited := fun mem ↦
  List.disjoint_of_nodup_append nodup mem List.mem_cons_self

/-- From where they part, two depth-first orders of what a node leads to go on alike. -/
theorem IsDepthFirst.unique (visited : List Nat) {first second : List Nat}
    (lawFirst : graph.IsDepthFirst (visited ++ first))
    (lawSecond : graph.IsDepthFirst (visited ++ second))
    (nodupFirst : (visited ++ first).Nodup) (nodupSecond : (visited ++ second).Nodup)
    (memFirst : ∀ node, node ∈ visited ++ first ↔ Relation.ReflTransGen graph.Leads start node)
    (memSecond : ∀ node, node ∈ visited ++ second ↔ Relation.ReflTransGen graph.Leads start node)
    (begun : start ∈ visited) : first = second := by
  induction first generalizing visited second with
  | nil =>
    cases second with
    | nil => rfl
    | cons next rest =>
      have mem : next ∈ visited ++ [] := (memFirst next).mpr ((memSecond next).mp (by simp))
      exact absurd (by simpa using mem) (notMem_of_nodup nodupSecond)
  | cons next rest ih =>
    have missing := notMem_of_nodup nodupFirst
    cases second with
    | nil =>
      have mem : next ∈ visited ++ [] := (memSecond next).mpr ((memFirst next).mp (by simp))
      exact absurd (by simpa using mem) missing
    | cons other rest' =>
      obtain ⟨known, mem, out, leads, new⟩ :=
        exists_leads_out begun ((memFirst next).mp (by simp)) missing
      obtain ⟨node, others, pending, new⟩ := exists_pending mem leads new
      obtain rfl := lawFirst.next_eq missing pending new
      obtain rfl := lawSecond.next_eq (notMem_of_nodup nodupSecond) pending new
      rw [List.append_cons] at lawFirst lawSecond nodupFirst nodupSecond memFirst memSecond
      rw [ih _ lawFirst lawSecond nodupFirst nodupSecond memFirst memSecond
        (List.mem_append_left _ begun)]

end Digraph
end ProtectedRegions
