import Mathlib.Data.List.Sort
import ProtectedRegions.Proofs.Lowering.ClauseTable

/-!
# Active regions

The regions that are active at an offset are found on the way down from the method, entering at
each region the first child that covers the offset. As the regions nest, no region that covers the
offset is missed.
-/

namespace ProtectedRegions

namespace RegionTree

variable {tree : RegionTree}

/-- A region that is entered is a child that covers the offset. -/
theorem exists_of_find?_children {id child : RegionId} {offset : Nat}
    (entered : (tree.children id).find? (tree.covers offset) = some child) :
    child ∈ tree.children id ∧
      ∃ region, tree.region? child = some region ∧ region.span.covers offset = true := by
  have covered := List.find?_some entered
  rw [covers, Option.any_eq_true] at covered
  exact ⟨List.mem_of_find?_eq_some entered, covered⟩

namespace Nested

variable (nested : tree.Nested) {region outer : Region}

include nested

/-- The parent of a region has a smaller id. -/
theorem lt_of_parent? {outer inner : RegionId} (link : tree.parent? inner = some outer) :
    outer.index < inner.index := by
  obtain ⟨region, found, parent⟩ := Option.bind_eq_some_iff.mp link
  obtain rfl := nested.id_eq found
  obtain ⟨_, -, rfl, -, lt⟩ := nested.exists_parent (mem_of_region? found) parent
  exact lt

/-- The children of a region are the regions that have it as their parent. -/
theorem mem_children_iff {outer inner : RegionId} :
    inner ∈ tree.children outer ↔ tree.parent? inner = some outer := by
  constructor
  · intro child
    rw [children] at child
    split at child
    · next region found =>
      obtain ⟨children, family⟩ := nested.family (mem_of_region? found)
      rw [family.ids] at child
      obtain ⟨inner, among, rfl⟩ := List.mem_map.mp child
      rw [← nested.id_eq found]
      exact parent?_child family among
    · cases child
  · intro link
    obtain ⟨region, found, parent⟩ := Option.bind_eq_some_iff.mp link
    obtain rfl := nested.id_eq found
    obtain ⟨outer, listed, rfl, child, -⟩ := nested.exists_parent (mem_of_region? found) parent
    rw [children, nested.region?_id listed]
    exact child

/-- Each region on the way down is a child of the one before. -/
theorem isChain_descendTo (offset depth : Nat) (id : RegionId) :
    (id :: tree.descendTo offset depth id).IsChain
      fun outer inner ↦ tree.parent? inner = some outer := by
  induction depth generalizing id with
  | zero => exact .singleton id
  | succ depth ih =>
    rw [descendTo]
    cases entered : (tree.children id).find? (tree.covers offset) with
    | none => exact .singleton id
    | some child =>
      exact .cons_cons (nested.mem_children_iff.mp (exists_of_find?_children entered).1) (ih child)

/-- The regions on the way down are below its start and cover the offset. -/
theorem of_mem_descendTo {offset depth : Nat} {id inner : RegionId}
    (listed : inner ∈ tree.descendTo offset depth id) :
    tree.Below id inner ∧
      ∃ region, tree.region? inner = some region ∧ region.span.covers offset = true := by
  induction depth generalizing id with
  | zero => cases listed
  | succ depth ih =>
    rw [descendTo] at listed
    split at listed
    · cases listed
    · next child entered =>
      obtain ⟨among, covered⟩ := exists_of_find?_children entered
      have link := nested.mem_children_iff.mp among
      rcases List.mem_cons.mp listed with rfl | listed
      · exact ⟨.single link, covered⟩
      · obtain ⟨below, covered'⟩ := ih listed
        exact ⟨.head link below, covered'⟩

/-- Regions with one parent that cover one offset are the same. -/
theorem eq_of_covers {first second : Region} {parent : RegionId} {offset : Nat}
    (mem : first ∈ tree.regions) (mem' : second ∈ tree.regions)
    (inside : first.parent = some parent) (inside' : second.parent = some parent)
    (covered : first.span.covers offset = true) (covered' : second.span.covers offset = true) :
    first = second := by
  rcases nested.apart_of_siblings mem mem' inside inside' with same | apart
  · exact same
  · rw [Span.covers_iff] at covered covered'
    unfold Span.Apart at apart
    omega

/-- The way down enters the child that covers the offset, as no other one does. -/
theorem find?_children {id : RegionId} {offset : Nat} (mem : region ∈ tree.regions)
    (parent : region.parent = some id) (covered : region.span.covers offset = true) :
    (tree.children id).find? (tree.covers offset) = some region.id := by
  have among := nested.mem_children_iff.mpr ((nested.parent?_id mem).trans parent)
  cases entered : (tree.children id).find? (tree.covers offset) with
  | none =>
    refine absurd ?_ (List.find?_eq_none.mp entered _ among)
    rw [covers, nested.region?_id mem]
    exact covered
  | some child =>
    obtain ⟨among', other, found, covered'⟩ := exists_of_find?_children entered
    have link := nested.mem_children_iff.mp among'
    obtain rfl := nested.id_eq found
    have mem' := mem_of_region? found
    rw [nested.parent?_id mem'] at link
    rw [nested.eq_of_covers mem mem' parent link covered covered']

/-- A way down that may go deep enough finds each region that covers the offset. -/
theorem mem_descendTo {offset depth : Nat} {id : RegionId} (mem : region ∈ tree.regions)
    (below : tree.Below id region.id) (covered : region.span.covers offset = true)
    (deep : tree.regions.length ≤ depth + id.index) :
    region.id ∈ tree.descendTo offset depth id := by
  induction depth generalizing id with
  | zero =>
    have inside : region.id.index < tree.regions.length :=
      (List.getElem?_eq_some_iff.mp (nested.region?_id mem)).1
    have := nested.lt_of_below mem below
    omega
  | succ depth ih =>
    obtain ⟨child, among, parent, around⟩ := nested.exists_child below
    have entered := nested.find?_children among parent
      (Span.covers_of_encloses (nested.encloses_of_atOrBelow among mem around) covered)
    rw [descendTo, entered]
    rcases atOrBelow_iff.mp around with same | below
    · exact same ▸ List.mem_cons_self
    · have := nested.lt_of_parent? ((nested.parent?_id among).trans parent)
      exact List.mem_cons_of_mem _ (ih below (by omega))

/-- The regions that are active at an offset are those below the method that cover it. -/
theorem mem_activeAt {offset : Nat} {id : RegionId} : id ∈ tree.activeAt offset ↔
    id ∈ ((tree.covering offset).map (·.id)).filter (· ≠ root) := by
  simp only [activeAt, covering, List.mem_reverse, List.mem_filter, List.mem_map, decide_not,
    Bool.not_eq_eq_eq_not, Bool.not_true, decide_eq_false_iff_not]
  constructor
  · intro listed
    obtain ⟨below, region, found, covered⟩ := nested.of_mem_descendTo listed
    obtain rfl := nested.id_eq found
    have lt := nested.lt_of_below (mem_of_region? found) below
    refine ⟨⟨region, ⟨mem_of_region? found, covered⟩, rfl⟩, fun top ↦ ?_⟩
    rw [top] at lt
    exact lt_irrefl _ lt
  · rintro ⟨⟨region, ⟨mem, covered⟩, rfl⟩, notRoot⟩
    rcases atOrBelow_iff.mp (nested.atOrBelow_root mem) with top | below
    · exact (notRoot top).elim
    · exact nested.mem_descendTo mem below covered (Nat.le_add_right _ _)

/-- Each active region has the next one as its parent, and the last one has the method. -/
theorem isChain_activeAt (offset : Nat) : (tree.activeAt offset ++ [root]).IsChain
    fun inner outer ↦ tree.parent? inner = some outer := by
  have chain := nested.isChain_descendTo offset tree.regions.length root
  rw [← List.isChain_reverse, List.reverse_cons] at chain
  exact chain

/-- The ids of the active regions decrease. -/
theorem pairwise_activeAt (offset : Nat) :
    (tree.activeAt offset).Pairwise fun inner outer ↦ outer.index < inner.index := by
  have trans : IsTrans RegionId fun inner outer ↦ outer.index < inner.index :=
    ⟨fun _ _ _ first second ↦ second.trans first⟩
  have chain := (nested.isChain_activeAt offset).imp fun _ _ ↦ nested.lt_of_parent?
  exact chain.left_of_append.pairwise

/-- The regions that are active at an offset are those below the method that cover it, in the
reverse order of their ids. -/
theorem activeAt_eq (offset : Nat) : tree.activeAt offset =
    (((tree.covering offset).map (·.id)).filter (· ≠ root)).reverse := by
  have irrefl : Std.Irrefl fun inner outer : RegionId ↦ outer.index < inner.index :=
    ⟨fun _ ↦ lt_irrefl _⟩
  have asymm : Std.Asymm fun inner outer : RegionId ↦ outer.index < inner.index :=
    ⟨fun _ _ ↦ Nat.lt_asymm⟩
  have ordered : ((tree.covering offset).map (·.id)).Pairwise (·.index < ·.index) :=
    List.pairwise_map.mpr (nested.pairwise_regions.filter _)
  exact (nested.pairwise_activeAt offset).eq_of_mem_iff
    (List.pairwise_reverse.mpr (ordered.filter _))
    fun id ↦ nested.mem_activeAt.trans List.mem_reverse.symm

end Nested
end RegionTree

namespace Config

/-- The regions that are active at an offset are all that cover it but the method, by strictly
decreasing ids. That is from the inside out: the parent of each is the next one, and the parent of
the last one is the method. Behind the end of the stream no region is active. -/
theorem activeAt_eq_covering {draft : Draft} {body : Body} (made : draft.toBody = .ok body)
    {config : Config} {tree : RegionTree} (builds : config.Builds body tree) (offset : Nat) :
    tree.activeAt offset =
      (((tree.covering offset).map (·.id)).filter (· ≠ RegionTree.root)).reverse ∧
    (tree.activeAt offset).Pairwise (fun inner outer ↦ outer.index < inner.index) ∧
    (tree.activeAt offset ++ [RegionTree.root]).IsChain
      (fun inner outer ↦ tree.parent? inner = some outer) ∧
    (tree.instructions.length ≤ offset → tree.activeAt offset = []) := by
  obtain ⟨flow, analysed⟩ := builds.exists_flow
  obtain ⟨accepted, rfl, root, member, rfl⟩ := builds.exists_root made analysed
  have formed := accepted.methodFormed config member
  have nested := formed.nested Flow.reads_methodTree
  refine ⟨nested.activeAt_eq offset, nested.pairwise_activeAt offset,
    nested.isChain_activeAt offset, fun behind ↦ List.eq_nil_iff_forall_not_mem.mpr ?_⟩
  intro id listed
  obtain ⟨-, region, found, covered⟩ := nested.of_mem_descendTo (List.mem_reverse.mp listed)
  have stop := formed.stop_le Flow.reads_methodTree (RegionTree.mem_of_region? found)
  rw [Span.covers_iff] at covered
  omega

end Config

/-- A `finally` whose handler starts with the protected block of a `try`. -/
def Draft.tucked : Draft where
  statements := #[.expression [], .expression [], .tryCatch ⟨0⟩ [⟨none, none, none, ⟨1⟩⟩],
    .expression [], .tryFinally ⟨3⟩ ⟨2⟩]
  labelCount := 0
  localCount := 0
  root := ⟨4⟩

/-- The protected block, its group and the `finally` are active where the handler starts. -/
theorem Config.activeAt_eq_covering_tucked :
    ∃ body tree block group outer, Draft.tucked.toBody = .ok body ∧
      Config.default.build body = .ok tree ∧ tree.activeAt 2 = [block, group, outer] ∧
      (∃ region, tree.region? outer = some region ∧ region.handler = some (.ofLength 2 5)) ∧
      (tree.activeAt 2 ++ [RegionTree.root]).IsChain
        (fun inner outer ↦ tree.parent? inner = some outer) := by
  have tucks : Config.default.tests .tucked (fun _ tree ↦ decide
      ((tree.covering 2).map (·.id) = [⟨0⟩, ⟨1⟩, ⟨3⟩, ⟨4⟩] ∧
        (tree.region? ⟨1⟩).map (·.handler) = some (some (.ofLength 2 5)))) = true := by
    decide +kernel
  obtain ⟨body, flow, tree, made, -, built, holds⟩ := exists_built tucks
  obtain ⟨covering, handler⟩ := of_decide_eq_true holds
  obtain ⟨active, -, chain, -⟩ := activeAt_eq_covering made (.outer built) 2
  rw [covering] at active
  exact ⟨body, tree, ⟨4⟩, ⟨3⟩, ⟨1⟩, made, built, active, Option.map_eq_some_iff.mp handler, chain⟩

end ProtectedRegions
