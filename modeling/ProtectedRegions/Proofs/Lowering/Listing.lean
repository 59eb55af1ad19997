import ProtectedRegions.Proofs.Lowering.ClauseTable
import ProtectedRegions.Proofs.Region.Listing

/-!
# The listing of a method

The brackets of a listing are drawn around protected blocks, filters and handlers. Two of them nest
or lie apart, as the regions do that they are drawn for, and those that open first are the outer
ones. So the listing of a method is balanced.
-/

namespace ProtectedRegions

theorem ListingBlock.precedes_iff {first second : ListingBlock} :
    first.precedes second = true ↔ first.span.start < second.span.start ∨
      first.span.start = second.span.start ∧ second.span.stop ≤ first.span.stop := by
  simp [precedes]

/-- Sorting keeps the order of elements that may come in either order. -/
private theorem pairwise_mergeSort_of_pairwise {α : Type} {le : α → α → Bool} {R : α → α → Prop}
    {list : List α} (trans : ∀ x y z, le x y = true → le y z = true → le x z = true)
    (total : ∀ x y, (le x y || le y x) = true) (ordered : list.Pairwise R) :
    (list.mergeSort le).Pairwise fun x y ↦ le x y = true ∧ (le y x = true → R x y) := by
  refine (List.pairwise_mergeSort trans total list).and ?_
  induction list with
  | nil => simp
  | cons x rest ih =>
    obtain ⟨first, ordered⟩ := List.pairwise_cons.mp ordered
    have ih := ih ordered
    obtain ⟨before, behind, sorted, sorted', earlier⟩ := List.mergeSort_cons trans total x rest
    rw [sorted', List.pairwise_append] at ih
    rw [sorted, List.pairwise_append, List.pairwise_cons]
    refine ⟨ih.1, ⟨fun y mem _ ↦ first y ?_, ih.2.1⟩, fun y mem z mem' le' ↦ ?_⟩
    · exact List.mem_mergeSort.mp (sorted' ▸ List.mem_append_right _ mem)
    · rcases List.mem_cons.mp mem' with rfl | mem'
      · have later := earlier y mem
        simp [le'] at later
      · exact ih.2.2 y mem z mem' le'

namespace RegionTree

/-- Whether a region holds catch handlers. -/
def IsGroup (tree : RegionTree) (region : Region) : Prop :=
  ∃ child ∈ tree.regions, child.parent = some region.id ∧
    (child.kind = .catchBlock ∨ child.kind = .filterBlock)

/-- Whether the parent of a region is a `finally` or `fault`. -/
def IsGuarded (tree : RegionTree) (region : Region) : Prop :=
  ∃ outer ∈ tree.regions, region.parent = some outer.id ∧ outer.kind.hasHandler = true

/-- What a listing draws a bracket around. -/
inductive Draws (tree : RegionTree) (region : Region) (span : Span) : Prop
  /-- A filter or a catch handler. -/
  | clause (kind : region.kind = .catchBlock ∨ region.kind = .filterBlock)
      (own : region.span = span)
  /-- A protected block, which may be a group if its parent is a `finally` or `fault`. -/
  | block (kind : region.kind = .tryBlock) (guarded : tree.IsGroup region → tree.IsGuarded region)
      (own : region.span = span)
  /-- The handler of a `finally` or `fault`. -/
  | handler (kind : region.kind.hasHandler = true) (holds : region.handler = some span)

/-- The brackets that are drawn for the regions of a tree, in the order of these. -/
def drawn (tree : RegionTree) : List Bracket :=
  tree.regions.filterMap fun region ↦
    (ListingBlock.ofRegion? tree region).map fun block ↦ ⟨block, region⟩

/-- The brackets of the listing of a tree, in the order in which they open. -/
def brackets (tree : RegionTree) : List Bracket :=
  tree.drawn.mergeSort fun first second ↦ first.precedes second.toListingBlock

/-- The items of the listing of a tree. -/
def listingItems (tree : RegionTree) : List ListingItem :=
  itemsFrom tree.brackets 0 tree.instructions

variable {tree : RegionTree}

/-- The brackets are the blocks of the listing. -/
theorem map_brackets : tree.brackets.map (·.toListingBlock) = tree.listingBlocks := by
  have blocks : tree.drawn.map (·.toListingBlock) =
      tree.regions.filterMap (ListingBlock.ofRegion? tree) := by
    rw [drawn, List.map_filterMap]
    refine List.filterMap_congr fun region _ ↦ ?_
    rw [Option.map_map]
    exact Option.map_id_apply
  rw [listingBlocks, ← blocks]
  exact List.map_mergeSort fun _ _ _ _ ↦ rfl

/-- The brackets are those that are drawn, in another order. -/
theorem perm_brackets : tree.brackets.Perm tree.drawn := List.mergeSort_perm _ _

theorem mem_brackets {bracket : Bracket} : bracket ∈ tree.brackets ↔
    bracket.region ∈ tree.regions ∧
      ListingBlock.ofRegion? tree bracket.region = some bracket.toListingBlock := by
  rw [perm_brackets.mem_iff, drawn, List.mem_filterMap]
  simp only [Option.map_eq_some_iff]
  constructor
  · rintro ⟨region, mem, block, made, rfl⟩
    exact ⟨mem, made⟩
  · rintro ⟨mem, made⟩
    exact ⟨bracket.region, mem, bracket.toListingBlock, made, rfl⟩

namespace Nested

variable (nested : tree.Nested) {region : Region}

include nested

theorem isGroup_iff (mem : region ∈ tree.regions) :
    ListingBlock.isGroup tree region = true ↔ tree.IsGroup region := by
  obtain ⟨children, family⟩ := nested.family mem
  simp only [ListingBlock.isGroup, childRegions_eq family, List.any_eq_true, Bool.or_eq_true,
    beq_iff_eq]
  constructor
  · rintro ⟨child, among, kind⟩
    exact ⟨child, mem_of_region? (family.found child among), family.parent child among, kind⟩
  · rintro ⟨child, mem', parent, kind⟩
    exact ⟨child, nested.mem_children family mem mem' parent, kind⟩

theorem isGuarded_iff : ListingBlock.isGuarded tree region = true ↔ tree.IsGuarded region := by
  simp only [ListingBlock.isGuarded, Option.any_eq_true, Option.bind_eq_some_iff]
  constructor
  · rintro ⟨outer, ⟨id, parent, found⟩, kind⟩
    obtain rfl := nested.id_eq found
    exact ⟨outer, mem_of_region? found, parent, kind⟩
  · rintro ⟨outer, mem, parent, kind⟩
    exact ⟨outer, ⟨outer.id, parent, nested.region?_id mem⟩, kind⟩

/-- The blocks of the listing are what brackets are drawn around. -/
theorem draws_iff (mem : region ∈ tree.regions) {span : Span} : tree.Draws region span ↔
    ∃ block, ListingBlock.ofRegion? tree region = some block ∧ block.span = span := by
  constructor
  · rintro (⟨kind | kind, rfl⟩ | ⟨kind, guarded, rfl⟩ | ⟨kind, holds⟩)
    · simp only [ListingBlock.ofRegion?, kind]
      exact ⟨_, rfl, rfl⟩
    · simp only [ListingBlock.ofRegion?, kind]
      exact ⟨_, rfl, rfl⟩
    · rw [← nested.isGroup_iff mem, ← nested.isGuarded_iff] at guarded
      have drawn : ¬ (ListingBlock.isGroup tree region && !ListingBlock.isGuarded tree region) := by
        simpa using guarded
      simp only [ListingBlock.ofRegion?, kind, if_neg drawn]
      exact ⟨_, rfl, rfl⟩
    · cases h : region.kind <;> rw [h] at kind <;> cases kind <;>
        simp only [ListingBlock.ofRegion?, h, holds, Option.map_some] <;> exact ⟨_, rfl, rfl⟩
  · rintro ⟨block, made, rfl⟩
    rw [ListingBlock.ofRegion?] at made
    cases kind : region.kind <;> rw [kind] at made
    case method => cases made
    case tryBlock =>
      simp only [Option.ite_none_left_eq_some, Bool.and_eq_true, Bool.not_eq_true',
        not_and, Bool.not_eq_false, Option.some.injEq] at made
      obtain ⟨guarded, rfl⟩ := made
      rw [nested.isGroup_iff mem, nested.isGuarded_iff] at guarded
      exact .block kind guarded rfl
    case catchBlock | filterBlock =>
      cases made
      exact .clause (by simp [kind]) rfl
    case finallyBlock | faultBlock =>
      obtain ⟨handler, holds, rfl⟩ := Option.map_eq_some_iff.mp made
      exact .handler (by rw [kind]; rfl) holds

/-- The spans of the brackets are those that brackets are drawn around. -/
theorem exists_bracket_iff {span : Span} :
    (∃ bracket ∈ tree.brackets, bracket.region = region ∧ bracket.span = span) ↔
      region ∈ tree.regions ∧ tree.Draws region span := by
  constructor
  · rintro ⟨bracket, mem, rfl, rfl⟩
    obtain ⟨mem, made⟩ := mem_brackets.mp mem
    exact ⟨mem, (nested.draws_iff mem).mpr ⟨_, made, rfl⟩⟩
  · rintro ⟨mem, draws⟩
    obtain ⟨block, made, same⟩ := (nested.draws_iff mem).mp draws
    exact ⟨⟨block, region⟩, mem_brackets.mpr ⟨mem, made⟩, rfl, same⟩

/-- Brackets are drawn in the order of their regions. -/
theorem pairwise_drawn :
    tree.drawn.Pairwise fun first second ↦ first.region.id.index < second.region.id.index := by
  refine List.pairwise_filterMap.mpr (nested.pairwise_regions.imp ?_)
  intro first second lt bracket made bracket' made'
  obtain ⟨_, -, rfl⟩ := Option.map_eq_some_iff.mp made
  obtain ⟨_, -, rfl⟩ := Option.map_eq_some_iff.mp made'
  exact lt

/-- No two brackets are drawn for one region. -/
theorem nodup_brackets : (tree.brackets.map (·.region.id)).Nodup := by
  refine (perm_brackets.map _).nodup_iff.mpr (List.pairwise_map.mpr ?_)
  refine nested.pairwise_drawn.imp fun lt same ↦ ?_
  rw [same] at lt
  exact lt_irrefl _ lt

/-- Brackets open in the order of their starts. Of those with one start the last to stop comes
first, and of those with one span the one of the first region. -/
theorem pairwise_brackets : tree.brackets.Pairwise fun first second ↦
    first.precedes second.toListingBlock = true ∧
      (second.precedes first.toListingBlock = true →
        first.region.id.index < second.region.id.index) := by
  refine pairwise_mergeSort_of_pairwise (fun first second third le le' ↦ ?_)
    (fun first second ↦ ?_) nested.pairwise_drawn
  · rw [ListingBlock.precedes_iff] at *
    omega
  · rw [Bool.or_eq_true, ListingBlock.precedes_iff, ListingBlock.precedes_iff]
    omega

end Nested

namespace Regular

variable (regular : tree.Regular) {first second region : Region} {span span' : Span}

include regular

/-- A bracket is drawn around something inside of its region. -/
theorem encloses_of_draws (mem : region ∈ tree.regions) (draws : tree.Draws region span) :
    region.span.encloses span = true ∧ span.start < span.stop := by
  rcases draws with ⟨-, rfl⟩ | ⟨-, -, rfl⟩ | ⟨kind, holds⟩
  · exact ⟨Span.encloses_refl _, regular.nonempty mem⟩
  · exact ⟨Span.encloses_refl _, regular.nonempty mem⟩
  · obtain ⟨block, rest, handler, family, -, holds', behind, lt, last⟩ := regular.guarded mem kind
    obtain rfl := Option.some.inj (holds'.symm.trans holds)
    have start := (family.ordered.bounds List.mem_cons_self).1
    have := block.span.start_le_stop
    rw [Span.encloses_iff]
    omega

/-- What is below a region is inside of the bracket of the region, or apart from it if that is
drawn around a handler. -/
theorem apart_or_encloses_of_below (mem : first ∈ tree.regions) (mem' : second ∈ tree.regions)
    (draws : tree.Draws first span) (below : tree.Below first.id second.id) :
    span.Apart second.span ∨ span.encloses second.span = true := by
  rcases draws with ⟨-, rfl⟩ | ⟨-, -, rfl⟩ | ⟨kind, holds⟩
  · exact .inr (regular.encloses_of_below mem mem' below)
  · exact .inr (regular.encloses_of_below mem mem' below)
  · obtain ⟨block, rest, handler, family, -, holds', behind, lt, last⟩ := regular.guarded mem kind
    obtain rfl := Option.some.inj (holds'.symm.trans holds)
    obtain ⟨child, among, parent, around⟩ := regular.exists_child below
    have inside := regular.encloses_of_atOrBelow among mem' around
    rw [Span.encloses_iff] at inside ⊢
    -- The first child is over where the handler starts, and the others are in the handler.
    rcases List.mem_cons.mp (regular.mem_children family mem among parent) with rfl | later
    · exact .inl (.inr (by omega))
    · have order := (List.pairwise_cons.mp family.ordered.pairwise).1 child later
      have bounds := family.ordered.bounds (List.mem_cons_of_mem _ later)
      exact .inr (by omega)

/-- A bracket is drawn around those of later regions that it shares an offset with. -/
theorem apart_or_encloses (mem : first ∈ tree.regions) (mem' : second ∈ tree.regions)
    (draws : tree.Draws first span) (draws' : tree.Draws second span')
    (lt : first.id.index < second.id.index) :
    span.Apart span' ∨ span.encloses span' = true := by
  have inside := (regular.encloses_of_draws mem draws).1
  have inside' := (regular.encloses_of_draws mem' draws').1
  rcases regular.laminar mem mem' with around | below | apart
  · have below := (atOrBelow_iff.mp around).resolve_left fun same ↦ by
      rw [same] at lt
      exact lt_irrefl _ lt
    exact (regular.apart_or_encloses_of_below mem mem' draws below).imp
      (·.mono (Span.encloses_refl _) inside') (Span.encloses_trans · inside')
  · exact (lt_asymm lt (regular.lt_of_below mem below)).elim
  · exact .inl (apart.mono inside inside')

/-- Brackets that open first are around those that they share an offset with. -/
theorem arranged {length : Nat} (stop : ∀ region ∈ tree.regions, region.span.stop ≤ length) :
    Arranged length tree.brackets := by
  have draws {bracket : Bracket} (mem : bracket ∈ tree.brackets) :
      bracket.region ∈ tree.regions ∧ tree.Draws bracket.region bracket.span :=
    regular.exists_bracket_iff.mp ⟨bracket, mem, rfl, rfl⟩
  refine ⟨fun mem ↦ ?_, fun mem ↦ ?_, regular.pairwise_brackets.imp fun order ↦ ?_, ?_⟩
  · obtain ⟨mem, draws⟩ := draws mem
    exact (regular.encloses_of_draws mem draws).2
  · obtain ⟨mem, draws⟩ := draws mem
    have inside := (regular.encloses_of_draws mem draws).1
    exact (Span.encloses_iff.mp inside).2.trans (stop _ mem)
  · have := ListingBlock.precedes_iff.mp order.1
    omega
  refine (regular.pairwise_brackets.and (List.pairwise_map.mp regular.nodup_brackets)).imp_of_mem ?_
  rintro first second mem mem' ⟨⟨precedes, inOrder⟩, distinct⟩
  obtain ⟨mem, draws'⟩ := draws mem
  obtain ⟨mem', draws''⟩ := draws mem'
  by_cases lt : first.region.id.index < second.region.id.index
  · exact (regular.apart_or_encloses mem mem' draws' draws'' lt).imp_right fun inside ↦ ⟨lt, inside⟩
  -- A bracket of an earlier region would be around the first one, and would have opened before.
  · have notSame : second.region.id.index ≠ first.region.id.index := fun same ↦
      distinct (congrArg RegionId.mk same).symm
    rcases regular.apart_or_encloses mem' mem draws'' draws' (by omega) with apart | inside
    · exact .inl apart.symm
    · refine (lt (inOrder ?_)).elim
      rw [Span.encloses_iff] at inside
      rw [ListingBlock.precedes_iff] at precedes ⊢
      omega

end Regular
end RegionTree

namespace Config

/-- The listing of a tree that is built draws one bracket around each filter, catch handler and
protected block, and around the handler of each `finally` and `fault`. A group with its catch
handlers has one only if its parent is a `finally` or `fault`. Of two brackets that share an offset
one is inside of the other. The text shows the instructions in order, each indented by the brackets
that cover it. Each bracket opens right before its first instruction and closes right behind its
last one, inner brackets inside of outer ones. -/
theorem listing_balanced {draft : Draft} {body : Body} (made : draft.toBody = .ok body)
    {config : Config} {tree : RegionTree} (builds : config.Builds body tree) :
    (tree.brackets.map (·.region.id)).Nodup ∧
    (∀ region span, (∃ bracket ∈ tree.brackets, bracket.region = region ∧ bracket.span = span) ↔
      region ∈ tree.regions ∧ tree.Draws region span) ∧
    (∀ bracket ∈ tree.brackets,
      ListingBlock.ofRegion? tree bracket.region = some bracket.toListingBlock) ∧
    Arranged tree.instructions.length tree.brackets ∧
    IsListing tree.brackets tree.instructions tree.listingItems ∧
    tree.listing = String.join
      ((tree.listingItems.flatMap (ListingItem.lines tree.brackets)).map (· ++ "\n")) := by
  obtain ⟨flow, analysed⟩ := builds.exists_flow
  obtain ⟨accepted, rfl, root, member, rfl⟩ := builds.exists_root made analysed
  have formed := accepted.methodFormed config member
  have regular := @Flow.Accepted.regular_methodTree flow config root accepted member
  have arranged := regular.arranged fun region mem ↦ formed.stop_le Flow.reads_methodTree mem
  refine ⟨regular.nodup_brackets, fun _ _ ↦ regular.exists_bracket_iff,
    fun bracket mem ↦ (RegionTree.mem_brackets.mp mem).2, arranged, arranged.isListing rfl, ?_⟩
  rw [RegionTree.listing, arranged.listingLines_eq RegionTree.map_brackets]
  rfl

end Config

/-- The `finally` is drawn behind the brackets of the block it protects, which is a group. -/
theorem Config.listing_balanced_sorting :
    ∃ body tree, Draft.sorting.toBody = .ok body ∧ Config.default.build body = .ok tree ∧
      (tree.brackets.map fun bracket ↦ (bracket.region.id.index, bracket.span)).Perm
        [(1, .ofLength 7 2), (2, .ofLength 0 7), (3, .ofLength 0 1), (4, .ofLength 1 2),
          (5, .ofLength 3 2), (6, .ofLength 5 2)] ∧
      Arranged tree.instructions.length tree.brackets ∧
      IsListing tree.brackets tree.instructions tree.listingItems := by
  have sorts : Config.default.tests .sorting (fun _ tree ↦ decide
      ((tree.drawn.map fun bracket ↦ (bracket.region.id.index, bracket.span)) =
        [(1, .ofLength 7 2), (2, .ofLength 0 7), (3, .ofLength 0 1), (4, .ofLength 1 2),
          (5, .ofLength 3 2), (6, .ofLength 5 2)])) = true := by
    decide +kernel
  obtain ⟨body, flow, tree, made, -, built, holds⟩ := exists_built sorts
  obtain ⟨-, -, -, arranged, listing, -⟩ := listing_balanced made (.outer built)
  exact ⟨body, tree, made, built,
    (RegionTree.perm_brackets.map _).trans (.of_eq (of_decide_eq_true holds)), arranged, listing⟩

end ProtectedRegions
