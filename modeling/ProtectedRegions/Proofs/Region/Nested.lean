import Mathlib.Logic.Relation
import ProtectedRegions.Proofs.Region.Valid

/-!
# Nesting of regions

The regions of a tree nest: two of them lie apart unless one is below the other. The walk of a
tree in post-order lists each region once, and never one of its descendants behind it.
-/

namespace ProtectedRegions

namespace Span

/-- Whether two spans share no offset, one of them being over before the other starts. -/
def Apart (first second : Span) : Prop := first.stop ≤ second.start ∨ second.stop ≤ first.start

theorem Apart.symm {first second : Span} (apart : first.Apart second) : second.Apart first :=
  Or.symm apart

theorem encloses_iff {outer inner : Span} :
    outer.encloses inner = true ↔ outer.start ≤ inner.start ∧ inner.stop ≤ outer.stop := by
  simp [encloses]

theorem encloses_refl (span : Span) : span.encloses span = true :=
  encloses_iff.mpr ⟨Nat.le_refl _, Nat.le_refl _⟩

theorem encloses_trans {outer middle inner : Span} (first : outer.encloses middle = true)
    (second : middle.encloses inner = true) : outer.encloses inner = true := by
  rw [encloses_iff] at *
  omega

/-- Spans inside spans that lie apart lie apart. -/
theorem Apart.mono {first second first' second' : Span} (apart : first.Apart second)
    (inside : first.encloses first' = true) (inside' : second.encloses second' = true) :
    first'.Apart second' := by
  rw [encloses_iff] at inside inside'
  unfold Apart at *
  omega

/-- A span that is not empty does not lie apart from a span around it. -/
theorem Apart.not_encloses {first second : Span} (apart : first.Apart second)
    (nonempty : second.start < second.stop) : ¬ first.encloses second = true := by
  rw [encloses_iff]
  unfold Apart at apart
  omega

end Span

namespace Code

/-- Regions that follow one another lie between the bounds. -/
theorem Ordered.bounds {first last : Nat} {regions : List Region}
    (ordered : Ordered first last regions) {region : Region} (mem : region ∈ regions) :
    first ≤ region.span.start ∧ region.span.stop ≤ last := by
  induction ordered with
  | nil => cases mem
  | @cons first last next rest le le' later ih =>
    rcases List.mem_cons.mp mem with rfl | mem
    · exact ⟨le, le'⟩
    · have := next.span.start_le_stop
      have := ih mem
      omega

/-- Regions that follow one another lie apart. -/
theorem Ordered.pairwise {first last : Nat} {regions : List Region}
    (ordered : Ordered first last regions) :
    regions.Pairwise fun first second ↦ first.span.stop ≤ second.span.start := by
  induction ordered with
  | nil => exact .nil
  | cons le le' later ih => exact .cons (fun other mem ↦ (later.bounds mem).1) ih

end Code

namespace RegionTree

variable {tree : RegionTree}

/-- Whether a region lies inside another one, by the links from regions to their parents. -/
def Below (tree : RegionTree) : RegionId → RegionId → Prop :=
  Relation.TransGen fun outer inner ↦ tree.parent? inner = some outer

/-- Whether a region is another one or lies inside of it. -/
def AtOrBelow (tree : RegionTree) : RegionId → RegionId → Prop :=
  Relation.ReflTransGen fun outer inner ↦ tree.parent? inner = some outer

/-- The regions of a tree nest. Each but the root is a child of its parent, which has a smaller
id, and the children of a region follow one another inside of it. -/
structure Nested (tree : RegionTree) : Prop where
  id_eq : ∀ {id region}, tree.region? id = some region → region.id = id
  rooted : ∃ top, tree.region? root = some top ∧ top.parent = none
  placed : ∀ {region}, region ∈ tree.regions → region.id ≠ root → ∃ outer ∈ tree.regions,
    region.parent = some outer.id ∧ region.id ∈ outer.children ∧ outer.id.index < region.id.index
  family : ∀ {region}, region ∈ tree.regions → ∃ children, Code.Family tree region children
  nonempty : ∀ {region}, region ∈ tree.regions → region.span.start < region.span.stop

/-- A region that is found is a region of the tree. -/
theorem mem_of_region? {id : RegionId} {region : Region} (found : tree.region? id = some region) :
    region ∈ tree.regions := List.mem_of_getElem? found

/-- A child has the region as its parent. -/
theorem parent?_child {region child : Region} {children : List Region}
    (family : Code.Family tree region children) (among : child ∈ children) :
    tree.parent? child.id = some region.id := by
  rw [parent?, family.found child among]
  exact family.parent child among

theorem atOrBelow_iff {outer inner : RegionId} :
    tree.AtOrBelow outer inner ↔ inner = outer ∨ tree.Below outer inner :=
  Relation.reflTransGen_iff_eq_or_transGen

theorem AtOrBelow.below {outer middle inner : RegionId} (first : tree.AtOrBelow outer middle)
    (second : tree.Below middle inner) : tree.Below outer inner :=
  Relation.TransGen.trans_right first second

theorem AtOrBelow.child {outer middle inner : RegionId} (first : tree.AtOrBelow outer middle)
    (parent : tree.parent? inner = some middle) : tree.Below outer inner :=
  first.below (.single parent)

namespace Nested

variable (nested : tree.Nested) {outer inner first second region : Region}

include nested

/-- A region is found under its id. -/
theorem region?_id (mem : region ∈ tree.regions) : tree.region? region.id = some region := by
  obtain ⟨index, found⟩ := List.mem_iff_getElem?.mp mem
  have found : tree.region? ⟨index⟩ = some region := found
  rw [nested.id_eq found]
  exact found

/-- Regions with one id are the same. -/
theorem eq_of_id (mem : first ∈ tree.regions) (mem' : second ∈ tree.regions)
    (same : first.id = second.id) : first = second := by
  have found := nested.region?_id mem
  rw [same, nested.region?_id mem'] at found
  exact (Option.some.inj found).symm

/-- The regions stand in the order of their ids. -/
theorem pairwise_regions :
    tree.regions.Pairwise fun first second ↦ first.id.index < second.id.index := by
  refine List.pairwise_iff_getElem.mpr fun index index' inside inside' before ↦ ?_
  have first : tree.regions[index].id = ⟨index⟩ := nested.id_eq (List.getElem?_eq_getElem inside)
  have second : tree.regions[index'].id = ⟨index'⟩ :=
    nested.id_eq (List.getElem?_eq_getElem inside')
  rw [first, second]
  exact before

/-- No region is listed twice. -/
theorem nodup_ids : (tree.regions.map (·.id)).Nodup := by
  refine List.pairwise_map.mpr (nested.pairwise_regions.imp fun lt same ↦ ?_)
  rw [same] at lt
  exact lt_irrefl _ lt

/-- The parent of a region is read off the region. -/
theorem parent?_id (mem : region ∈ tree.regions) : tree.parent? region.id = region.parent := by
  rw [parent?, nested.region?_id mem]
  rfl

/-- A region with a parent is not the root. -/
theorem id_ne_root {parent : RegionId} (mem : region ∈ tree.regions)
    (inside : region.parent = some parent) : region.id ≠ root := by
  obtain ⟨top, found, none⟩ := nested.rooted
  intro same
  have known := nested.region?_id mem
  rw [same, found] at known
  rw [Option.some.inj known, inside] at none
  cases none

/-- The parent of a region is a region with a smaller id that has the region as a child. -/
theorem exists_parent {parent : RegionId} (mem : region ∈ tree.regions)
    (inside : region.parent = some parent) : ∃ outer ∈ tree.regions,
      parent = outer.id ∧ region.id ∈ outer.children ∧ outer.id.index < region.id.index := by
  obtain ⟨outer, mem', same, child, lt⟩ := nested.placed mem (nested.id_ne_root mem inside)
  exact ⟨outer, mem', Option.some.inj (inside.symm.trans same), child, lt⟩

/-- A region stands among the children of its parent. -/
theorem mem_children {children : List Region} (family : Code.Family tree outer children)
    (mem : outer ∈ tree.regions) (mem' : inner ∈ tree.regions)
    (parent : inner.parent = some outer.id) : inner ∈ children := by
  obtain ⟨outer', listed, same, child, -⟩ := nested.exists_parent mem' parent
  obtain rfl := nested.eq_of_id mem listed same
  rw [family.ids] at child
  obtain ⟨found, listed, same⟩ := List.mem_map.mp child
  rwa [← nested.eq_of_id (mem_of_region? (family.found found listed)) mem' same]

/-- A region encloses its children. -/
theorem encloses_of_parent (mem : outer ∈ tree.regions) (mem' : inner ∈ tree.regions)
    (parent : inner.parent = some outer.id) : outer.span.encloses inner.span = true := by
  obtain ⟨children, family⟩ := nested.family mem
  exact Span.encloses_iff.mpr
    (family.ordered.bounds (nested.mem_children family mem mem' parent))

/-- Regions with one parent are the same or lie apart. -/
theorem apart_of_siblings (mem : first ∈ tree.regions) (mem' : second ∈ tree.regions)
    {parent : RegionId} (inside : first.parent = some parent)
    (inside' : second.parent = some parent) : first = second ∨ first.span.Apart second.span := by
  obtain ⟨outer, listed, rfl, -⟩ := nested.exists_parent mem inside
  obtain ⟨children, family⟩ := nested.family listed
  have apart : children.Pairwise fun first second ↦ first.span.Apart second.span :=
    family.ordered.pairwise.imp .inl
  have symm : Std.Symm fun first second : Region ↦ first.span.Apart second.span :=
    ⟨fun _ _ ↦ .symm⟩
  by_cases same : first = second
  · exact .inl same
  · exact .inr (apart.forall (nested.mem_children family listed mem inside)
      (nested.mem_children family listed mem' inside') same)

/-- A region below another one has a parent at or below that one. -/
theorem exists_middle {id : RegionId} (mem : inner ∈ tree.regions)
    (below : tree.Below id inner.id) : ∃ middle ∈ tree.regions,
      inner.parent = some middle.id ∧ tree.AtOrBelow id middle.id ∧
        middle.id.index < inner.id.index := by
  obtain ⟨middle, below, parent⟩ := Relation.TransGen.tail'_iff.mp below
  rw [nested.parent?_id mem] at parent
  obtain ⟨region, listed, rfl, -, lt⟩ := nested.exists_parent mem parent
  exact ⟨region, listed, parent, below, lt⟩

/-- A region has a smaller id than those below it. -/
theorem lt_of_below {id : RegionId} (mem : inner ∈ tree.regions)
    (below : tree.Below id inner.id) : id.index < inner.id.index := by
  induction index : inner.id.index using Nat.strong_induction_on generalizing inner with
  | _ index ih =>
    subst index
    obtain ⟨middle, listed, -, below, lt⟩ := nested.exists_middle mem below
    rcases atOrBelow_iff.mp below with same | below
    · exact same ▸ lt
    · exact (ih _ lt listed below rfl).trans lt

/-- A region encloses those below it. -/
theorem encloses_of_below (mem : outer ∈ tree.regions) (mem' : inner ∈ tree.regions)
    (below : tree.Below outer.id inner.id) : outer.span.encloses inner.span = true := by
  induction index : inner.id.index using Nat.strong_induction_on generalizing inner with
  | _ index ih =>
    subst index
    obtain ⟨middle, listed, parent, below, lt⟩ := nested.exists_middle mem' below
    have inside := nested.encloses_of_parent listed mem' parent
    rcases atOrBelow_iff.mp below with same | below
    · rwa [nested.eq_of_id listed mem same] at inside
    · exact Span.encloses_trans (ih _ lt listed below rfl) inside

/-- A region encloses itself and those below it. -/
theorem encloses_of_atOrBelow (mem : outer ∈ tree.regions) (mem' : inner ∈ tree.regions)
    (below : tree.AtOrBelow outer.id inner.id) : outer.span.encloses inner.span = true := by
  rcases atOrBelow_iff.mp below with same | below
  · rw [nested.eq_of_id mem' mem same]
    exact Span.encloses_refl _
  · exact nested.encloses_of_below mem mem' below

/-- Every region is at or below the root. -/
theorem atOrBelow_root (mem : region ∈ tree.regions) : tree.AtOrBelow root region.id := by
  induction index : region.id.index using Nat.strong_induction_on generalizing region with
  | _ index ih =>
    subst index
    by_cases top : region.id = root
    · exact atOrBelow_iff.mpr (.inl top)
    · obtain ⟨outer, listed, parent, -, lt⟩ := nested.placed mem top
      rw [← nested.parent?_id mem] at parent
      exact (ih _ lt listed rfl).tail parent

/-- What is below a region is at or below one of its children. -/
theorem exists_child {outer inner : RegionId} (below : tree.Below outer inner) :
    ∃ child ∈ tree.regions, child.parent = some outer ∧ tree.AtOrBelow child.id inner := by
  obtain ⟨child, link, below⟩ := Relation.TransGen.head'_iff.mp below
  obtain ⟨region, found, parent⟩ := Option.bind_eq_some_iff.mp link
  obtain rfl := nested.id_eq found
  exact ⟨region, mem_of_region? found, parent, below⟩

/-- Two regions lie apart unless one is the other or below it. -/
theorem laminar (mem : first ∈ tree.regions) (mem' : second ∈ tree.regions) :
    tree.AtOrBelow first.id second.id ∨ tree.Below second.id first.id ∨
      first.span.Apart second.span := by
  induction index : first.id.index using Nat.strong_induction_on generalizing first with
  | _ index ih =>
    subst index
    by_cases top : first.id = root
    · exact .inl (top ▸ nested.atOrBelow_root mem')
    obtain ⟨outer, listed, parent, -, lt⟩ := nested.placed mem top
    have link : tree.parent? first.id = some outer.id := nested.parent?_id mem ▸ parent
    have inside := nested.encloses_of_parent listed mem parent
    rcases ih _ lt listed rfl with around | around | apart
    · rcases atOrBelow_iff.mp around with same | around
      · exact .inr (.inl (same ▸ .single link))
      -- The other region is in a sibling, or in the region itself.
      · obtain ⟨sibling, among, parent', below⟩ := nested.exists_child around
        rcases nested.apart_of_siblings mem among parent parent' with rfl | apart
        · exact .inl below
        · exact .inr (.inr (apart.mono (Span.encloses_refl _)
            (nested.encloses_of_atOrBelow among mem' below)))
    · exact .inr (.inl (around.tail link))
    · exact .inr (.inr (apart.mono inside (Span.encloses_refl _)))

/-! ### The walk in post-order -/

omit nested in
/-- A region is listed behind its children. -/
theorem postorderFrom_succ {children : List Region} (family : Code.Family tree region children)
    (known : tree.region? region.id = some region) (depth : Nat) :
    tree.postorderFrom (depth + 1) region.id =
      children.flatMap (fun child ↦ tree.postorderFrom depth child.id) ++ [region] := by
  rw [postorderFrom, known]
  simp only [family.ids, List.flatMap_map]

/-- The walk lists regions at or below its start. -/
theorem of_mem_postorderFrom {depth : Nat} {id : RegionId}
    (listed : region ∈ tree.postorderFrom depth id) :
    region ∈ tree.regions ∧ tree.AtOrBelow id region.id := by
  induction depth generalizing id with
  | zero => cases listed
  | succ depth ih =>
    cases found : tree.region? id with
    | none =>
      rw [postorderFrom, found] at listed
      cases listed
    | some top =>
      have mem := mem_of_region? found
      obtain rfl := nested.id_eq found
      obtain ⟨children, family⟩ := nested.family mem
      rw [postorderFrom_succ family found, List.mem_append, List.mem_flatMap,
        List.mem_singleton] at listed
      rcases listed with ⟨child, among, listed⟩ | rfl
      · obtain ⟨mem', below⟩ := ih listed
        exact ⟨mem', .head (parent?_child family among) below⟩
      · exact ⟨mem, .refl⟩

/-- A walk that may go deep enough lists every region at or below its start. -/
theorem mem_postorderFrom {depth : Nat} {id : RegionId} (mem : region ∈ tree.regions)
    (below : tree.AtOrBelow id region.id) (deep : tree.regions.length ≤ depth + id.index) :
    region ∈ tree.postorderFrom depth id := by
  induction depth generalizing id with
  | zero =>
    have lt : region.id.index < tree.regions.length :=
      (List.getElem?_eq_some_iff.mp (nested.region?_id mem)).1
    rcases atOrBelow_iff.mp below with same | below
    · rw [same] at lt
      omega
    · have := nested.lt_of_below mem below
      omega
  | succ depth ih =>
    rcases atOrBelow_iff.mp below with rfl | below
    · obtain ⟨children, family⟩ := nested.family mem
      rw [postorderFrom_succ family (nested.region?_id mem)]
      exact List.mem_append_right _ (List.mem_singleton_self _)
    · obtain ⟨child, among, parent, inside⟩ := nested.exists_child below
      obtain ⟨outer, mem', rfl, -, lt⟩ := nested.exists_parent among parent
      obtain ⟨children, family⟩ := nested.family mem'
      rw [postorderFrom_succ family (nested.region?_id mem')]
      exact List.mem_append_left _ (List.mem_flatMap.mpr
        ⟨child, nested.mem_children family mem' among parent, ih inside (by omega)⟩)

/-- The walk lists no region at or below one that it has listed. -/
theorem pairwise_postorderFrom (depth : Nat) (id : RegionId) :
    (tree.postorderFrom depth id).Pairwise fun first second ↦
      ¬ tree.AtOrBelow first.id second.id := by
  induction depth generalizing id with
  | zero => exact .nil
  | succ depth ih =>
    cases found : tree.region? id with
    | none =>
      rw [postorderFrom, found]
      exact .nil
    | some top =>
      have mem := mem_of_region? found
      obtain rfl := nested.id_eq found
      obtain ⟨children, family⟩ := nested.family mem
      rw [postorderFrom_succ family found]
      refine List.pairwise_append.mpr ⟨List.pairwise_flatMap.mpr ⟨fun child _ ↦ ih child.id, ?_⟩,
        List.pairwise_singleton _ _, ?_⟩
      -- What is below one child does not reach into the span of another.
      · refine family.ordered.pairwise.imp_of_mem fun among among' le x listed y listed' around ↦ ?_
        obtain ⟨mem', below⟩ := nested.of_mem_postorderFrom listed
        obtain ⟨mem'', below'⟩ := nested.of_mem_postorderFrom listed'
        have inside := nested.encloses_of_atOrBelow
          (mem_of_region? (family.found _ among)) mem'' (below.trans around)
        have inside' := nested.encloses_of_atOrBelow
          (mem_of_region? (family.found _ among')) mem'' below'
        have nonempty := nested.nonempty mem''
        rw [Span.encloses_iff] at inside inside'
        omega
      · intro region listed top' same around
        obtain rfl := List.mem_singleton.mp same
        obtain ⟨child, among, listed⟩ := List.mem_flatMap.mp listed
        obtain ⟨mem', below⟩ := nested.of_mem_postorderFrom listed
        exact lt_irrefl _ (nested.lt_of_below mem
          (Relation.TransGen.head' (parent?_child family among) (below.trans around)))

/-- The walk of the whole tree lists its regions. -/
theorem mem_postorder : region ∈ tree.postorder ↔ region ∈ tree.regions :=
  ⟨fun listed ↦ (nested.of_mem_postorderFrom listed).1,
    fun mem ↦ nested.mem_postorderFrom mem (nested.atOrBelow_root mem) (Nat.le_add_right _ _)⟩

/-- The walk of the whole tree lists no region at or below one that it has listed. -/
theorem pairwise_postorder :
    tree.postorder.Pairwise fun first second ↦ ¬ tree.AtOrBelow first.id second.id :=
  nested.pairwise_postorderFrom _ _

end Nested
end RegionTree

namespace Code

/-- The outermost regions of code are numbered from its place on. -/
theorem next_le_of_mem_topRegions {code : Code} {place : Place} {region : Region}
    (mem : region ∈ code.topRegions place) : place.next ≤ region.id.index := by
  obtain ⟨⟨at', opens⟩, -⟩ := mem_topRegions mem
  exact (getElem?_regions (mem_regions.mpr ⟨at', opens⟩)).1

/-- The outermost regions have the ids of those that code leaves to the region around it. -/
theorem id_mem_outermost {code : Code} {place : Place} {region : Region}
    (mem : region ∈ code.topRegions place) : region.id ∈ code.outermost place.next := by
  rw [← map_id_topRegions]
  exact List.mem_map_of_mem mem

namespace MethodFormed

variable {tree : RegionTree} {head : RegionHead} {code : Code}
  (method : MethodFormed head code) (reads : Reads tree head code)

include reads

omit method in
/-- A region is the method or starts in the code of the method. -/
theorem opens_of_mem {region : Region} (mem : region ∈ tree.regions) :
    region = Place.region ⟨0, 0, []⟩ head code ∨
      ∃ at', (.opens region, at') ∈ code.tokens (Place.within ⟨0, 0, []⟩ head code) := by
  rw [reads.regions] at mem
  obtain ⟨at', opens⟩ := (@mem_regions _ ⟨0, 0, []⟩ region).mp mem
  rcases List.mem_cons.mp opens with same | opens
  · cases same
    exact .inl rfl
  · exact .inr ⟨at', opens⟩

omit method in
/-- A region that starts in the code of the method is one of the tree. -/
theorem mem_of_opens {region : Region} {at' : Place}
    (opens : (.opens region, at') ∈ code.tokens (Place.within ⟨0, 0, []⟩ head code)) :
    region ∈ tree.regions :=
  RegionTree.mem_of_region? (reads.region?_eq (List.mem_cons_of_mem _ opens))

include method

/-- Every region has a family. -/
theorem exists_family {region : Region} (mem : region ∈ tree.regions) :
    ∃ children, Family tree region children := by
  have inMethod : code.tokens (Place.within ⟨0, 0, []⟩ head code) ⊆
      (Code.region head code).tokens ⟨0, 0, []⟩ := List.subset_cons_self _ _
  rcases opens_of_mem reads mem with rfl | ⟨at', opens⟩
  · exact ⟨_, reads.family inMethod⟩
  · cases bracket_of_opens method.formed opens with
    | plain record formed tokens =>
      exact ⟨_, record ▸ reads.family fun _ listed ↦ inMethod (tokens listed)⟩
    | handled record formed body tail =>
      exact ⟨_, record ▸ reads.family_handled (fun _ listed ↦ inMethod (body listed))
        fun _ listed ↦ inMethod (tail listed)⟩

/-- Every region but the method is a child of a region with a smaller number. -/
theorem exists_outer {region : Region} {at' : Place}
    (opens : (.opens region, at') ∈ code.tokens (Place.within ⟨0, 0, []⟩ head code)) :
    ∃ outer ∈ tree.regions, region.parent = some outer.id ∧ region.id ∈ outer.children ∧
      outer.id.index < region.id.index := by
  cases contained_of_opens method.formed opens with
  | outermost mem =>
    exact ⟨_, RegionTree.mem_of_region? (reads.region?_eq List.mem_cons_self),
      (mem_topRegions mem).2, id_mem_outermost mem, next_le_of_mem_topRegions mem⟩
  | inner opens' record formed tokens mem =>
    subst record
    exact ⟨_, mem_of_opens reads opens', (mem_topRegions mem).2, id_mem_outermost mem,
      next_le_of_mem_topRegions mem⟩
  | guarded opens' record formed mem =>
    subst record
    refine ⟨_, mem_of_opens reads opens', ?_⟩
    rcases mem with mem | mem
    · exact ⟨(mem_topRegions mem).2, List.mem_append_left _ (id_mem_outermost mem),
        next_le_of_mem_topRegions mem⟩
    · have behind := next_le_of_mem_topRegions mem
      refine ⟨(mem_topRegions mem).2, List.mem_append_right _ (id_mem_outermost mem), ?_⟩
      simp only [Place.handled, Place.inHandler] at behind ⊢
      omega

/-- The regions of a well-formed method nest. -/
theorem nested : tree.Nested where
  id_eq := by
    intro id region found
    rw [RegionTree.region?, reads.regions] at found
    have index := congrArg (·[id.index]?) (map_id_regions (Code.region head code) 0 0 none)
    rw [List.getElem?_map, found] at index
    obtain ⟨_, same⟩ := List.getElem?_eq_some_iff.mp index.symm
    rw [List.getElem_range', Nat.zero_add, Nat.one_mul] at same
    exact congrArg RegionId.mk same.symm
  rooted := ⟨_, reads.region?_eq List.mem_cons_self, rfl⟩
  placed := by
    intro region mem inner
    rcases opens_of_mem reads mem with rfl | ⟨at', opens⟩
    · exact absurd rfl inner
    · exact method.exists_outer reads opens
  family := method.exists_family reads
  nonempty := by
    intro region mem
    rcases opens_of_mem reads mem with rfl | ⟨at', opens⟩
    · exact Nat.lt_add_of_pos_right method.nonempty
    · cases bracket_of_opens method.formed opens with
      | plain record formed =>
        subst record
        exact Nat.lt_add_of_pos_right formed.1
      | handled record formed =>
        subst record
        exact Nat.lt_add_of_pos_right (Nat.add_pos_left formed.2.2.1 _)

/-- A region ends in the stream. -/
theorem stop_le {region : Region} (mem : region ∈ tree.regions) :
    region.span.stop ≤ tree.instructions.length := by
  have nested := method.nested reads
  have top := RegionTree.mem_of_region? (reads.region?_eq List.mem_cons_self)
  have inside := nested.encloses_of_atOrBelow top mem (nested.atOrBelow_root mem)
  have stop := (Span.encloses_iff.mp inside).2
  rw [reads.length]
  exact stop.trans_eq (Nat.zero_add _)

end MethodFormed
end Code
end ProtectedRegions
