import ProtectedRegions.Proofs.Code.Formed

/-!
# Validity of region trees

Validation accepts the tree of every well-formed method. A region and its children stand in the
tree as they stand in the code: the children follow one another inside the region, and a catch
or filter finds its group and its neighbours by looking them up.
-/

namespace ProtectedRegions

/-- A span of some length is not empty. -/
theorem Span.isEmpty_ofLength {start length : Nat} (pos : 0 < length) :
    (ofLength start length).isEmpty = false := by
  apply decide_eq_false
  simp only [ofLength]
  omega

/-- A filter stands right before a catch. -/
theorem Clauses.catch_of_filter {heads : List RegionHead} (clauses : Clauses heads)
    {index : Nat} {filter : RegionHead} (found : heads[index]? = some filter)
    (kind : filter.kind = .filterBlock) :
    ∃ handler, heads[index + 1]? = some handler ∧ handler.kind = .catchBlock := by
  induction clauses generalizing index with
  | nil => cases found
  | @typed handler rest kind' typed later ih =>
    cases index with
    | zero =>
      cases found
      rw [kind] at kind'
      cases kind'
    | succ index => exact ih found
  | @filtered filter handler rest kind' kind'' later ih =>
    match index with
    | 0 => exact ⟨handler, rfl, kind''⟩
    | 1 =>
      cases found
      rw [kind] at kind''
      cases kind''
    | index + 2 => exact ih found

/-- A filtered catch stands right behind a filter. -/
theorem Clauses.filter_of_catch {heads : List RegionHead} (clauses : Clauses heads)
    {index : Nat} {handler : RegionHead} (found : heads[index]? = some handler)
    (kind : handler.kind = .catchBlock) (filtered : handler.catchInfo.any (·.filtered) = true) :
    ∃ before filter, index = before + 1 ∧ heads[before]? = some filter ∧
      filter.kind = .filterBlock := by
  induction clauses generalizing index with
  | nil => cases found
  | @typed handler rest kind' typed later ih =>
    cases index with
    | zero =>
      cases found
      rw [filtered] at typed
      cases typed
    | succ index =>
      obtain ⟨before, filter, rfl, found, kind⟩ := ih found
      exact ⟨before + 1, filter, rfl, found, kind⟩
  | @filtered filter handler rest kind' kind'' later ih =>
    match index with
    | 0 =>
      cases found
      rw [kind] at kind'
      cases kind'
    | 1 => exact ⟨0, filter, rfl, rfl, kind'⟩
    | index + 2 =>
      obtain ⟨before, filter, rfl, found, kind⟩ := ih found
      exact ⟨before + 2, filter, rfl, found, kind⟩

namespace Code

/-- The children of a region, as they stand in a tree. -/
structure Family (tree : RegionTree) (region : Region) (children : List Region) : Prop where
  ids : region.children = children.map (·.id)
  ordered : Ordered region.span.start region.span.stop children
  found : ∀ child ∈ children, tree.region? child.id = some child
  parent : ∀ child ∈ children, child.parent = some region.id

namespace Family

variable {tree : RegionTree} {region : Region} {children : List Region}

/-- The children of a family pass their check. -/
theorem checkChildren (family : Family tree region children) :
    tree.checkChildren region region.span.start region.children = .ok () := by
  have each (children : List Region) : ∀ previous : Nat,
      Ordered previous region.span.stop children →
      (∀ child ∈ children, tree.region? child.id = some child) →
      (∀ child ∈ children, child.parent = some region.id) →
      tree.checkChildren region previous (children.map (·.id)) = .ok () := by
    induction children with
    | nil =>
      intro previous ordered found parent
      rfl
    | cons child rest ih =>
      intro previous ordered found parent
      cases ordered with
      | cons le le' later =>
        rw [List.map_cons, RegionTree.checkChildren, found child List.mem_cons_self]
        simp only [parent child List.mem_cons_self, ne_eq, not_true_eq_false, if_false]
        rw [if_neg (by simp; omega)]
        exact ih _ later (fun child mem ↦ found child (List.mem_cons_of_mem _ mem))
          fun child mem ↦ parent child (List.mem_cons_of_mem _ mem)
  rw [family.ids]
  exact each children _ family.ordered family.found family.parent

/-- A child is found under the id at its place. -/
theorem getElem?_bind (family : Family tree region children) {index : Nat} {child : Region}
    (listed : children[index]? = some child) :
    region.children[index]?.bind tree.region? = some child := by
  rw [family.ids, List.getElem?_map, listed]
  exact family.found child (List.mem_of_getElem? listed)

/-- A child behind the first one finds its group. -/
theorem groupOf? (family : Family tree region children)
    (known : tree.region? region.id = some region) (kind : region.kind = .tryBlock)
    {child : Region} (mem : child ∈ children) (later : ∀ first, children.head? = some first →
      first ≠ child) :
    ∃ before, children[before + 1]? = some child ∧
      tree.groupOf? child = .ok (region, before + 1) := by
  have group : (child.parent.bind tree.region?).filter (·.kind == .tryBlock) = some region := by
    rw [family.parent child mem, Option.bind_some, known, Option.filter_some, kind]
    rfl
  obtain ⟨index, found⟩ : ∃ index, region.children.findIdx? (· == child.id) = some index := by
    rw [← Option.isSome_iff_exists, List.findIdx?_isSome, family.ids, List.any_map, List.any_eq_true]
    exact ⟨child, mem, beq_self_eq_true _⟩
  obtain ⟨lt, same, -⟩ := List.findIdx?_eq_some_iff_getElem.mp found
  have listed : children[index]? = some child := by
    have lt' : index < children.length := by
      rw [family.ids, List.length_map] at lt
      exact lt
    rw [List.getElem?_eq_getElem lt']
    have same : children[index].id = child.id := by
      simp only [family.ids, List.getElem_map, beq_iff_eq] at same
      exact same
    have known := family.found _ (List.getElem_mem lt')
    rw [same, family.found child mem] at known
    exact known.symm
  cases index with
  | zero =>
    rw [← List.head?_eq_getElem?] at listed
    exact absurd rfl (later child listed)
  | succ before =>
    refine ⟨before, listed, ?_⟩
    rw [RegionTree.groupOf?, group]
    simp only [found]

/-- A handler fills its region behind the protected block. -/
theorem checkHandler {at' : Place} {outer : RegionHead} {inner handler : Code}
    (family : Family tree (at'.handled outer inner handler)
      (inner.topRegions (at'.inBody outer inner handler) ++
        handler.topRegions (at'.inHandler outer inner handler)))
    (formed : (Code.handled outer inner handler).Formed) :
    tree.checkHandler (at'.handled outer inner handler) = .ok () := by
  obtain ⟨-, -, -, nonempty, -, bare, ⟨top, single, tryBlock⟩, -⟩ := formed
  have heads := map_topRegions inner (at'.inBody outer inner handler)
  have touching := touching_topRegions inner (at'.inBody outer inner handler) bare
  rw [single, List.map_eq_singleton_iff] at heads
  obtain ⟨body, children, rfl⟩ := heads
  rw [children] at family touching
  have first : (at'.handled outer inner handler).children.head?.bind tree.region? = some body := by
    rw [List.head?_eq_getElem?]
    exact family.getElem?_bind rfl
  obtain ⟨start, stop⟩ := touching.span
  rw [RegionTree.checkHandler]
  simp only [Place.handled] at first ⊢
  rw [first]
  simp only [Option.filter_some, tryBlock, beq_self_eq_true, if_true]
  rw [Span.isEmpty_ofLength nonempty]
  simp [Span.ofLength, start, stop, Nat.add_assoc, Place.inBody]

end Family

/-- The region tree of a method with the given code. -/
structure Reads (tree : RegionTree) (head : RegionHead) (code : Code) : Prop where
  regions : tree.regions = (Code.region head code).regions 0 0 none
  length : tree.instructions.length = code.size

variable {tree : RegionTree} {head : RegionHead} {code : Code}

namespace Reads

variable (reads : Reads tree head code)

include reads

/-- A region is found under its id. -/
theorem region?_eq {region : Region} {at' : Place}
    (opens : (.opens region, at') ∈ (Code.region head code).tokens ⟨0, 0, []⟩) :
    tree.region? region.id = some region := by
  have mem : region ∈ (Code.region head code).regions 0 0 none :=
    (@mem_regions _ ⟨0, 0, []⟩ region).mpr ⟨at', opens⟩
  have := (getElem?_regions mem).2.2
  rw [RegionTree.region?, reads.regions]
  exact this

/-- The outermost regions of code inside a region are found, and have the region as parent. -/
theorem found_topRegions {inner : Code} {place : Place}
    (subset : inner.tokens place ⊆ (Code.region head code).tokens ⟨0, 0, []⟩) {child : Region}
    (mem : child ∈ inner.topRegions place) :
    tree.region? child.id = some child ∧ child.parent = place.parent := by
  obtain ⟨⟨at', opens⟩, parent⟩ := mem_topRegions mem
  exact ⟨reads.region?_eq (subset opens), parent⟩

/-- The family of a region without a handler. -/
theorem family {at' : Place} {outer : RegionHead} {inner : Code}
    (subset : inner.tokens (at'.within outer inner) ⊆
      (Code.region head code).tokens ⟨0, 0, []⟩) :
    Family tree (at'.region outer inner) (inner.topRegions (at'.within outer inner)) where
  ids := (map_id_topRegions inner (at'.within outer inner)).symm
  ordered := ordered_topRegions inner (at'.within outer inner)
  found _ mem := (reads.found_topRegions subset mem).1
  parent _ mem := (reads.found_topRegions subset mem).2

/-- The family of a region with a handler. -/
theorem family_handled {at' : Place} {outer : RegionHead} {inner handler : Code}
    (body : inner.tokens (at'.inBody outer inner handler) ⊆
      (Code.region head code).tokens ⟨0, 0, []⟩)
    (tail : handler.tokens (at'.inHandler outer inner handler) ⊆
      (Code.region head code).tokens ⟨0, 0, []⟩) :
    Family tree (at'.handled outer inner handler)
      (inner.topRegions (at'.inBody outer inner handler) ++
        handler.topRegions (at'.inHandler outer inner handler)) where
  ids := by
    rw [List.map_append, map_id_topRegions, map_id_topRegions]
    rfl
  ordered := by
    have first := ordered_topRegions inner (at'.inBody outer inner handler)
    have second := ordered_topRegions handler (at'.inHandler outer inner handler)
    have both := first.append second
    rw [Place.inHandler, Nat.add_assoc] at both
    exact both
  found child mem := by
    rcases List.mem_append.mp mem with mem | mem
    · exact (reads.found_topRegions body mem).1
    · exact (reads.found_topRegions tail mem).1
  parent child mem := by
    rcases List.mem_append.mp mem with mem | mem
    · exact (reads.found_topRegions body mem).2
    · exact (reads.found_topRegions tail mem).2

end Reads

/-- A method whose regions are well formed. -/
structure MethodFormed (head : RegionHead) (code : Code) : Prop where
  kind : head.kind = .method
  formed : code.Formed
  nonempty : 0 < code.size
  free : ∀ top ∈ code.tops, top.kind.isFree = true

namespace MethodFormed

variable (method : MethodFormed head code)

include method

/-- A catch or a filter stands in a group. -/
theorem exists_group {region : Region} {at' : Place}
    (opens : (.opens region, at') ∈ code.tokens (Place.within ⟨0, 0, []⟩ head code))
    (kind : region.kind.isFree = false) :
    ∃ (place : Place) (outer : RegionHead) (inner : Code),
      (Token.opens (place.region outer inner), place) ∈
        code.tokens (Place.within ⟨0, 0, []⟩ head code) ∧
      inner.tokens (place.within outer inner) ⊆
        code.tokens (Place.within ⟨0, 0, []⟩ head code) ∧
      outer.kind = .tryBlock ∧ inner.isBare = true ∧
      Group inner.tops ∧ region ∈ inner.topRegions (place.within outer inner) := by
  -- Among free heads the region would be free itself.
  have notFree {inner : Code} {place : Place} (mem : region ∈ inner.topRegions place)
      (free : ∀ top ∈ inner.tops, top.kind.isFree = true) : False := by
    have listed : region.toRegionHead ∈ inner.tops := by
      rw [← map_topRegions inner place]
      exact List.mem_map_of_mem mem
    rw [free _ listed] at kind
    cases kind
  cases contained_of_opens method.formed opens with
  | outermost mem => exact (notFree mem method.free).elim
  | @inner outer place head' inner' opens' record formed tokens mem =>
    rcases formed.2.2.2.2 with free | ⟨tryBlock, bare, group⟩
    · exact (notFree mem free).elim
    · subst record
      exact ⟨place, head', inner', opens', tokens, tryBlock, bare, group, mem⟩
  | guarded opens' record formed mem =>
    obtain ⟨-, -, -, -, -, -, ⟨top, single, tryBlock⟩, free⟩ := formed
    rcases mem with mem | mem
    · refine (notFree mem fun other listed ↦ ?_).elim
      rw [single, List.mem_singleton] at listed
      rw [listed, tryBlock]
      rfl
    · exact (notFree mem free).elim

variable (reads : Reads tree head code)

include reads

/-- A catch or a filter finds its group, and its neighbours among the clauses of the group. -/
theorem exists_clauses {region : Region} {at' : Place}
    (opens : (.opens region, at') ∈ code.tokens (Place.within ⟨0, 0, []⟩ head code))
    (kind : region.kind.isFree = false) :
    ∃ (group : Region) (children : List Region) (index : Nat) (heads : List RegionHead),
      Family tree group children ∧ children[index + 1]? = some region ∧
      tree.groupOf? region = .ok (group, index + 1) ∧ Clauses heads ∧
      (∀ index, heads[index]? = children[index + 1]?.map (·.toRegionHead)) ∧
      Touching group.span.start group.span.stop children := by
  obtain ⟨place, outer, inner, opens', tokens, tryBlock, bare, clauses, mem⟩ :=
    method.exists_group opens kind
  have inMethod : code.tokens (Place.within ⟨0, 0, []⟩ head code) ⊆
      (Code.region head code).tokens ⟨0, 0, []⟩ := List.subset_cons_self _ _
  have family := reads.family fun _ listed ↦ inMethod (tokens listed)
  have known := reads.region?_eq (inMethod opens')
  have heads := map_topRegions inner (place.within outer inner)
  cases children : inner.topRegions (place.within outer inner) with
  | nil =>
    rw [children] at mem
    cases mem
  | cons first rest =>
    rw [children] at family mem heads
    rw [← heads] at clauses
    cases clauses with
    | mk free clauses =>
      have later : ∀ other, (first :: rest).head? = some other → other ≠ region := by
        rintro other same rfl
        cases same
        rw [free] at kind
        cases kind
      obtain ⟨index, listed, found⟩ := family.groupOf? known tryBlock mem later
      have touching := touching_topRegions inner (place.within outer inner) bare
      rw [children] at touching
      exact ⟨_, _, index, _, family, listed, found, clauses,
        fun index ↦ List.getElem?_map, touching⟩

/-- A filter stands right before its catch. -/
theorem checkFilter {region : Region} {at' : Place}
    (opens : (.opens region, at') ∈ code.tokens (Place.within ⟨0, 0, []⟩ head code))
    (kind : region.kind = .filterBlock) : tree.checkFilter region = .ok () := by
  have notFree : region.kind.isFree = false := by rw [kind]; rfl
  obtain ⟨group, children, index, heads, family, listed, found, clauses, same, touching⟩ :=
    method.exists_clauses reads opens notFree
  have filter : heads[index]? = some region.toRegionHead := by rw [same, listed]; rfl
  obtain ⟨handler, next, catches⟩ := clauses.catch_of_filter filter kind
  rw [same, Option.map_eq_some_iff] at next
  obtain ⟨handler, next, rfl⟩ := next
  have adjacent := touching.adjacent listed next
  refine Outcome.bind_eq_ok.mpr ⟨_, found, ?_⟩
  simp only [family.getElem?_bind next]
  simp [catches, adjacent]

/-- A filtered catch stands right behind its filter. -/
theorem checkCatch {region : Region} {at' : Place}
    (opens : (.opens region, at') ∈ code.tokens (Place.within ⟨0, 0, []⟩ head code))
    (kind : region.kind = .catchBlock) : tree.checkCatch region = .ok () := by
  have notFree : region.kind.isFree = false := by rw [kind]; rfl
  obtain ⟨group, children, index, heads, family, listed, found, clauses, same, touching⟩ :=
    method.exists_clauses reads opens notFree
  refine Outcome.bind_eq_ok.mpr ⟨_, found, ?_⟩
  simp only
  split
  · next filtered =>
    have handler : heads[index]? = some region.toRegionHead := by rw [same, listed]; rfl
    obtain ⟨before, filter, rfl, previous, filters⟩ := clauses.filter_of_catch handler kind filtered
    rw [same, Option.map_eq_some_iff] at previous
    obtain ⟨filter, previous, rfl⟩ := previous
    have adjacent := touching.adjacent previous listed
    simp only [Nat.add_sub_cancel, family.getElem?_bind previous]
    simp [filters, adjacent]
  · rfl

/-- A region other than the method passes its check. -/
theorem checkRegion {region : Region} {at' : Place}
    (opens : (.opens region, at') ∈ code.tokens (Place.within ⟨0, 0, []⟩ head code)) :
    tree.checkRegion region = .ok () := by
  have inMethod : code.tokens (Place.within ⟨0, 0, []⟩ head code) ⊆
      (Code.region head code).tokens ⟨0, 0, []⟩ := List.subset_cons_self _ _
  cases bracket_of_opens method.formed opens with
  | @plain outer inner record formed tokens =>
    obtain ⟨nonempty, -, plain, notMethod, -⟩ := formed
    have family := (reads.family fun _ listed ↦ inMethod (tokens listed)).checkChildren
    rw [← record] at family
    have kind : region.kind = outer.kind := record ▸ rfl
    have filled : region.span.isEmpty = false := record ▸ Span.isEmpty_ofLength nonempty
    rw [RegionTree.checkRegion, filled, family]
    cases h : outer.kind with
    | method => exact absurd h notMethod
    | tryBlock => simp only [kind, h]; rfl
    | catchBlock => simp only [kind, h]; exact method.checkCatch reads opens (kind.trans h)
    | filterBlock => simp only [kind, h]; exact method.checkFilter reads opens (kind.trans h)
    | finallyBlock | faultBlock =>
      rw [h] at plain
      cases plain
  | @handled outer inner handler record formed body tail =>
    have family := reads.family_handled (fun _ listed ↦ inMethod (body listed))
      fun _ listed ↦ inMethod (tail listed)
    have handled := family.checkHandler formed
    obtain ⟨-, -, nonempty, -, hasHandler, -⟩ := formed
    have children := family.checkChildren
    rw [← record] at children handled
    have kind : region.kind = outer.kind := record ▸ rfl
    have filled : region.span.isEmpty = false :=
      record ▸ Span.isEmpty_ofLength (Nat.add_pos_left nonempty _)
    rw [RegionTree.checkRegion, filled, children]
    cases h : outer.kind with
    | finallyBlock | faultBlock => simp only [kind, h]; exact handled
    | _ =>
      rw [h] at hasHandler
      cases hasHandler

/-- The tree of a well-formed method is valid. -/
theorem validate : tree.validate = .ok () := by
  have rooted : (.opens (Place.region ⟨0, 0, []⟩ head code), ⟨0, 0, []⟩) ∈
      (Code.region head code).tokens ⟨0, 0, []⟩ := List.mem_cons_self
  have known := reads.region?_eq rooted
  rw [RegionTree.validate]
  have first : tree.region? RegionTree.root = some (Place.region ⟨0, 0, []⟩ head code) := known
  rw [first]
  have spans : (Place.region ⟨0, 0, []⟩ head code).span =
      .ofLength 0 tree.instructions.length := by rw [reads.length]; rfl
  have kind : (Place.region ⟨0, 0, []⟩ head code).kind = .method := method.kind
  have parent : (Place.region ⟨0, 0, []⟩ head code).parent = none := rfl
  simp only [kind, parent, spans, ne_eq, not_true_eq_false, if_false, Option.isSome_none,
    decide_false, Bool.or_self, Bool.false_eq_true]
  refine Outcome.forM_eq_ok.mpr fun region mem ↦ ?_
  rw [reads.regions] at mem
  obtain ⟨at', opens⟩ := (@mem_regions _ ⟨0, 0, []⟩ region).mp mem
  rcases List.mem_cons.mp opens with opens | opens
  · cases opens
    have family := (reads.family (List.subset_cons_self _ _)).checkChildren
    have filled : (Place.region ⟨0, 0, []⟩ head code).span.isEmpty = false :=
      Span.isEmpty_ofLength method.nonempty
    rw [RegionTree.checkRegion, filled, family]
    simp only [kind]
    rfl
  · exact method.checkRegion reads opens

end MethodFormed

end Code
end ProtectedRegions
