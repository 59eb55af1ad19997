import ProtectedRegions.Proofs.Region.Nested
import ProtectedRegions.Region.Clause

/-!
# The clause table of a tree

The table of a tree whose regions stand as protected blocks and their handlers do. It has one
clause for each handler. Of the clauses that protect an offset the inner ones come first, those of
one group in the order of their catches, and a clause encloses just those whose handlers are below
the block that it protects.
-/

namespace ProtectedRegions

/-- The kinds of regions that a clause is made for. -/
def RegionKind.hasClause (kind : RegionKind) : Bool := kind = .catchBlock || kind.hasHandler

/-- The handlers of a group, whose catch clauses are numbered upwards from `place` on. A filter
stands right before its handler. -/
inductive Handlers : Nat → List Region → Prop
  | nil {place : Nat} : Handlers place []
  | typed {place : Nat} {handler : Region} {info : CatchInfo} {rest : List Region}
      (kind : handler.kind = .catchBlock) (known : handler.catchInfo = some info)
      (typed : info.filtered = false) (le : place ≤ info.clause)
      (later : Handlers (info.clause + 1) rest) : Handlers place (handler :: rest)
  | filtered {place : Nat} {filter handler : Region} {info : CatchInfo} {rest : List Region}
      (kind : filter.kind = .filterBlock) (kind' : handler.kind = .catchBlock)
      (known : filter.catchInfo = some info) (known' : handler.catchInfo = some info)
      (filtered : info.filtered = true) (adjacent : filter.span.stop = handler.span.start)
      (le : place ≤ info.clause) (later : Handlers (info.clause + 1) rest) :
      Handlers place (filter :: handler :: rest)

/-- Whether the catch clause of the one region comes before that of the other. -/
def Region.CaughtBefore (first second : Region) : Prop :=
  ∃ info info', first.catchInfo = some info ∧ second.catchInfo = some info' ∧
    info.clause < info'.clause

namespace Handlers

variable {place : Nat} {handlers : List Region} (group : Handlers place handlers)

include group

/-- The clauses of a group are numbered from its place on. -/
theorem exists_info {handler : Region} (mem : handler ∈ handlers)
    (kind : handler.kind = .catchBlock) :
    ∃ info, handler.catchInfo = some info ∧ place ≤ info.clause := by
  induction group with
  | nil => cases mem
  | @typed place first info rest kind' known typed le later ih =>
    rcases List.mem_cons.mp mem with rfl | mem
    · exact ⟨info, known, le⟩
    · obtain ⟨info', known', le'⟩ := ih mem
      exact ⟨info', known', by omega⟩
  | @filtered place filter first info rest kind' kind'' known known' filtered adjacent le later ih =>
    rcases List.mem_cons.mp mem with rfl | mem
    · rw [kind] at kind'
      cases kind'
    · rcases List.mem_cons.mp mem with rfl | mem
      · exact ⟨info, known', le⟩
      · obtain ⟨info', known', le'⟩ := ih mem
        exact ⟨info', known', by omega⟩

/-- The catches of a group stand in the order of their clauses. -/
theorem pairwise : (handlers.filter (·.kind = .catchBlock)).Pairwise Region.CaughtBefore := by
  induction group with
  | nil => exact .nil
  | @typed place first info rest kind known typed le later ih =>
    rw [List.filter_cons_of_pos (by simp [kind])]
    refine .cons (fun other mem ↦ ?_) ih
    obtain ⟨mem, kind'⟩ := List.mem_filter.mp mem
    obtain ⟨info', known', le'⟩ := later.exists_info mem (of_decide_eq_true kind')
    exact ⟨info, info', known, known', le'⟩
  | @filtered place filter first info rest kind kind' known known' filtered adjacent le later ih =>
    rw [List.filter_cons_of_neg (by simp [kind]), List.filter_cons_of_pos (by simp [kind'])]
    refine .cons (fun other mem ↦ ?_) ih
    obtain ⟨mem, kind''⟩ := List.mem_filter.mp mem
    obtain ⟨info', known'', le'⟩ := later.exists_info mem (of_decide_eq_true kind'')
    exact ⟨info, info', known', known'', le'⟩

end Handlers

namespace RegionTree

/-- How a clause is made of a protected block and the region of a handler of it. The owner is the
region that the block comes first in. -/
inductive Handles (tree : RegionTree) (clause : Clause) (owner block region : Region) : Prop
  /-- A catch handler that is chosen by type. -/
  | typed {info : CatchInfo} (inside : region.parent = some owner.id)
      (group : owner.kind = .tryBlock) (kind : region.kind = .catchBlock)
      (known : region.catchInfo = some info) (typed : info.filtered = false)
      (fields : clause = ⟨.typed, block.span, region.span, info.exceptionType, none, region.id⟩)
  /-- A catch handler whose filter decides. -/
  | filtered {info : CatchInfo} {filter : Region} (inside : region.parent = some owner.id)
      (group : owner.kind = .tryBlock) (kind : region.kind = .catchBlock)
      (known : region.catchInfo = some info) (filtered : info.filtered = true)
      (mem : filter ∈ tree.regions) (inside' : filter.parent = some owner.id)
      (kind' : filter.kind = .filterBlock) (known' : filter.catchInfo = some info)
      (adjacent : filter.span.stop = region.span.start)
      (fields : clause = ⟨.filter, block.span, region.span, info.exceptionType,
        some filter.span.start, region.id⟩)
  /-- The handler of a `finally`, which is part of the region. -/
  | finallyBlock {handler : Span} (own : region = owner) (kind : region.kind = .finallyBlock)
      (holds : region.handler = some handler)
      (fields : clause = ⟨.finallyBlock, block.span, handler, none, none, region.id⟩)
  /-- The handler of a `fault`, which is part of the region. -/
  | faultBlock {handler : Span} (own : region = owner) (kind : region.kind = .faultBlock)
      (holds : region.handler = some handler)
      (fields : clause = ⟨.faultBlock, block.span, handler, none, none, region.id⟩)

/-- What a clause describes: the protected block that comes first in a region, and the region of a
handler of it. -/
structure Describes (tree : RegionTree) (clause : Clause) (owner block region : Region) : Prop where
  owner_mem : owner ∈ tree.regions
  block_mem : block ∈ tree.regions
  region_mem : region ∈ tree.regions
  first : owner.children.head? = some block.id
  block_kind : block.kind = .tryBlock
  handles : tree.Handles clause owner block region

/-- The regions of a tree as protected blocks and their handlers. -/
structure Regular (tree : RegionTree) : Prop extends tree.Nested where
  guarded : ∀ {region}, region ∈ tree.regions → region.kind.hasHandler = true →
    ∃ block rest handler, Code.Family tree region (block :: rest) ∧ block.kind = .tryBlock ∧
      region.handler = some handler ∧ block.span.stop = handler.start ∧
      handler.start < handler.stop ∧ handler.stop = region.span.stop
  grouped : ∀ {region}, region ∈ tree.regions → region.kind = .tryBlock →
    ∃ children, Code.Family tree region children ∧
      ((∀ child ∈ children, child.kind.isFree = true) ∨
        ∃ block handlers, children = block :: handlers ∧ block.kind = .tryBlock ∧
          Handlers 0 handlers)
  caught : ∀ {region}, region ∈ tree.regions → region.kind = .catchBlock →
    ∃ group ∈ tree.regions, region.parent = some group.id ∧ group.kind = .tryBlock

variable {tree : RegionTree}

/-- The regions of the children of a family. -/
theorem childRegions_eq {region : Region} {children : List Region}
    (family : Code.Family tree region children) : tree.childRegions region = children := by
  rw [childRegions, family.ids, List.filterMap_map]
  refine (List.filterMap_congr fun child mem ↦ ?_).trans List.filterMap_some
  exact family.found child mem

/-- A group has one clause for each of its catch handlers. -/
theorem map_region_catchClauses (span : Span) (previous : Region) (handlers : List Region) :
    (catchClauses span previous handlers).map (·.region) =
      (handlers.filter (·.kind = .catchBlock)).map (·.id) := by
  induction handlers generalizing previous with
  | nil => rfl
  | cons handler rest ih =>
    rw [catchClauses, List.filter_cons]
    split
    · next kind => simp [kind, ih]
    · next kind => simp [kind, ih]

/-- The clauses of a group are made of its handlers. -/
theorem handles_of_mem_catchClauses {owner block previous : Region} {place : Nat}
    {handlers : List Region} (group : Handlers place handlers) (isTry : owner.kind = .tryBlock)
    (inside : ∀ handler ∈ handlers, handler ∈ tree.regions ∧ handler.parent = some owner.id)
    (free : previous.kind ≠ .filterBlock) {clause : Clause}
    (listed : clause ∈ catchClauses block.span previous handlers) :
    ∃ region ∈ handlers, tree.Handles clause owner block region := by
  induction group generalizing previous with
  | nil => cases listed
  | @typed place handler info rest kind known typed le later ih =>
    rw [catchClauses, if_pos kind] at listed
    rcases List.mem_cons.mp listed with made | listed
    · refine ⟨handler, List.mem_cons_self, .typed (inside _ List.mem_cons_self).2 isTry kind known
        typed ?_⟩
      rw [made]
      simp [free, known]
    · obtain ⟨region, mem, handles⟩ := ih (fun handler mem ↦ inside _ (List.mem_cons_of_mem _ mem))
        (by simp [kind]) listed
      exact ⟨region, List.mem_cons_of_mem _ mem, handles⟩
  | @filtered place filter handler info rest kind kind' known known' filtered adjacent le later ih =>
    rw [catchClauses, if_neg (by simp [kind]), catchClauses, if_pos kind'] at listed
    rcases List.mem_cons.mp listed with made | listed
    · have among : handler ∈ filter :: handler :: rest := by simp
      obtain ⟨mem, inside'⟩ := inside filter List.mem_cons_self
      refine ⟨handler, among, .filtered (inside _ among).2 isTry kind' known' filtered mem inside'
        kind known adjacent ?_⟩
      rw [made]
      simp [kind, known']
    · obtain ⟨region, mem, handles⟩ := ih
        (fun handler mem ↦ inside _ (List.mem_cons_of_mem _ (List.mem_cons_of_mem _ mem)))
        (by simp [kind']) listed
      exact ⟨region, List.mem_cons_of_mem _ (List.mem_cons_of_mem _ mem), handles⟩

/-- The clauses of a group come in the order of its catches. -/
theorem pairwise_catchClauses {span : Span} {previous : Region} {place : Nat}
    {handlers : List Region} (group : Handlers place handlers) :
    (catchClauses span previous handlers).Pairwise fun first second ↦
      ∃ handler ∈ handlers, ∃ handler' ∈ handlers, first.region = handler.id ∧
        second.region = handler'.id ∧ handler.CaughtBefore handler' := by
  have ordered : ((handlers.filter (·.kind = .catchBlock)).map (·.id)).Pairwise fun first second ↦
      ∃ handler ∈ handlers, ∃ handler' ∈ handlers, first = handler.id ∧ second = handler'.id ∧
        handler.CaughtBefore handler' :=
    List.pairwise_map.mpr (group.pairwise.imp_of_mem fun mem mem' before ↦
      ⟨_, (List.mem_filter.mp mem).1, _, (List.mem_filter.mp mem').1, rfl, rfl, before⟩)
  rw [← map_region_catchClauses span previous handlers] at ordered
  exact List.pairwise_map.mp ordered

namespace Describes

variable {clause : Clause} {owner block region : Region}
  (entry : tree.Describes clause owner block region)

include entry

theorem protectedSpan_eq : clause.protectedSpan = block.span := by
  cases entry.handles with
  | typed _ _ _ _ _ fields | filtered _ _ _ _ _ _ _ _ _ _ fields | finallyBlock _ _ _ fields
  | faultBlock _ _ _ fields => rw [fields]

theorem region_eq : clause.region = region.id := by
  cases entry.handles with
  | typed _ _ _ _ _ fields | filtered _ _ _ _ _ _ _ _ _ _ fields | finallyBlock _ _ _ fields
  | faultBlock _ _ _ fields => rw [fields]

/-- The handler is a region inside of the owner, or is held by the owner. -/
theorem caught_or_held :
    (region.kind = .catchBlock ∧ region.parent = some owner.id ∧ owner.kind = .tryBlock ∧
        clause.handlerSpan = region.span) ∨
      region = owner ∧ region.kind.hasHandler = true ∧
        region.handler = some clause.handlerSpan := by
  cases entry.handles with
  | typed inside group kind _ _ fields | filtered inside group kind _ _ _ _ _ _ _ fields =>
    exact .inl ⟨kind, inside, group, by rw [fields]⟩
  | finallyBlock own kind holds fields | faultBlock own kind holds fields =>
    exact .inr ⟨own, by rw [kind]; rfl, by rw [fields]; exact holds⟩

variable (regular : tree.Regular)

include regular

/-- The protected block is a child of the owner. -/
theorem block_parent : block.parent = some owner.id := by
  obtain ⟨children, family⟩ := regular.family entry.owner_mem
  have first := entry.first
  rw [family.ids, List.head?_map, Option.map_eq_some_iff] at first
  obtain ⟨child, first, same⟩ := first
  have among := List.mem_of_head? first
  obtain rfl := regular.eq_of_id (mem_of_region? (family.found child among)) entry.block_mem same
  exact family.parent child among

/-- The owner of a handler has the clause of the handler alone. -/
theorem owner_unique {clause' : Clause} {owner' block' : Region}
    (entry' : tree.Describes clause' owner' block' region) : owner' = owner := by
  rcases entry.caught_or_held with ⟨kind, inside, -⟩ | ⟨rfl, kind, -⟩ <;>
    rcases entry'.caught_or_held with ⟨kind', inside', -⟩ | ⟨rfl, kind', -⟩
  · exact regular.eq_of_id entry'.owner_mem entry.owner_mem
      (Option.some.inj (inside'.symm.trans inside))
  · rw [kind] at kind'
    cases kind'
  · rw [kind'] at kind
    cases kind
  · rfl

/-- The owner has one block that comes first. -/
theorem block_unique {clause' : Clause} {block' region' : Region}
    (entry' : tree.Describes clause' owner block' region') : block' = block :=
  regular.eq_of_id entry'.block_mem entry.block_mem
    (Option.some.inj (entry'.first.symm.trans entry.first))

/-- The block and the handler lie apart inside of the owner. -/
theorem spans : block.span.Apart clause.handlerSpan ∧
    clause.handlerSpan.start < clause.handlerSpan.stop ∧
    owner.span.encloses clause.handlerSpan = true := by
  have parent := entry.block_parent regular
  have inside := regular.encloses_of_parent entry.owner_mem entry.block_mem parent
  rcases entry.caught_or_held with ⟨kind, parent', -, span⟩ | ⟨rfl, kind, holds⟩
  · rw [span]
    refine ⟨?_, regular.nonempty entry.region_mem,
      regular.encloses_of_parent entry.owner_mem entry.region_mem parent'⟩
    refine (regular.apart_of_siblings entry.block_mem entry.region_mem parent parent').resolve_left
      fun same ↦ ?_
    have isTry := entry.block_kind
    rw [same, kind] at isTry
    cases isTry
  · obtain ⟨first, rest, handler, family, -, holds', behind, lt, last⟩ :=
      regular.guarded entry.region_mem kind
    obtain rfl := Option.some.inj (holds'.symm.trans holds)
    have same : first = block := by
      have head := entry.first
      rw [family.ids] at head
      exact regular.eq_of_id (mem_of_region? (family.found first List.mem_cons_self))
        entry.block_mem (Option.some.inj head)
    subst same
    rw [Span.encloses_iff] at *
    have := first.span.start_le_stop
    exact ⟨.inl (by omega), lt, by omega, by omega⟩

/-- What has the handler below it has the owner at or below it. -/
theorem atOrBelow_owner {id : RegionId} (below : tree.Below id region.id) :
    tree.AtOrBelow id owner.id := by
  rcases entry.caught_or_held with ⟨-, parent, -⟩ | ⟨rfl, -⟩
  · obtain ⟨middle, -, parent', around, -⟩ := regular.exists_middle entry.region_mem below
    rwa [← Option.some.inj (parent.symm.trans parent')] at around
  · exact below.to_reflTransGen

/-- A protected block that has the owner at or below it has the handler below it. -/
theorem below_region {outer : Region} (isTry : outer.kind = .tryBlock)
    (mem : outer ∈ tree.regions) (around : tree.AtOrBelow outer.id owner.id) :
    tree.Below outer.id region.id := by
  rcases entry.caught_or_held with ⟨-, parent, -⟩ | ⟨rfl, kind, -⟩
  · exact around.child ((regular.parent?_id entry.region_mem).trans parent)
  · refine (atOrBelow_iff.mp around).resolve_left fun same ↦ ?_
    rw [regular.eq_of_id entry.owner_mem mem same, isTry] at kind
    cases kind

end Describes

/-- A region that holds a handler stands for one clause. -/
theorem Regular.exists_clausesOf (regular : tree.Regular) {region : Region}
    (mem : region ∈ tree.regions) (kind : region.kind.hasHandler = true) :
    ∃ block rest handler, Code.Family tree region (block :: rest) ∧ block.kind = .tryBlock ∧
      region.handler = some handler ∧ tree.clausesOf region =
        [⟨if region.kind = .finallyBlock then .finallyBlock else .faultBlock, block.span, handler,
          none, none, region.id⟩] := by
  obtain ⟨block, rest, handler, family, isTry, holds, -⟩ := regular.guarded mem kind
  refine ⟨block, rest, handler, family, isTry, holds, ?_⟩
  rw [clausesOf, childRegions_eq family]
  cases h : region.kind with
  | finallyBlock | faultBlock => simp [handlerClause, holds]
  | method | tryBlock | catchBlock | filterBlock =>
    rw [h] at kind
    cases kind

/-- A region without a handler of its own stands for the clauses of its group, if it has one. -/
theorem Regular.clausesOf_eq (regular : tree.Regular) {region : Region}
    (mem : region ∈ tree.regions) (plain : region.kind.hasHandler = false) :
    tree.clausesOf region = [] ∨ ∃ block handlers, region.kind = .tryBlock ∧
      Code.Family tree region (block :: handlers) ∧ block.kind = .tryBlock ∧ Handlers 0 handlers ∧
      tree.clausesOf region = catchClauses block.span block handlers := by
  cases kind : region.kind with
  | tryBlock =>
    obtain ⟨children, family, free | ⟨block, handlers, rfl, isTry, group⟩⟩ :=
      regular.grouped mem kind
    · -- Without catches there is no clause.
      refine .inl ?_
      rw [clausesOf, kind, childRegions_eq family]
      cases children with
      | nil => rfl
      | cons block rest =>
        have none : rest.filter (·.kind = .catchBlock) = [] := by
          refine List.filter_eq_nil_iff.mpr fun child among kind ↦ ?_
          have := free child (List.mem_cons_of_mem _ among)
          rw [of_decide_eq_true kind] at this
          cases this
        have named := map_region_catchClauses block.span block rest
        rw [none] at named
        exact List.map_eq_nil_iff.mp named
    · refine .inr ⟨block, handlers, rfl, family, isTry, group, ?_⟩
      rw [clausesOf, kind, childRegions_eq family]
  | method | catchBlock | filterBlock =>
    refine .inl ?_
    rw [clausesOf, kind]
  | finallyBlock | faultBlock =>
    rw [kind] at plain
    cases plain

/-- The clauses that a region stands for describe it. -/
theorem Regular.exists_describes (regular : tree.Regular) {owner : Region}
    (mem : owner ∈ tree.regions) {clause : Clause} (listed : clause ∈ tree.clausesOf owner) :
    ∃ block region, tree.Describes clause owner block region := by
  -- The block is the first child.
  have entry {block region : Region} {children : List Region}
      (family : Code.Family tree owner (block :: children)) (isTry : block.kind = .tryBlock)
      (mem' : region ∈ tree.regions) (handles : tree.Handles clause owner block region) :
      tree.Describes clause owner block region :=
    ⟨mem, mem_of_region? (family.found block List.mem_cons_self), mem', by rw [family.ids]; rfl,
      isTry, handles⟩
  cases plain : owner.kind.hasHandler with
  | true =>
    obtain ⟨block, rest, handler, family, isTry, holds, clauses⟩ :=
      regular.exists_clausesOf mem plain
    rw [clauses, List.mem_singleton] at listed
    refine ⟨block, owner, entry family isTry mem ?_⟩
    by_cases kind : owner.kind = .finallyBlock
    · rw [if_pos kind] at listed
      exact .finallyBlock rfl kind holds listed
    · rw [if_neg kind] at listed
      have fault : owner.kind = .faultBlock := by
        cases h : owner.kind <;> simp_all [RegionKind.hasHandler]
      exact .faultBlock rfl fault holds listed
  | false =>
    rcases regular.clausesOf_eq mem plain with
      none | ⟨block, handlers, kind, family, isTry, group, clauses⟩
    · rw [none] at listed
      cases listed
    · have inside (handler : Region) (among : handler ∈ handlers) :
          handler ∈ tree.regions ∧ handler.parent = some owner.id :=
        have among := List.mem_cons_of_mem _ among
        ⟨mem_of_region? (family.found handler among), family.parent handler among⟩
      rw [clauses] at listed
      obtain ⟨region, among, handles⟩ := handles_of_mem_catchClauses group kind inside
        (by simp [isTry]) listed
      exact ⟨block, region, entry family isTry (inside region among).1 handles⟩

/-- Every handler has a clause. -/
theorem Regular.exists_clause (regular : tree.Regular) {region : Region}
    (mem : region ∈ tree.regions) (caught : region.kind.hasClause = true) :
    ∃ owner ∈ tree.regions, ∃ clause ∈ tree.clausesOf owner, clause.region = region.id := by
  rcases Bool.or_eq_true_iff.mp caught with kind | kind
  · have kind := of_decide_eq_true kind
    obtain ⟨group, listed, parent, isTry⟩ := regular.caught mem kind
    obtain ⟨children, family, cases⟩ := regular.grouped listed isTry
    have among := regular.mem_children family listed mem parent
    refine ⟨group, listed, ?_⟩
    rw [clausesOf, isTry, childRegions_eq family]
    rcases cases with free | ⟨block, handlers, rfl, blockTry, -⟩
    · have := free region among
      rw [kind] at this
      cases this
    · rcases List.mem_cons.mp among with rfl | among
      · rw [kind] at blockTry
        cases blockTry
      · have named : region.id ∈ (handlers.filter (·.kind = .catchBlock)).map (·.id) :=
          List.mem_map_of_mem (List.mem_filter.mpr ⟨among, decide_eq_true kind⟩)
        rw [← map_region_catchClauses block.span block] at named
        exact List.mem_map.mp named
  · obtain ⟨block, rest, handler, -, -, -, clauses⟩ := regular.exists_clausesOf mem kind
    exact ⟨region, mem, _, clauses ▸ List.mem_singleton_self _, rfl⟩

/-- A clause encloses another one if and only if the handler of the other one is below the block
that it protects. -/
theorem Describes.encloses_iff (regular : tree.Regular) {first second : Clause}
    {owner block region owner' block' region' : Region}
    (entry : tree.Describes first owner block region)
    (entry' : tree.Describes second owner' block' region') :
    first.encloses second = true ↔ tree.Below block.id second.region := by
  obtain ⟨apart, nonempty, inside⟩ := entry'.spans regular
  have inside' := regular.encloses_of_parent entry'.owner_mem entry'.block_mem
    (entry'.block_parent regular)
  rw [Clause.encloses, entry.protectedSpan_eq, entry'.protectedSpan_eq, entry'.region_eq,
    Bool.and_eq_true]
  constructor
  · rintro ⟨aroundBlock, aroundHandler⟩
    refine entry'.below_region regular entry.block_kind entry.block_mem ?_
    rcases regular.laminar entry.block_mem entry'.owner_mem with around | below | apart'
    · exact around
    -- The block would lie in one child of the owner, which is the other block or apart from it.
    · obtain ⟨child, mem, parent, around⟩ := regular.exists_child below
      have covers := regular.encloses_of_atOrBelow mem entry.block_mem around
      rcases regular.apart_of_siblings mem entry'.block_mem parent
        (entry'.block_parent regular) with rfl | apart'
      · exact (apart.not_encloses nonempty (Span.encloses_trans covers aroundHandler)).elim
      · exact (apart'.not_encloses (regular.nonempty entry'.block_mem)
          (Span.encloses_trans covers aroundBlock)).elim
    · exact (apart'.mono aroundBlock inside' |>.not_encloses (regular.nonempty entry'.block_mem)
        (Span.encloses_refl _)).elim
  · intro below
    have around := regular.encloses_of_atOrBelow entry.block_mem entry'.owner_mem
      (entry'.atOrBelow_owner regular below)
    exact ⟨Span.encloses_trans around inside', Span.encloses_trans around inside⟩

/-- An enclosed clause belongs to a region below that of the other one. -/
theorem Describes.below_of_encloses (regular : tree.Regular) {first second : Clause}
    {owner block region owner' block' region' : Region}
    (entry : tree.Describes first owner block region)
    (entry' : tree.Describes second owner' block' region')
    (encloses : first.encloses second = true) : tree.Below owner.id owner'.id := by
  have below := (entry.encloses_iff regular entry').mp encloses
  rw [entry'.region_eq] at below
  exact .head' ((regular.parent?_id entry.block_mem).trans (entry.block_parent regular))
    (entry'.atOrBelow_owner regular below)

/-- How a clause comes before a later one that protects an offset together with it. -/
inductive Precedes (tree : RegionTree) (first second : Clause) : Prop
  /-- The first clause protects a block inside the block of the second. -/
  | inner {owner block region owner' block' region' : Region}
      (entry : tree.Describes first owner block region)
      (entry' : tree.Describes second owner' block' region') (below : tree.Below block'.id block.id)
  /-- Both belong to catches of one group, the first to the earlier one. -/
  | sibling {owner block region region' : Region} (entry : tree.Describes first owner block region)
      (entry' : tree.Describes second owner block region') (before : region.CaughtBefore region')

namespace Regular

variable (regular : tree.Regular)

include regular

/-- A clause of the table describes regions of the tree. -/
theorem exists_entry {clause : Clause} (listed : clause ∈ tree.clauses) :
    ∃ owner block region, tree.Describes clause owner block region := by
  obtain ⟨owner, among, listed⟩ := List.mem_flatMap.mp listed
  exact ⟨owner, regular.exists_describes (regular.mem_postorder.mp among) listed⟩

/-- Clauses of one region come in the order of their catches. -/
theorem pairwise_clausesOf {owner : Region} (mem : owner ∈ tree.regions) :
    (tree.clausesOf owner).Pairwise fun first second ↦
      ∃ handler ∈ tree.regions, ∃ handler' ∈ tree.regions, first.region = handler.id ∧
        second.region = handler'.id ∧ handler.CaughtBefore handler' := by
  cases plain : owner.kind.hasHandler with
  | true =>
    obtain ⟨_, _, _, -, -, -, clauses⟩ := regular.exists_clausesOf mem plain
    rw [clauses]
    exact List.pairwise_singleton _ _
  | false =>
    rcases regular.clausesOf_eq mem plain with
      none | ⟨block, handlers, -, family, -, group, clauses⟩
    · rw [none]
      exact .nil
    · have known (handler : Region) (among : handler ∈ handlers) : handler ∈ tree.regions :=
        mem_of_region? (family.found handler (List.mem_cons_of_mem _ among))
      rw [clauses]
      refine (pairwise_catchClauses group).imp fun ordered ↦ ?_
      obtain ⟨handler, among, handler', among', ordered⟩ := ordered
      exact ⟨handler, known _ among, handler', known _ among', ordered⟩

/-- Of two clauses the first belongs to a region that is not above that of the second, or both
belong to one group, the first to the earlier catch. -/
theorem pairwise_clauses : tree.clauses.Pairwise fun first second ↦
    ∃ owner block region owner' block' region', tree.Describes first owner block region ∧
      tree.Describes second owner' block' region' ∧
      (owner = owner' ∧ region.CaughtBefore region' ∨ ¬ tree.AtOrBelow owner.id owner'.id) := by
  refine List.pairwise_flatMap.mpr ⟨fun owner among ↦ ?_, ?_⟩
  · have mem := regular.mem_postorder.mp among
    refine (regular.pairwise_clausesOf mem).imp_of_mem fun listed listed' before ↦ ?_
    obtain ⟨block, region, entry⟩ := regular.exists_describes mem listed
    obtain ⟨block', region', entry'⟩ := regular.exists_describes mem listed'
    obtain ⟨handler, known, handler', known', same, same', before⟩ := before
    refine ⟨owner, block, region, owner, block', region', entry, entry', .inl ⟨rfl, ?_⟩⟩
    rw [regular.eq_of_id entry.region_mem known (entry.region_eq.symm.trans same),
      regular.eq_of_id entry'.region_mem known' (entry'.region_eq.symm.trans same')]
    exact before
  · refine regular.pairwise_postorder.imp_of_mem
      fun among among' apart first listed second listed' ↦ ?_
    obtain ⟨block, region, entry⟩ :=
      regular.exists_describes (regular.mem_postorder.mp among) listed
    obtain ⟨block', region', entry'⟩ :=
      regular.exists_describes (regular.mem_postorder.mp among') listed'
    exact ⟨_, block, region, _, block', region', entry, entry', .inr apart⟩

/-- A clause that encloses another one comes behind it. -/
theorem lt_of_encloses {index index' : Nat} {first second : Clause}
    (listed : tree.clauses[index]? = some first) (listed' : tree.clauses[index']? = some second)
    (encloses : first.encloses second = true) : index' < index := by
  by_contra notBefore
  rcases Nat.eq_or_lt_of_le (Nat.le_of_not_lt notBefore) with same | lt
  · obtain rfl : first = second := Option.some.inj (listed.symm.trans (same ▸ listed'))
    obtain ⟨owner, block, region, entry⟩ := regular.exists_entry (List.mem_of_getElem? listed)
    exact lt_irrefl _ (regular.lt_of_below entry.owner_mem
      (entry.below_of_encloses regular entry encloses))
  · obtain ⟨_, rfl⟩ := List.getElem?_eq_some_iff.mp listed
    obtain ⟨_, rfl⟩ := List.getElem?_eq_some_iff.mp listed'
    obtain ⟨owner, block, region, owner', block', region', entry, entry', order⟩ :=
      List.pairwise_iff_getElem.mp regular.pairwise_clauses _ _ _ _ lt
    have below := entry.below_of_encloses regular entry' encloses
    rcases order with ⟨rfl, -⟩ | notAbove
    · exact lt_irrefl _ (regular.lt_of_below entry.owner_mem below)
    · exact notAbove below.to_reflTransGen

/-- The table has one clause for each handler, and no other. -/
theorem perm_clauses : (tree.clauses.map (·.region)).Perm
    ((tree.regions.filter (·.kind.hasClause)).map (·.id)) := by
  have handlers : ((tree.regions.filter (·.kind.hasClause)).map (·.id)).Nodup :=
    regular.nodup_ids.sublist (List.filter_sublist.map _)
  have clauses : (tree.clauses.map (·.region)).Nodup := by
    refine List.pairwise_map.mpr (regular.pairwise_clauses.imp fun pair same ↦ ?_)
    obtain ⟨owner, block, region, owner', block', region', entry, entry', order⟩ := pair
    rw [entry.region_eq, entry'.region_eq] at same
    obtain rfl := regular.eq_of_id entry.region_mem entry'.region_mem same
    rcases order with ⟨-, info, info', known, known', lt⟩ | notAbove
    · obtain rfl := Option.some.inj (known.symm.trans known')
      exact lt_irrefl _ lt
    · exact notAbove (atOrBelow_iff.mpr (.inl (congrArg _ (entry.owner_unique regular entry'))))
  refine (List.perm_ext_iff_of_nodup clauses handlers).mpr fun id ↦ ?_
  simp only [List.mem_map, List.mem_filter]
  constructor
  · rintro ⟨clause, listed, rfl⟩
    obtain ⟨owner, block, region, entry⟩ := regular.exists_entry listed
    refine ⟨region, ⟨entry.region_mem, ?_⟩, entry.region_eq.symm⟩
    rcases entry.caught_or_held with ⟨kind, -⟩ | ⟨-, kind, -⟩ <;>
      simp [RegionKind.hasClause, kind]
  · rintro ⟨region, ⟨mem, caught⟩, rfl⟩
    obtain ⟨owner, among, clause, listed, same⟩ := regular.exists_clause mem caught
    exact ⟨clause, List.mem_flatMap.mpr ⟨owner, regular.mem_postorder.mpr among, listed⟩, same⟩

/-- The clauses that protect an offset come from the innermost block to the outermost. -/
theorem pairwise_covering (offset : Nat) :
    (tree.clauses.filter (·.protectedSpan.covers offset)).Pairwise tree.Precedes := by
  refine List.pairwise_filter.mpr (regular.pairwise_clauses.imp fun pair covered covered' ↦ ?_)
  obtain ⟨owner, block, region, owner', block', region', entry, entry', order⟩ := pair
  rcases order with ⟨rfl, before⟩ | notAbove
  · obtain rfl := entry.block_unique regular entry'
    exact .sibling entry entry' before
  rw [entry.protectedSpan_eq, Span.covers_iff] at covered
  rw [entry'.protectedSpan_eq, Span.covers_iff] at covered'
  have link := (regular.parent?_id entry.block_mem).trans (entry.block_parent regular)
  rcases regular.laminar entry.block_mem entry'.block_mem with around | below | apart
  · -- The first block would have the region of the second clause at or below its own.
    refine (notAbove ?_).elim
    rcases atOrBelow_iff.mp around with same | below
    · obtain rfl := regular.eq_of_id entry'.block_mem entry.block_mem same
      have parent := (entry.block_parent regular).symm.trans (entry'.block_parent regular)
      exact atOrBelow_iff.mpr (.inl (Option.some.inj parent).symm)
    · obtain ⟨middle, -, parent, around, -⟩ := regular.exists_middle entry'.block_mem below
      rw [entry'.block_parent regular, Option.some.injEq] at parent
      rw [parent]
      exact .head link around
  · exact .inner entry entry' below
  · unfold Span.Apart at apart
    omega

end Regular
end RegionTree

namespace Code.MethodFormed

variable {tree : RegionTree} {head : RegionHead} {code : Code}
  (method : MethodFormed head code) (reads : Reads tree head code)

include method reads

/-- A region with a handler holds one protected block, with the handler behind it. -/
theorem guarded {region : Region} (mem : region ∈ tree.regions)
    (kind : region.kind.hasHandler = true) :
    ∃ block rest handler, Family tree region (block :: rest) ∧ block.kind = .tryBlock ∧
      region.handler = some handler ∧ block.span.stop = handler.start ∧
      handler.start < handler.stop ∧ handler.stop = region.span.stop := by
  rcases opens_of_mem reads mem with rfl | ⟨at', opens⟩
  · have kind : head.kind.hasHandler = true := kind
    rw [method.kind] at kind
    cases kind
  have inMethod : code.tokens (Place.within ⟨0, 0, []⟩ head code) ⊆
      (Code.region head code).tokens ⟨0, 0, []⟩ := List.subset_cons_self _ _
  cases bracket_of_opens method.formed opens with
  | plain record formed tokens =>
    subst record
    cases kind.symm.trans formed.2.2.1
  | @handled outer inner handler record formed body tail =>
    subst record
    obtain ⟨-, -, -, nonempty, -, bare, ⟨top, single, isTry⟩, -⟩ := formed
    have family := reads.family_handled (fun _ listed ↦ inMethod (body listed))
      fun _ listed ↦ inMethod (tail listed)
    have heads := map_topRegions inner (at'.inBody outer inner handler)
    have touching := touching_topRegions inner (at'.inBody outer inner handler) bare
    rw [single, List.map_eq_singleton_iff] at heads
    obtain ⟨block, children, rfl⟩ := heads
    rw [children] at family touching
    refine ⟨block, _, _, family, isTry, rfl, touching.span.2, Nat.lt_add_of_pos_right nonempty, ?_⟩
    exact Nat.add_assoc _ _ _

/-- A catch handler stands in a group. -/
theorem caught {region : Region} (mem : region ∈ tree.regions) (kind : region.kind = .catchBlock) :
    ∃ group ∈ tree.regions, region.parent = some group.id ∧ group.kind = .tryBlock := by
  rcases opens_of_mem reads mem with rfl | ⟨at', opens⟩
  · have kind : head.kind = .catchBlock := kind
    rw [method.kind] at kind
    cases kind
  · obtain ⟨place, outer, inner, opens', -, isTry, -, -, mem⟩ :=
      method.exists_group opens (by rw [kind]; rfl)
    exact ⟨_, mem_of_opens reads opens', (mem_topRegions mem).2, isTry⟩

end Code.MethodFormed
end ProtectedRegions
