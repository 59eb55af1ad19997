import ProtectedRegions.Code.Basic

/-!
# Forests of regions

The regions of structured code without their offsets. A forest says which regions lie in which;
listed from a first number on, each region stands before those inside it, and its links to its
parent and its children follow from the nesting.
-/

namespace ProtectedRegions

/-- Regions in document order: the first one with the forest inside it, and those behind it. -/
inductive RegionForest where
  | empty
  | plant (head : RegionHead) (inner rest : RegionForest)
  deriving DecidableEq, Repr

/-- What a region is apart from its offsets. -/
structure Seat extends RegionHead where
  id : RegionId
  parent : Option RegionId
  children : List RegionId
  deriving DecidableEq, Repr

/-- A region without its offsets. -/
def Region.seat (region : Region) : Seat :=
  ⟨region.toRegionHead, region.id, region.parent, region.children⟩

namespace RegionForest

/-- A single region with the forest inside it. -/
def tree (head : RegionHead) (inner : RegionForest) : RegionForest := plant head inner empty

/-- One forest behind another. -/
def append : RegionForest → RegionForest → RegionForest
  | empty, later => later
  | plant head inner rest, later => plant head inner (rest.append later)

instance : Append RegionForest where
  append := append

/-- Forests one behind another. -/
def concat (parts : List RegionForest) : RegionForest := parts.foldr append empty

/-- The number of regions. -/
def count : RegionForest → Nat
  | empty => 0
  | plant _ inner rest => inner.count + 1 + rest.count

/-- The regions in pre-order. -/
def heads : RegionForest → List RegionHead
  | empty => []
  | plant head inner rest => head :: (inner.heads ++ rest.heads)

/-- The ids of the outermost regions, if the first region has the number `next`. -/
def roots (next : Nat) : RegionForest → List RegionId
  | empty => []
  | plant _ inner rest => ⟨next⟩ :: rest.roots (next + (inner.count + 1))

/-- The regions in pre-order with their ids and links. The first has the number `next`, and the
outermost ones have the given parent. -/
def listing (next : Nat) (parent : Option RegionId) : RegionForest → List Seat
  | empty => []
  | plant head inner rest =>
    ⟨head, ⟨next⟩, parent, inner.roots (next + 1)⟩ ::
      (inner.listing (next + 1) (some ⟨next⟩) ++ rest.listing (next + (inner.count + 1)) parent)

variable {first second : RegionForest} {next : Nat} {parent : Option RegionId}

@[simp]
theorem empty_append : empty ++ second = second := rfl

@[simp]
theorem plant_append {head : RegionHead} {inner rest : RegionForest} :
    plant head inner rest ++ second = plant head inner (rest ++ second) := rfl

@[simp]
theorem append_empty : first ++ empty = first := by
  induction first with
  | empty => rfl
  | plant head inner rest _ ih => rw [plant_append, ih]

@[simp]
theorem concat_nil : concat [] = empty := rfl

@[simp]
theorem concat_cons {parts : List RegionForest} :
    concat (first :: parts) = first ++ concat parts := rfl

@[simp]
theorem count_append : (first ++ second).count = first.count + second.count := by
  induction first with
  | empty => simp [count]
  | plant head inner rest _ ih =>
    simp only [plant_append, count, ih]
    omega

@[simp]
theorem heads_append : (first ++ second).heads = first.heads ++ second.heads := by
  induction first with
  | empty => rfl
  | plant head inner rest _ ih => simp [heads, ih]

@[simp]
theorem heads_tree {head : RegionHead} {inner : RegionForest} :
    (tree head inner).heads = head :: inner.heads := by
  simp [tree, heads]

@[simp]
theorem heads_concat {parts : List RegionForest} : (concat parts).heads = parts.flatMap heads := by
  induction parts with
  | nil => rfl
  | cons first rest ih => simp [ih]

/-- The outermost regions of the later forest are numbered behind those of the earlier. -/
theorem roots_append :
    (first ++ second).roots next = first.roots next ++ second.roots (next + first.count) := by
  induction first generalizing next with
  | empty => simp [roots, count]
  | plant head inner rest _ ih => simp [roots, count, ih, Nat.add_assoc]

/-- The later forest is listed behind the earlier. -/
theorem listing_append : (first ++ second).listing next parent =
    first.listing next parent ++ second.listing (next + first.count) parent := by
  induction first generalizing next parent with
  | empty => simp [listing, count]
  | plant head inner rest _ ih => simp [listing, count, ih, Nat.add_assoc]

/-- Listed without ids and links, the regions are those in pre-order. -/
theorem map_toRegionHead_listing {forest : RegionForest} :
    (forest.listing next parent).map (·.toRegionHead) = forest.heads := by
  induction forest generalizing next parent with
  | empty => rfl
  | plant head inner rest ihInner ihRest => simp [listing, heads, ihInner, ihRest]

end RegionForest

namespace Code

/-- The nesting of the regions of code. -/
def forest : Code → RegionForest
  | nothing | mark _ | note _ | instr .. => .empty
  | append first second => first.forest ++ second.forest
  | statement _ inner => inner.forest
  | region head inner => .tree head inner.forest
  | handled head inner handler => .tree head (inner.forest ++ handler.forest)

@[simp]
theorem forest_append {first second : Code} :
    (first ++ second).forest = first.forest ++ second.forest := rfl

@[simp]
theorem forest_region {head : RegionHead} {inner : Code} :
    (region head inner).forest = .tree head inner.forest := rfl

@[simp]
theorem forest_handled {head : RegionHead} {inner handler : Code} :
    (handled head inner handler).forest = .tree head (inner.forest ++ handler.forest) := rfl

@[simp]
theorem forest_mark {label : LabelKey} : (mark label).forest = .empty := rfl

@[simp]
theorem forest_note {event : Event} : (note event).forest = .empty := rfl

@[simp]
theorem forest_instr {source : StmtId} {operation : Instruction LabelKey} :
    (instr source operation).forest = .empty := rfl

@[simp]
theorem forest_onlyIf {condition : Bool} {code : Code} :
    (onlyIf condition code).forest = if condition then code.forest else .empty := by
  cases condition <;> rfl

@[simp]
theorem forest_concat {parts : List Code} :
    (concat parts).forest = .concat (parts.map forest) := by
  induction parts with
  | nil => rfl
  | cons first rest ih =>
    rw [List.map_cons, RegionForest.concat_cons, ← ih]
    rfl

@[simp]
theorem forest_notes {events : List Event} : (notes events).forest = .empty := by
  induction events with
  | nil => rfl
  | cons event rest ih => exact ih

/-- Code has as many regions as its forest. -/
theorem count_forest (code : Code) : code.forest.count = code.regionCount := by
  induction code with
  | nothing | mark | note | instr => rfl
  | append first second ihFirst ihSecond =>
    exact RegionForest.count_append.trans (by rw [ihFirst, ihSecond]; rfl)
  | statement stmt inner ih => exact ih
  | region head inner ih => simp [RegionForest.tree, RegionForest.count, regionCount, ih]
  | handled head inner handler ihInner ihHandler =>
    simp [RegionForest.tree, RegionForest.count, regionCount, ihInner, ihHandler]

/-- The outermost regions of code are the roots of its forest. -/
theorem roots_forest (code : Code) (next : Nat) : code.forest.roots next = code.outermost next := by
  induction code generalizing next with
  | nothing | mark | note | instr | region | handled => rfl
  | append first second ihFirst ihSecond =>
    refine RegionForest.roots_append.trans ?_
    rw [ihFirst, ihSecond, count_forest]
    rfl
  | statement stmt inner ih => exact ih next

/-- The regions of code are the listing of its forest. -/
theorem map_seat_regions (code : Code) (offset next : Nat) (parent : Option RegionId) :
    (code.regions offset next parent).map Region.seat = code.forest.listing next parent := by
  induction code generalizing offset next parent with
  | nothing | mark | note | instr => rfl
  | append first second ihFirst ihSecond =>
    refine Eq.trans ?_ RegionForest.listing_append.symm
    rw [regions, List.map_append, ihFirst, ihSecond, count_forest]
  | statement stmt inner ih => exact ih offset next parent
  | region head inner ih =>
    simp only [forest, RegionForest.tree, RegionForest.listing, regions, List.map_cons,
      List.append_nil, ih, roots_forest]
    rfl
  | handled head inner handler ihInner ihHandler =>
    simp only [forest, RegionForest.tree, RegionForest.listing, regions, List.map_cons,
      List.map_append, List.append_nil, RegionForest.listing_append, RegionForest.roots_append,
      ihInner, ihHandler, roots_forest, count_forest]
    rfl

end Code
end ProtectedRegions
