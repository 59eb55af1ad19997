import ProtectedRegions.Code.Instruction
import ProtectedRegions.Region.Basic

/-!
# Region trees

The regions of one method with the instructions their spans refer to. Regions are listed in
the order of their ids, which is document order with parents before children.
-/

namespace ProtectedRegions

/-- The regions and instructions of one method (`regions/tree:37–41`). -/
structure RegionTree where
  regions : List Region
  instructions : List (Instruction Nat)
  method : StmtId
  deriving DecidableEq, Repr

namespace RegionTree

/-- The id of the method region (`regions/tree:58–60`). -/
def root : RegionId := ⟨0⟩

/-- The region with the given id (`regions/tree:70–72`). -/
def region? (tree : RegionTree) (id : RegionId) : Option Region := tree.regions[id.index]?

/-- The children in document order; none for an unknown id (`regions/tree:76–78`). -/
def children (tree : RegionTree) (id : RegionId) : List RegionId :=
  match tree.region? id with
  | some region => region.children
  | none => []

/-- The regions of the children in document order. -/
def childRegions (tree : RegionTree) (region : Region) : List Region :=
  region.children.filterMap tree.region?

/-- The parent of a region (`regions/tree:82–84`). -/
def parent? (tree : RegionTree) (id : RegionId) : Option RegionId :=
  (tree.region? id).bind (·.parent)

/-- The regions of one kind, in id order (`regions/tree:110–112`). -/
def ofKind (tree : RegionTree) (kind : RegionKind) : List Region :=
  tree.regions.filter (·.kind == kind)

/-- All regions that cover the offset, in id order. -/
def covering (tree : RegionTree) (offset : Nat) : List Region :=
  tree.regions.filter (·.span.covers offset)

/-- Whether the region with the given id covers the offset. -/
def covers (tree : RegionTree) (offset : Nat) (id : RegionId) : Bool :=
  (tree.region? id).any (·.span.covers offset)

/-- The regions below `id` that cover the offset, outermost first, to the given depth: of the
children, the first that covers the offset is entered (`regions/tree:119–128`). -/
def descendTo (tree : RegionTree) (offset : Nat) : Nat → RegionId → List RegionId
  | 0, _ => []
  | depth + 1, id =>
    match (tree.children id).find? (tree.covers offset) with
    | none => []
    | some child => child :: tree.descendTo offset depth child

/-- The regions other than the method that cover the offset, innermost first
(`regions/tree:116–131`). -/
def activeAt (tree : RegionTree) (offset : Nat) : List RegionId :=
  (tree.descendTo offset tree.regions.length root).reverse

/-- The regions at and below `id` to the given depth, children before their parent. -/
def postorderFrom (tree : RegionTree) : Nat → RegionId → List Region
  | 0, _ => []
  | depth + 1, id =>
    match tree.region? id with
    | none => []
    | some region => region.children.flatMap (tree.postorderFrom depth) ++ [region]

/-- All regions, children before their parent (`codegen/clauses:128–138`). -/
def postorder (tree : RegionTree) : List Region :=
  tree.postorderFrom tree.regions.length root

end RegionTree
end ProtectedRegions
