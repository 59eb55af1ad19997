import ProtectedRegions.Region.Defect
import ProtectedRegions.Region.Tree

/-!
# Validation of region trees

The rules that make a list of regions a tree of protected regions: the root spans the method,
no region is empty, children are ordered and disjoint inside their parent, a filter stands
right before its catch, and a handler right behind its protected block.
-/

namespace ProtectedRegions
namespace RegionTree

/-- Children follow one another from `previous` on and stay within their parent
(`regions/tree:179–203`). -/
def checkChildren (tree : RegionTree) (region : Region) (previous : Nat) :
    List RegionId → Except RegionDefect Unit
  | [] => .ok ()
  | id :: rest =>
    match tree.region? id with
    | none => .error (.unknownChild region id)
    | some child =>
      if child.parent ≠ some region.id then .error (.foreignChild region child)
      else if child.span.start < previous || region.span.stop < child.span.stop then
        .error (.overlap region child)
      else tree.checkChildren region child.span.stop rest

/-- The group of a catch or filter, with the place of the region among its children
(`regions/tree:206–213`). -/
def groupOf? (tree : RegionTree) (region : Region) : Except RegionDefect (Region × Nat) :=
  match (region.parent.bind tree.region?).filter (·.kind == .tryBlock) with
  | none => .error (.outsideGroup region)
  | some group =>
    match group.children.findIdx? (· == region.id) with
    | some (before + 1) => .ok (group, before + 1)
    | _ => .error (.beforeBody region)

/-- A filter stands right before the catch it guards (`regions/tree:218–227`). -/
def checkFilter (tree : RegionTree) (region : Region) : Except RegionDefect Unit := do
  let (group, place) ← tree.groupOf? region
  match group.children[place + 1]?.bind tree.region? with
  | some handler =>
    if handler.kind = .catchBlock && handler.span.start == region.span.stop then .ok ()
    else .error (.filterWithoutCatch region)
  | none => .error (.filterWithoutCatch region)

/-- A filtered catch stands right behind its filter (`regions/tree:228–238`). -/
def checkCatch (tree : RegionTree) (region : Region) : Except RegionDefect Unit := do
  let (group, place) ← tree.groupOf? region
  if region.catchInfo.any (·.filtered) then
    match group.children[place - 1]?.bind tree.region? with
    | some filter =>
      if filter.kind = .filterBlock && filter.span.stop == region.span.start then .ok ()
      else .error (.catchWithoutFilter region)
    | none => .error (.catchWithoutFilter region)

/-- The handler of a `finally` or `fault` fills the region behind its protected block
(`regions/tree:243–265`). -/
def checkHandler (tree : RegionTree) (region : Region) : Except RegionDefect Unit :=
  match region.handler with
  | none => .error (.noHandler region)
  | some handler =>
    match (region.children.head?.bind tree.region?).filter (·.kind == .tryBlock) with
    | none => .error (.noProtectedBody region)
    | some body =>
      if body.span.start == region.span.start && body.span.stop == handler.start &&
          handler.stop == region.span.stop && !handler.isEmpty then .ok ()
      else .error (.handlerDetached region handler body)

/-- The rules of one region (`regions/tree:162–175`). -/
def checkRegion (tree : RegionTree) (region : Region) : Except RegionDefect Unit := do
  if region.span.isEmpty then .error (.empty region)
  tree.checkChildren region region.span.start region.children
  match region.kind with
  | .method => if region.id = root then .ok () else .error (.nestedMethod region)
  | .filterBlock => tree.checkFilter region
  | .catchBlock => tree.checkCatch region
  | .finallyBlock | .faultBlock => tree.checkHandler region
  | .tryBlock => .ok ()

/-- The first rule that the tree breaks, if it breaks any (`regions/tree:147–177`). -/
def validate (tree : RegionTree) : Except RegionDefect Unit := do
  match tree.region? root with
  | none => .error .noRoot
  | some method =>
    if method.kind ≠ .method || method.parent.isSome then .error (.rootNotMethod method)
    if method.span ≠ .ofLength 0 tree.instructions.length then
      .error (.rootSpan method tree.instructions.length)
    tree.regions.forM tree.checkRegion

end RegionTree
end ProtectedRegions
