import ProtectedRegions.Region.Basic

/-!
# Defects of region trees

The ways in which a tree can fail to be a tree of protected regions.
-/

namespace ProtectedRegions

/-- A violated rule of the region tree, with the regions it is about (`regions/tree:147–265`). -/
inductive RegionDefect where
  | noRoot
  | rootNotMethod (root : Region)
  | rootSpan (root : Region) (instructions : Nat)
  | empty (region : Region)
  | nestedMethod (region : Region)
  | unknownChild (region : Region) (child : RegionId)
  | foreignChild (region child : Region)
  | overlap (region child : Region)
  | outsideGroup (region : Region)
  | beforeBody (region : Region)
  | filterWithoutCatch (region : Region)
  | catchWithoutFilter (region : Region)
  | noHandler (region : Region)
  | noProtectedBody (region : Region)
  | handlerDetached (region : Region) (handler : Span) (body : Region)
  deriving DecidableEq, Repr

private def parentText : Option RegionId → String
  | none => "None"
  | some parent => s!"Some({parent})"

/-- The wording of a defect (`regions/tree:147–265`). -/
def RegionDefect.message : RegionDefect → String
  | .noRoot => "region tree has no root"
  | .rootNotMethod root => s!"root {root} is not a method region"
  | .rootSpan root instructions => s!"root {root} does not span all {instructions} instructions"
  | .empty region => s!"region {region} is empty"
  | .nestedMethod region => s!"nested method region {region}"
  | .unknownChild region child => s!"{region} has unknown child {child}"
  | .foreignChild region child =>
    s!"{region} lists {child} as a child but it has parent {parentText child.parent}"
  | .overlap region child => s!"{child} overlaps a sibling or escapes its parent {region}"
  | .outsideGroup region => s!"{region} is not inside a catch group"
  | .beforeBody region => s!"{region} precedes the protected body"
  | .filterWithoutCatch region => s!"filter {region} is not immediately followed by its catch"
  | .catchWithoutFilter region => s!"filtered catch {region} has no preceding filter"
  | .noHandler region => s!"{region} has no handler bounds"
  | .noProtectedBody region => s!"{region} does not wrap a try region"
  | .handlerDetached region handler body =>
    s!"{region} handler [{handler.start}, {handler.stop}) does not follow its protected " ++
      s!"region {body}"

end ProtectedRegions
