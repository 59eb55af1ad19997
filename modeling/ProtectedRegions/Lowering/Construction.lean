import ProtectedRegions.Code.Layout
import ProtectedRegions.Logged
import ProtectedRegions.Lowering.Cleanup
import ProtectedRegions.Region.Basic

/-!
# Constructions

A method while it is laid out. Regions get their ids when they are opened and their bounds and
exits when they are closed; the open ones are kept on a stack. Each decision about a cleanup is
taken out once.
-/

namespace ProtectedRegions

/-- What there is of a method that is being laid out (`regions/builder:221–231`). -/
structure Construction where
  /-- The decisions that have not been taken yet. -/
  decisions : List (StmtId × CleanupDecision)
  layout : Layout
  regions : List Region
  /-- The regions that are open, innermost first. -/
  opened : List RegionId
  /-- The protected bodies and handlers around the current place, innermost first. -/
  scopes : List StmtId
  deriving DecidableEq, Repr

/-- Gives regions a parent, if there is one. -/
def Region.adopt (parent : Option RegionId) (ids : List RegionId) (regions : List Region) :
    List Region :=
  match parent with
  | some parent => regions.modify parent.index fun region ↦
      { region with children := region.children ++ ids }
  | none => regions

namespace Construction

/-- Before anything is laid out (`regions/builder:234–247`). -/
def start (decisions : List (StmtId × CleanupDecision)) : Construction :=
  ⟨decisions, .empty, [], [], []⟩

/-- The id of the next region. -/
def nextRegion (construction : Construction) : RegionId := ⟨construction.regions.length⟩

/-- With a region opened at the current offset, in the innermost open one. -/
def opening (construction : Construction) (head : RegionHead) : Construction :=
  let id := construction.nextRegion
  let parent := construction.opened.head?
  { construction with
    regions := Region.adopt parent [id] construction.regions ++
      [{ head with
          id
          span := .ofLength construction.layout.offset 0
          parent
          children := []
          handler := none }]
    opened := id :: construction.opened }

/-- With the innermost open region closed at the current offset. -/
def closing (construction : Construction) (id : RegionId) (exits : ExitSet) : Construction :=
  { construction with
    regions := construction.regions.modify id.index fun region ↦
      { region with
        span := .ofLength region.span.start (construction.layout.offset - region.span.start)
        exits }
    opened := construction.opened.tail }

end Construction

/-- What is done to a construction on the way through a method. -/
abbrev Construct := StateT Construction Logged

namespace Construct

/-- Appends an instruction (`codegen/layout:98–108`). -/
def emit (operation : Instruction LabelKey) : Construct Unit :=
  modify fun construction ↦
    { construction with layout := construction.layout.emitLabeled operation }

/-- Places a label at the current offset (`codegen/layout:115–126`). -/
def define (label : LabelKey) : Construct Unit := do
  let (placed, layout) := (← get).layout.place label
  modify ({ · with layout })
  Logged.ofResult placed

/-- Does something under a condition. -/
def onlyIf (condition : Bool) (construct : Construct Unit) : Construct Unit :=
  if condition then construct else pure ()

/-- Does something inside a scope. -/
def inScope (scope : StmtId) (construct : Construct Unit) : Construct Unit := do
  modify fun construction ↦ { construction with scopes := scope :: construction.scopes }
  construct
  modify fun construction ↦ { construction with scopes := construction.scopes.tail }

/-- Opens a region and gives its id (`regions/builder:277–305`). -/
def openRegion (kind : RegionKind) (origin : RegionOrigin) (stmt : StmtId) :
    Construct RegionId := do
  let construction ← get
  set (construction.opening ⟨kind, origin, stmt, none, []⟩)
  return construction.nextRegion

/-- Closes a region with its exits (`regions/builder:307–315`). -/
def closeRegion (id : RegionId) (exits : ExitSet) : Construct Unit :=
  modify (·.closing id exits)

/-- Changes a region that has been opened (`regions/builder:317–321`). -/
def updateRegion (id : RegionId) (change : Region → Region) : Construct Unit := do
  let construction ← get
  if id.index < construction.regions.length then
    set { construction with regions := construction.regions.modify id.index change }
  else Logged.ofResult (.error (.malformed (.neverOpened id)))

/-- Takes the decision about a synthetic statement out (`regions/builder:575–578`). -/
def takeDecision (kind : SyntheticKind) (stmt : StmtId) : Construct CleanupDecision := do
  let construction ← get
  let decision ← Logged.require (.malformed (.undecided kind stmt))
    (construction.decisions.lookup stmt)
  set { construction with decisions := construction.decisions.filter (·.1 ≠ stmt) }
  return decision

end Construct
end ProtectedRegions
