import ProtectedRegions.Ids

/-!
# Exit edges

The ways control leaves a scope other than by an exception raised in it: a jump to a place
outside, a rethrow of the exception the scope caught, and normal completion at its end.
-/

namespace ProtectedRegions

/-- How an exit edge leaves its scope (`analysis/exits:51–58`). -/
inductive ExitKind where
  | leave
  | rethrow
  | fallThrough
  deriving DecidableEq, Repr

namespace ExitKind

/-- Every exit kind, in declaration order. -/
def all : List ExitKind := [.leave, .rethrow, .fallThrough]

/-- The word for an exit kind inside the text of an edge (`analysis/exits:117–130`). -/
def arrow : ExitKind → String
  | .leave => "leave"
  | .rethrow => "rethrow"
  | .fallThrough => "fallthrough"

instance : ToString ExitKind where
  toString
    | .leave => "Leave"
    | .rethrow => "Rethrow"
    | .fallThrough => "FallThrough"

end ExitKind

/-- Where an exit edge arrives (`analysis/exits:62–75`). -/
inductive ExitTarget where
  /-- At the statement that defines the label. -/
  | label (label : LabelId)
  /-- Behind the loop or switch. -/
  | breakOf (construct : StmtId)
  /-- At the condition of the loop. -/
  | continueOf (loop : StmtId)
  /-- Behind the statement. -/
  | endOf (stmt : StmtId)
  /-- At the epilogue of the method. -/
  | methodExit
  /-- At the next enclosing exception handler. -/
  | unwind
  deriving DecidableEq, Repr

instance : ToString ExitTarget where
  toString
    | .label label => toString label
    | .breakOf construct => s!"break({construct})"
    | .continueOf loop => s!"continue({loop})"
    | .endOf stmt => s!"end({stmt})"
    | .methodExit => "return"
    | .unwind => "unwind"

/-- One way control leaves a scope. The source of a fall through is the scope itself. An edge
whose target cannot be reached is still an exit, and says so (`analysis/exits:103–115`). -/
structure ExitEdge where
  source : StmtId
  target : ExitTarget
  kind : ExitKind
  targetReachable : Bool
  deriving DecidableEq, Repr

instance : ToString ExitEdge where
  toString edge :=
    s!"{edge.source} -{edge.kind.arrow}-> {edge.target}" ++
      if edge.targetReachable then "" else " (dead)"

/-- The exit edges of a scope, in document order of their sources (`analysis/exits:134–136`). -/
abbrev ExitSet := List ExitEdge

namespace ExitSet

/-- The edges that cross the boundary of the scope (`analysis/exits:163–165`). -/
def leaves (exits : ExitSet) : List ExitEdge := exits.filter (·.kind == .leave)

/-- Whether no edge crosses the boundary of the scope (`analysis/exits:169–171`). -/
def isExitless (exits : ExitSet) : Bool := exits.leaves.isEmpty

/-- Whether the scope can complete normally (`analysis/exits:175–177`). -/
def fallsThrough (exits : ExitSet) : Bool := exits.any (·.kind == .fallThrough)

/-- Whether the scope holds a rethrow that it owns (`analysis/exits:181–183`). -/
def rethrows (exits : ExitSet) : Bool := exits.any (·.kind == .rethrow)

end ExitSet
end ProtectedRegions
