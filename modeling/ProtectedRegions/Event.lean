import ProtectedRegions.Exit.Edge
import ProtectedRegions.Flow.Node
import ProtectedRegions.Digraph
import ProtectedRegions.Statement

/-!
# Events

What a build reports on its way: findings of the flow analysis, exits found and ignored,
decisions about cleanups, and code that cannot run.
-/

namespace ProtectedRegions

/-- How much an event matters. -/
inductive Level where
  | warn
  | debug
  | trace
  deriving DecidableEq, Repr

instance : ToString Level where
  toString
    | .warn => "WARN"
    | .debug => "DEBUG"
    | .trace => "TRACE"

/-- Something that a build reports. -/
inductive Event where
  /-- A guarded edge came to hold. -/
  | admitted (edge : Nat) (flow : FlowEdge)
  | reached (live total edges accepted guarded : Nat)
  | analyzed (statements methods jumps : Nat)
  | deadJump (jump : StmtId)
  | exitFound (boundary : StmtId) (edge : ExitEdge)
  | decided (kind : SyntheticKind) (stmt : StmtId) (crossing : Nat) (isProtected : Bool)
  | unreachable (name : String) (stmt : StmtId)
  | built (regions instructions : Nat) (method : StmtId)
  deriving DecidableEq, Repr

namespace Event

/-- How much the event matters: dead code is worth a warning. -/
def level : Event → Level
  | .unreachable .. => .warn
  | .built .. => .debug
  | _ => .trace

/-- The wording of the event (`analysis/cfg/reachability:174–210`, `analysis/cfg/graph:181–186`,
`analysis/exits:296–320`, `regions/builder:145–199`). -/
def message : Event → String
  | .admitted edge flow =>
    s!"admitted {edgeText edge} {flow.kind} edge {flow.source} -> {flow.target}"
  | .reached live total edges accepted guarded =>
    s!"reachability: {live} of {total} flow nodes live over {edges} edges, " ++
      s!"{accepted}/{guarded} guarded edges admitted"
  | .analyzed statements methods jumps =>
    s!"control flow graph: {statements} statements, {methods} methods, {jumps} jumps"
  | .deadJump jump => s!"ignoring dead jump {jump}"
  | .exitFound boundary edge => s!"exit of {boundary}: {edge}"
  | .decided kind stmt crossing isProtected =>
    s!"{kind} {stmt}: {crossing} crossing exits, " ++
      if isProtected then "protected" else "elided"
  | .unreachable name stmt => s!"laying out unreachable {name} {stmt}"
  | .built regions instructions method =>
    s!"built {regions} regions over {instructions} instructions for method {method}"

end Event
end ProtectedRegions
