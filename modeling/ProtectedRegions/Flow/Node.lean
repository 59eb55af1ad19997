import ProtectedRegions.Ids

/-!
# Flow nodes and edges

The flow graph has two nodes for each statement, its entry and its end, and an exit for each
method. The entry stands for a statement that starts, the end for one that completes
normally, the exit for a method that returns.
-/

namespace ProtectedRegions

/-- A node of the flow graph (`analysis/cfg/edge:13–20`). -/
inductive FlowNode where
  | entry (stmt : StmtId)
  | ending (stmt : StmtId)
  /-- The exit of the method with the given root. -/
  | exit (root : StmtId)
  deriving DecidableEq, Repr

instance : ToString FlowNode where
  toString
    | .entry stmt => s!"entry({stmt})"
    | .ending stmt => s!"end({stmt})"
    | .exit root => s!"exit({root})"

/-- The transfer of control that an edge stands for (`analysis/cfg/edge:43–68`). -/
inductive FlowEdgeKind where
  | sequential
  /-- An arm of a conditional, a switch section or the test of a loop. -/
  | conditional
  /-- From the end of a loop body to the test of the loop. -/
  | backEdge
  /-- From a `try` into one of its handlers. -/
  | handler
  /-- From the end of a protected part to the end of its `try`. -/
  | completion
  | jump
  deriving DecidableEq, Repr

namespace FlowEdgeKind

/-- Every edge kind, in declaration order. -/
def all : List FlowEdgeKind :=
  [.sequential, .conditional, .backEdge, .handler, .completion, .jump]

/-- Whether edges of this kind wait for the `finally` handlers they cross
(`analysis/cfg/edge:73–75`). -/
def isRouted : FlowEdgeKind → Bool
  | .completion | .jump => true
  | _ => false

instance : ToString FlowEdgeKind where
  toString
    | .sequential => "Sequential"
    | .conditional => "Conditional"
    | .backEdge => "BackEdge"
    | .handler => "Handler"
    | .completion => "Completion"
    | .jump => "Jump"

end FlowEdgeKind

/-- An edge of the flow graph. -/
structure FlowEdge where
  source : FlowNode
  target : FlowNode
  kind : FlowEdgeKind
  deriving DecidableEq, Repr

/-- An edge that holds once all the handler ends it requires are reached
(`analysis/cfg/reachability:36–41`). -/
structure GuardedEdge extends FlowEdge where
  requires : List FlowNode
  deriving DecidableEq, Repr

end ProtectedRegions
