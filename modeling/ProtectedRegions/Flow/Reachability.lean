import ProtectedRegions.Digraph
import ProtectedRegions.Digraph.Walk
import ProtectedRegions.Flow.Edges

/-!
# Reachability

One depth-first walk from the entries of all methods marks the flow nodes that control can
reach. A guarded edge is admitted to the graph as soon as the last handler end it requires is
yielded by the walk, which then goes on from the target of the edge. Each node is expanded
once, and the marked nodes are the least set closed under the edges that hold.
-/

namespace ProtectedRegions

/-- The numbering of the flow nodes of a body: entries and ends by statement, then the exits of
the methods (`analysis/cfg/reachability:45–48`). -/
structure FlowIndex where
  statements : Nat
  methods : List StmtId
  deriving DecidableEq, Repr

namespace FlowIndex

/-- The number of flow nodes. -/
def size (index : FlowIndex) : Nat := 2 * index.statements + index.methods.length

/-- The position of a node. The positions of statements that are not in the body run on into those
of the exits; the exit of what is no method is at the size (`analysis/cfg/reachability:50–69`). -/
def position (index : FlowIndex) : FlowNode → Nat
  | .entry stmt => 2 * stmt.index
  | .ending stmt => 2 * stmt.index + 1
  | .exit root => 2 * index.statements + index.methods.idxOf root

/-- The nodes in the order of their positions (`analysis/cfg/reachability:112–118`). -/
def nodes (index : FlowIndex) : List FlowNode :=
  (List.range index.statements).flatMap (fun stmt ↦ [.entry ⟨stmt⟩, .ending ⟨stmt⟩]) ++
    index.methods.map .exit

/-- An edge between positions. -/
def edge (index : FlowIndex) (edge : FlowEdge) : Digraph.Edge FlowEdgeKind :=
  ⟨index.position edge.source, index.position edge.target, edge.kind⟩

/-- The graph of all nodes and the given edges (`analysis/cfg/reachability:110–145`). -/
def graph (index : FlowIndex) (edges : List FlowEdge) : Digraph FlowNode FlowEdgeKind :=
  ⟨index.nodes.toArray, (edges.map index.edge).toArray⟩

end FlowIndex

/-- How many times an edge requires the end at a position. -/
def GuardedEdge.demand (index : FlowIndex) (node : Nat) (edge : GuardedEdge) : Nat :=
  edge.requires.countP (index.position · == node)

/-- The state of the marking walk. The edges admitted so far are part of the graph, and `missing`
counts for each guarded edge, in the order of their list, the required ends that the walk has
still to yield (`analysis/cfg/reachability:147–166`). -/
structure Marking where
  graph : Digraph FlowNode FlowEdgeKind
  walk : Walk
  missing : List Nat
  admitted : List GuardedEdge

namespace Marking

/-- Admits a guarded edge. If its source is marked the walk may have expanded it already, so the
target is pushed at once; otherwise the walk meets the edge when it expands the source
(`analysis/cfg/reachability:168–186`). -/
def accept (index : FlowIndex) (marking : Marking) (edge : GuardedEdge) : Marking :=
  { marking with
    graph := marking.graph.connect (index.edge edge.toFlowEdge)
    walk :=
      if marking.walk.isDiscovered (index.position edge.source) then
        marking.walk.push (index.position edge.target)
      else marking.walk
    admitted := marking.admitted ++ [edge] }

/-- The counts after `node` is yielded (`analysis/cfg/reachability:191–193`). -/
def countDown (index : FlowIndex) (node : Nat) (guarded : List GuardedEdge)
    (missing : List Nat) : List Nat :=
  guarded.zipWith (fun edge left ↦ left - edge.demand index node) missing

/-- The guarded edges for which `node` is the last of the required ends to be yielded
(`analysis/cfg/reachability:191–197`). -/
def released (index : FlowIndex) (node : Nat) (guarded : List GuardedEdge)
    (missing : List Nat) : List GuardedEdge :=
  ((guarded.zip missing).filter fun (edge, left) ↦
    0 < edge.demand index node && left - edge.demand index node == 0).map (·.1)

/-- The state before the first step: the entries of the methods are pushed, and the edges that
require nothing are admitted (`analysis/cfg/reachability:147–164`). -/
def start (index : FlowIndex) (edges : List FlowEdge) (guarded : List GuardedEdge) : Marking :=
  let entries := index.methods.map fun root ↦ index.position (.entry root)
  (guarded.filter (·.requires.isEmpty)).foldl (accept index)
    { graph := index.graph edges
      walk := entries.foldl Walk.push (Walk.start index.size)
      missing := guarded.map (·.requires.length)
      admitted := [] }

/-- Yields a node and admits the edges that waited for it (`analysis/cfg/reachability:167–199`). -/
def next? (index : FlowIndex) (guarded : List GuardedEdge) (marking : Marking) :
    Option Marking :=
  match marking.walk.next? marking.graph.successors with
  | none => none
  | some (node, walk) =>
    some ((released index node guarded marking.missing).foldl (accept index)
      { marking with walk, missing := countDown index node guarded marking.missing })

/-- At most `steps` steps. -/
def run (index : FlowIndex) (guarded : List GuardedEdge) : Nat → Marking → Marking
  | 0, marking => marking
  | steps + 1, marking =>
    match marking.next? index guarded with
    | none => marking
    | some next => run index guarded steps next

end Marking

/-- The flow nodes that control can reach, with an account of the walk that found them
(`analysis/cfg/reachability:73–77`). -/
structure Reachability where
  index : FlowIndex
  live : BitSet
  /-- The number of nodes the walk expanded. -/
  expanded : Nat
  /-- The number of edges that hold from the start. -/
  plainEdgeCount : Nat
  guardedEdgeCount : Nat
  /-- The guarded edges that came to hold, in the order of their admission. -/
  admitted : List GuardedEdge

namespace Reachability

/-- Runs the marking walk; it yields each flow node at most once
(`analysis/cfg/reachability:96–217`). -/
def compute (index : FlowIndex) (edges : List FlowEdge) (guarded : List GuardedEdge) :
    Reachability :=
  let marking := (Marking.start index edges guarded).run index guarded index.size
  { index
    live := marking.walk.discovered
    expanded := marking.walk.expanded
    plainEdgeCount := edges.length
    guardedEdgeCount := guarded.length
    admitted := marking.admitted }

/-- The reachability of a body whose jumps have the given routes
(`analysis/cfg/reachability:96–139`). -/
def ofBody (body : Body) (routes : List Route) : Reachability :=
  compute ⟨body.size, body.methods⟩ body.plainEdges (body.guardedEdges routes)

/-- Whether control can reach the node, by its position (`analysis/cfg/reachability:221–225`). -/
def contains (reach : Reachability) (node : FlowNode) : Bool :=
  reach.live.contains (reach.index.position node)

end Reachability
end ProtectedRegions
