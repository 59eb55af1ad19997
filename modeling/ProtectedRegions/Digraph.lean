/-!
# Directed graphs

Nodes and edges carry data and are named by the position at which they were added. Parallel
edges and self loops are allowed. The successors of a node come in the order in which its
edges were added.
-/

namespace ProtectedRegions

/-- The text of a graph node (`utils/graph/node:39–43`). -/
def nodeText (node : Nat) : String := s!"n{node}"

/-- The text of a graph edge (`utils/graph/edge:34–38`). -/
def edgeText (edge : Nat) : String := s!"e{edge}"

namespace Digraph

/-- An edge with its end points and its data (`utils/graph/directed:18–25`). -/
structure Edge (ε : Type) where
  source : Nat
  target : Nat
  data : ε
  deriving DecidableEq, Repr

/-- An end point that names no node of a graph with `size` nodes
(`utils/graph/directed:126–143`). -/
inductive MissingNode where
  | source (node size : Nat)
  | target (node size : Nat)
  deriving DecidableEq, Repr

/-- The wording of a missing end point. -/
def MissingNode.message : MissingNode → String
  | .source node size =>
    s!"source node {nodeText node} does not exist in graph with {size} nodes"
  | .target node size =>
    s!"target node {nodeText node} does not exist in graph with {size} nodes"

end Digraph

/-- A directed graph with node data in `ν` and edge data in `ε` (`utils/graph/directed:55–62`). -/
structure Digraph (ν ε : Type) where
  nodes : Array ν
  edges : Array (Digraph.Edge ε)
  deriving DecidableEq, Repr

namespace Digraph

variable {ν ε : Type}

/-- The graph without nodes (`utils/graph/directed:73–79`). -/
def empty : Digraph ν ε := ⟨#[], #[]⟩

/-- The number of nodes (`utils/graph/directed:114–116`). -/
def size (graph : Digraph ν ε) : Nat := graph.nodes.size

/-- Adds a node and gives its name (`utils/graph/directed:99–104`). -/
def addNode (graph : Digraph ν ε) (data : ν) : Nat × Digraph ν ε :=
  (graph.nodes.size, { graph with nodes := graph.nodes.push data })

/-- Adds an edge between nodes that are known to be in the graph
(`utils/graph/directed:144–150`). -/
def connect (graph : Digraph ν ε) (edge : Edge ε) : Digraph ν ε :=
  { graph with edges := graph.edges.push edge }

/-- Adds an edge and gives its name, provided that both end points are nodes
(`utils/graph/directed:126–151`). -/
def addEdge (graph : Digraph ν ε) (edge : Edge ε) : Except MissingNode (Nat × Digraph ν ε) :=
  if graph.size ≤ edge.source then .error (.source edge.source graph.size)
  else if graph.size ≤ edge.target then .error (.target edge.target graph.size)
  else .ok (graph.edges.size, graph.connect edge)

/-- The targets of the edges that start at `node`, in the order in which they were added
(`utils/graph/directed:179–185`). -/
def successors (graph : Digraph ν ε) (node : Nat) : List Nat :=
  (graph.edges.filter (·.source == node)).toList.map (·.target)

/-- A new edge is the last of the edges that start where it does. -/
theorem successors_connect (graph : Digraph ν ε) (edge : Edge ε) (node : Nat) :
    (graph.connect edge).successors node =
      graph.successors node ++ if edge.source = node then [edge.target] else [] := by
  unfold successors connect
  by_cases h : edge.source = node <;> simp [h]

end Digraph
end ProtectedRegions
