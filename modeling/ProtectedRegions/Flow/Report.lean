import ProtectedRegions.Event
import ProtectedRegions.Flow.Basic

/-!
# What the flow analysis reports

The edges it admitted, numbered after those that hold from the start, and the sizes of what
it found.
-/

namespace ProtectedRegions

/-- The admissions in order, then the totals (`analysis/cfg/reachability:172–210`). -/
def Reachability.events (reach : Reachability) : List Event :=
  reach.admitted.zipIdx.map (fun (edge, place) ↦
    .admitted (reach.plainEdgeCount + place) edge.toFlowEdge) ++
  [.reached reach.live.count reach.index.size (reach.plainEdgeCount + reach.admitted.length)
    reach.admitted.length reach.guardedEdgeCount]

/-- The events of the analysis of a body (`analysis/cfg/graph:180–186`). -/
def Flow.events (flow : Flow) : List Event :=
  flow.reach.events ++ [.analyzed flow.body.size flow.body.methods.length flow.jumpCount]

end ProtectedRegions
