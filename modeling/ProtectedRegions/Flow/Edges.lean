import ProtectedRegions.Flow.Jump

/-!
# Edges of the flow graph

The edges that hold from the start, and the guarded edges that hold once the `finally`
handlers they cross are known to complete: completions of protected parts, and jumps.
Exceptions may be raised anywhere, so a `try` that starts may start any of its handlers.
-/

namespace ProtectedRegions

namespace Statement

/-- The edges from one node through a list of children to another node
(`analysis/cfg/reachability:260–267`). -/
def sequence (source target : FlowNode) : List StmtId → List FlowEdge
  | [] => [⟨source, target, .sequential⟩]
  | child :: rest =>
    ⟨source, .entry child, .sequential⟩ :: sequence (.ending child) target rest

/-- The edges that the shape of a statement gives rise to, whatever is reachable
(`analysis/cfg/reachability:249–352`). -/
def edges (stmt : StmtId) : Statement → List FlowEdge
  | .block children => sequence (.entry stmt) (.ending stmt) children
  | .expression _ | .lambda _ => sequence (.entry stmt) (.ending stmt) []
  | .labeled _ body | .synthetic _ body => sequence (.entry stmt) (.ending stmt) [body]
  | .conditional condition thenBranch elseBranch =>
    let otherwise := (elseBranch.map FlowNode.entry).getD (.ending stmt)
    (if condition = .never then []
      else [⟨.entry stmt, .entry thenBranch, .conditional⟩]) ++
    (if condition = .always then [] else [⟨.entry stmt, otherwise, .conditional⟩]) ++
    [⟨.ending thenBranch, .ending stmt, .sequential⟩] ++
    elseBranch.toList.map fun branch ↦ ⟨.ending branch, .ending stmt, .sequential⟩
  | .tryBlock parts =>
    [⟨.entry stmt, .entry parts.body, .sequential⟩] ++
    parts.handler.toList.map (fun clause ↦ ⟨.entry stmt, .entry clause.body, .handler⟩) ++
    parts.catches.map fun clause ↦ ⟨.entry stmt, .entry clause.body, .handler⟩
  | .loop condition body =>
    (if condition = .never then [] else [⟨.entry stmt, .entry body, .conditional⟩]) ++
    (if condition = .always then [] else [⟨.entry stmt, .ending stmt, .conditional⟩]) ++
    [⟨.ending body, .entry stmt, .backEdge⟩]
  | .switch sections default =>
    sections.flatMap (fun child ↦
      [⟨.entry stmt, .entry child, .conditional⟩, ⟨.ending child, .ending stmt, .sequential⟩]) ++
    if default.isNone then [⟨.entry stmt, .ending stmt, .conditional⟩] else []
  | .jump _ | .throwException | .rethrow => []

/-- The completions of the protected parts of a `try`; a `finally` has to complete first
(`analysis/cfg/reachability:291–314`). -/
def completions (stmt : StmtId) : Statement → List GuardedEdge
  | .tryBlock parts =>
    parts.protectedParts.map fun part ↦
      { source := .ending part
        target := .ending stmt
        kind := .completion
        requires := (parts.finallyBody?.map FlowNode.ending).toList }
  | _ => []

end Statement

/-- The edge of a jump; the `finally` handlers it runs have to complete first
(`analysis/cfg/reachability:125–139`). -/
def Route.edge (route : Route) : GuardedEdge where
  source := .entry route.source
  target := route.target.arrival
  kind := .jump
  requires := route.requires.map FlowNode.ending

namespace Body

/-- The edges that hold from the start (`analysis/cfg/reachability:120–145`). -/
def plainEdges (body : Body) : List FlowEdge :=
  body.entries.flatMap (fun (stmt, shape) ↦ shape.edges stmt) ++
    body.methods.map fun root ↦ ⟨.ending root, .exit root, .sequential⟩

/-- The guarded edges: completions in id order, then jumps (`analysis/cfg/reachability:120–139`). -/
def guardedEdges (body : Body) (routes : List Route) : List GuardedEdge :=
  body.entries.flatMap (fun (stmt, shape) ↦ shape.completions stmt) ++ routes.map Route.edge

end Body
end ProtectedRegions
