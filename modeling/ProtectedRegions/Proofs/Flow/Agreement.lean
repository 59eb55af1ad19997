import ProtectedRegions.Exit.Query
import ProtectedRegions.Proofs.Body.Agreement
import ProtectedRegions.Proofs.Flow.Live

/-!
# The flow of a shared method

All methods of a body are analysed at once. Still the flow of a method depends on its own
statements alone: jumps stay in their method and so do the edges of the flow graph, so what
control can reach in a method that two bodies share is the same in both, and so are the exits of
its scopes.
-/

namespace ProtectedRegions
namespace Body.Shared

variable {body body' : Body} {root : StmtId} (shared : body.Shared body' root)

include shared

/-- A statement that passes has the same route. -/
theorem route?_eq_ok {stmt : StmtId} (runs : body.RunsIn root stmt) {route : Option Route}
    (passes : body.route? (Numbering.ofBody body) stmt = .ok route) :
    body'.route? (Numbering.ofBody body') stmt = .ok route := by
  rw [route?] at passes ⊢
  rw [shared.get?_eq runs, shared.rethrowOwner?_eq runs]
  cases found : body.get? stmt with
  | none =>
    rw [found] at passes
    exact passes
  | some shape =>
    rw [found] at passes
    cases shape with
    | jump form =>
      obtain ⟨target, resolved, passes⟩ := Outcome.bind_eq_ok.mp passes
      have tree := shared.wellFormed.toIsTree
      obtain ⟨has, same⟩ := (shared.wellFormed.resolve_spec runs.1 resolved).scope_spec tree runs.1
      refine Outcome.bind_eq_ok.mpr ⟨target, shared.resolve_eq_ok runs resolved, ?_⟩
      rw [shared.checkJump_eq runs ⟨has, same.trans runs.2⟩]
      exact passes
    | _ => exact passes

end Body.Shared

namespace Flow

/-- A method that two accepted flows share. -/
structure Shared (flow flow' : Flow) (root : StmtId) : Prop where
  accepted : flow.Accepted
  accepted' : flow'.Accepted
  member : root ∈ flow.body.methods
  member' : root ∈ flow'.body.methods
  agree : flow.body.AgreeOn flow'.body root

namespace Shared

variable {flow flow' : Flow} {root : StmtId} (shared : flow.Shared flow' root)

include shared

theorem bodies : flow.body.Shared flow'.body root :=
  ⟨shared.accepted.wellFormed, shared.accepted'.wellFormed, shared.member, shared.member',
    shared.agree⟩

theorem symm : flow'.Shared flow root :=
  ⟨shared.accepted', shared.accepted, shared.member', shared.member, shared.bodies.symm.agree⟩

variable {stmt : StmtId} (runs : flow.body.RunsIn root stmt)

include runs

/-- Containment within the method is the same. -/
theorem contains_eq {outer : StmtId} (runs' : flow.body.RunsIn root outer) :
    flow'.contains outer stmt = flow.contains outer stmt := by
  obtain ⟨-, numbering, -⟩ := ofBody_eq_ok shared.accepted.analysed
  obtain ⟨-, numbering', -⟩ := ofBody_eq_ok shared.accepted'.analysed
  rw [contains, contains, numbering, numbering']
  exact shared.bodies.contains_eq runs runs'

/-- The jumps of the method have the same routes. -/
theorem routes_eq : flow'.routes[stmt.index]? = flow.routes[stmt.index]? := by
  obtain ⟨-, -, -, -, routes⟩ := ofBody_eq_ok shared.accepted.analysed
  obtain ⟨-, -, -, -, routes'⟩ := ofBody_eq_ok shared.accepted'.analysed
  obtain ⟨route, entry, passes⟩ := routes stmt runs.1
  obtain ⟨route', entry', passes'⟩ := routes' stmt (shared.bodies.runsIn runs).1
  rw [shared.bodies.route?_eq_ok runs passes] at passes'
  rw [entry, entry', Except.ok.inj passes']

/-- The jumps of the method have the same targets. -/
theorem target?_eq : flow'.target? stmt = flow.target? stmt := by
  rw [target?, target?, shared.routes_eq runs]

omit runs in
/-- The jumps of the method are jumps of both flows. -/
theorem mem_jumps {route : Route} (mem : route ∈ flow.jumps)
    (runs : flow.body.RunsIn root route.source) : route ∈ flow'.jumps := by
  obtain ⟨form, found, routed⟩ := shared.accepted.mem_jumps.mp mem
  have entry := (shared.routes_eq runs).trans routed.entry
  obtain ⟨form', found', routed'⟩ := shared.accepted'.routed_of_entry entry
  exact shared.accepted'.mem_jumps.mpr ⟨form', found', routed'⟩

omit runs in
/-- An edge of a shape that arrives in the method is an edge of a statement of the method, and
starts in the method. -/
theorem runsIn_of_edge {shape : Statement} {edge : FlowEdge}
    (found : flow.body.get? stmt = some shape) (mem : edge ∈ shape.edges stmt)
    (runs : flow.body.RunsIn root edge.target.scope) :
    flow.body.RunsIn root stmt ∧ flow.body.RunsIn root edge.source.scope := by
  have tree := shared.accepted.wellFormed.toIsTree
  cases plain : shape.isLambda with
  | true =>
    cases shape with
    | lambda inner =>
      cases Statement.edges_lambda mem
      exact ⟨runs, runs⟩
    | _ => cases plain
  | false =>
    obtain ⟨source, target⟩ := Statement.edges_between mem
    have own : flow.body.RunsIn root stmt := by
      rcases target with ⟨target, -⟩ | target | ⟨child, listed, target⟩ <;> rw [target] at runs
      · exact runs
      · exact runs
      · exact tree.runsIn_parent found plain listed runs
    refine ⟨own, ?_⟩
    rcases source with source | ⟨child, listed, source⟩ <;> rw [source]
    · exact own
    · exact tree.runsIn_child own found plain listed

omit runs in
/-- What the jumps of the method require is in the method. -/
theorem runsIn_of_requires {route : Route} (mem : route ∈ flow.jumps)
    (runs : flow.body.RunsIn root route.source)
    (runs' : flow.body.RunsIn root route.target.scope) :
    ∀ handler ∈ route.requires, flow.body.RunsIn root handler := by
  have tree := shared.accepted.wellFormed.toIsTree
  obtain ⟨-, numbering, -⟩ := ofBody_eq_ok shared.accepted.analysed
  obtain ⟨form, found, routed⟩ := shared.accepted.mem_jumps.mp mem
  obtain ⟨-, -, requires⟩ := shared.accepted.checked_spec found routed
  rw [requires, numbering]
  intro handler listed
  obtain ⟨part, left, last⟩ := List.mem_filterMap.mp listed
  obtain ⟨stmt, parts, found, among, runsLast, -⟩ := shared.accepted.finallyOf?_spec last
  have own := tree.runsIn_parent found rfl (List.mem_append_left _ among)
    ((shared.bodies.apart_eq runs runs').2 part left)
  exact tree.runsIn_child own found rfl
    (Body.children_of_get? found ▸ Body.mem_children_of_finallyBody? found runsLast)

omit runs in
/-- What is live in the method is live in both flows. -/
theorem live_of_live {node : FlowNode} (live : flow.Live node)
    (runs : flow.body.RunsIn root node.scope) : flow'.Live node := by
  have tree := shared.accepted.wellFormed.toIsTree
  induction live with
  | @entry other mem =>
    have same : other = root := (tree.methodOf_of_mem_methods mem).symm.trans runs.2
    rw [same]
    exact .entry shared.member'
  | @plain edge mem _ ih =>
    rcases of_mem_plainEdges mem with ⟨stmt, shape, found, mem⟩ | ⟨other, isRoot, rfl⟩
    · obtain ⟨own, start⟩ := shared.runsIn_of_edge found mem runs
      exact (ih start).edge ((shared.bodies.get?_eq own).trans found) mem
    · have same : other = root := (tree.methodOf_of_mem_methods isRoot).symm.trans runs.2
      subst same
      exact (ih runs).exit shared.member'
  | @guarded edge mem _ _ ih ihRequires =>
    rcases of_mem_guardedEdges mem with
      ⟨stmt, parts, found, part, listed, rfl⟩ | ⟨route, listed, rfl⟩
    · have child {part : StmtId} (mem : part ∈ (Statement.tryBlock parts).children) :
          flow.body.RunsIn root part := tree.runsIn_child runs found rfl mem
      refine .completion ((shared.bodies.get?_eq runs).trans found) listed
        (ih (child (List.mem_append_left _ listed))) fun handler last ↦ ?_
      exact ihRequires (.ending handler) (by simp [last])
        (child (Body.children_of_get? found ▸ Body.mem_children_of_finallyBody? found last))
    · obtain ⟨form, found, routed⟩ := shared.accepted.mem_jumps.mp listed
      obtain ⟨has, same⟩ := (shared.accepted.resolved_of_routed found routed).scope_spec tree
        (Body.has_iff_get?.mpr ⟨_, found⟩)
      have runs' : flow.body.RunsIn root route.target.scope := by
        rwa [← JumpTarget.scope_arrival]
      have start : flow.body.RunsIn root route.source :=
        ⟨Body.has_iff_get?.mpr ⟨_, found⟩, same.symm.trans runs'.2⟩
      refine .jump (shared.mem_jumps listed start) (ih start) fun handler last ↦ ?_
      exact ihRequires (.ending handler) (List.mem_map_of_mem last)
        (shared.runsIn_of_requires listed start runs' handler last)

omit runs in
/-- The same nodes of the method are live in both flows. -/
theorem live_iff {node : FlowNode} (runs : flow.body.RunsIn root node.scope) :
    flow'.Live node ↔ flow.Live node :=
  ⟨fun live ↦ shared.symm.live_of_live live (shared.bodies.runsIn runs),
    fun live ↦ shared.live_of_live live runs⟩

/-- The statements of the method that can start are the same. -/
theorem isReachable_eq : flow'.isReachable stmt = flow.isReachable stmt := by
  rw [Bool.eq_iff_iff, shared.accepted.isReachable_iff runs.1,
    shared.accepted'.isReachable_iff (shared.bodies.runsIn runs).1]
  exact shared.live_iff runs

/-- The statements of the method that can complete are the same. -/
theorem completes_eq : flow'.completes stmt = flow.completes stmt := by
  rw [Bool.eq_iff_iff, shared.accepted.completes_iff runs.1,
    shared.accepted'.completes_iff (shared.bodies.runsIn runs).1]
  exact shared.live_iff runs

/-- A jump of the method goes to a statement of the method. -/
theorem runsIn_of_target {target : JumpTarget} (resolved : flow.target? stmt = some target) :
    flow.body.RunsIn root target.scope := by
  obtain ⟨form, route, found, routed, rfl⟩ := shared.accepted.target?_eq_some.mp resolved
  obtain ⟨has, same⟩ := (shared.accepted.resolved_of_routed found routed).scope_spec
    shared.accepted.wellFormed.toIsTree runs.1
  exact ⟨has, same.trans runs.2⟩

/-- The targets of the jumps of the method can be reached in both flows or in none. -/
theorem targetReachable_eq : flow'.targetReachable stmt = flow.targetReachable stmt := by
  rw [targetReachable, targetReachable, shared.target?_eq runs]
  cases resolved : flow.target? stmt with
  | none => rfl
  | some target =>
    have runs' := shared.runsIn_of_target runs resolved
    obtain ⟨form, route, found, routed, rfl⟩ := shared.accepted.target?_eq_some.mp resolved
    have listed : route ∈ flow.jumps := shared.accepted.mem_jumps.mpr
      ⟨form, routed.source ▸ found, routed.source ▸ routed⟩
    have listed' := shared.mem_jumps listed (routed.source ▸ runs)
    rw [Option.any_some, Option.any_some, Bool.eq_iff_iff,
      shared.accepted.contains_iff_live (shared.accepted.hasNode_arrival listed),
      shared.accepted'.contains_iff_live (shared.accepted'.hasNode_arrival listed')]
    exact shared.live_iff (JumpTarget.scope_arrival _ ▸ runs')

/-- A target in the method is outside a scope of the method in both flows or in none. -/
theorem crosses_eq {target : JumpTarget} (runs' : flow.body.RunsIn root target.scope) :
    flow'.crosses stmt target = flow.crosses stmt target := by
  rw [crosses, crosses, shared.contains_eq runs' runs]

/-- The edges of jumps that leave a scope of the method are the same. -/
theorem leaveEdge?_eq {boundary : StmtId} (runs' : flow.body.RunsIn root boundary) :
    flow'.leaveEdge? boundary stmt = flow.leaveEdge? boundary stmt := by
  rw [leaveEdge?, leaveEdge?, shared.isReachable_eq runs, shared.target?_eq runs,
    shared.targetReachable_eq runs]
  cases resolved : flow.target? stmt with
  | none => rfl
  | some target =>
    simp only [shared.crosses_eq runs' (shared.runsIn_of_target runs resolved)]

/-- The edges of rethrows are the same. -/
theorem rethrowEdge?_eq (owner : Option StmtId) :
    flow'.rethrowEdge? owner stmt = flow.rethrowEdge? owner stmt := by
  rw [rethrowEdge?, rethrowEdge?, shared.isReachable_eq runs, shared.bodies.rethrowOwner?_eq runs]

omit runs in
/-- The exits of scopes of the method are the same, and so is what is reported of them. -/
theorem exits_eq {query : ExitQuery}
    (sources : ∀ source ∈ query.sources, flow.body.RunsIn root source)
    (boundary : flow.body.RunsIn root query.boundary)
    (continuation : flow.body.RunsIn root query.continuation) :
    flow'.exits query = flow.exits query ∧ flow'.exitEvents query = flow.exitEvents query := by
  have tree := shared.accepted.wellFormed.toIsTree
  have searched : flow'.searched query = flow.searched query :=
    List.flatMap_congr fun source mem ↦ shared.bodies.inMethod_eq (sources source mem)
  have within : ∀ stmt ∈ flow.searched query, flow.body.RunsIn root stmt := by
    intro stmt listed
    obtain ⟨source, mem, listed⟩ := List.mem_flatMap.mp listed
    exact tree.runsIn_of_mem_inMethod (sources source mem) listed
  have fallThrough : flow'.fallThrough? query = flow.fallThrough? query := by
    have completes : query.sources.any flow'.completes = query.sources.any flow.completes := by
      rw [Bool.eq_iff_iff, List.any_eq_true, List.any_eq_true]
      exact exists_congr fun source ↦ and_congr_right fun mem ↦ by
        rw [shared.completes_eq (sources source mem)]
    rw [fallThrough?, fallThrough?, shared.completes_eq continuation, completes]
  constructor
  · rw [exits, exits, searched, fallThrough]
    congr 1
    refine List.filterMap_congr fun stmt listed ↦ ?_
    have runs := within stmt listed
    rw [exitAt?, exitAt?, shared.bodies.get?_eq runs, shared.leaveEdge?_eq runs boundary,
      shared.rethrowEdge?_eq runs]
  · rw [exitEvents, exitEvents, searched]
    refine List.filterMap_congr fun stmt listed ↦ ?_
    have runs := within stmt listed
    rw [exitEvent?, exitEvent?, shared.bodies.get?_eq runs, shared.leaveEdge?_eq runs boundary,
      shared.isReachable_eq runs]

end Shared
end Flow
end ProtectedRegions
