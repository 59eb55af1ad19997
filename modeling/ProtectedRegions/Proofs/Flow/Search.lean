import ProtectedRegions.Exit.Query
import ProtectedRegions.Proofs.Body.Traversal

/-!
# The search for exits

The walk from a source comes to the statements of its method in document order. So a search that
works off a stack for each source lists the exits at these statements one after the other.
-/

namespace ProtectedRegions

namespace ExitQuery

variable {body : Body} {stmt : StmtId} (has : body.has stmt = true)

include has

/-- A query about a scope names the scope and where it completes. -/
theorem named_ofScope {scope : StmtId} (has' : body.has scope = true) :
    ∀ named ∈ (ofScope scope stmt).named, body.has named = true := by
  simp [named, ofScope, has, has']

/-- A query about a catch body that owns its rethrows names nothing else. -/
theorem named_owning {scope : StmtId} (has' : body.has scope = true) :
    ∀ named ∈ ((ofScope scope stmt).owning scope).named, body.has named = true := by
  simp [named, owning, ofScope, has, has']

/-- A query about several scopes names them and the statement they are parts of. -/
theorem named_ofParts {parts : List StmtId} (inside : ∀ part ∈ parts, body.has part = true) :
    ∀ named ∈ (ofParts parts stmt stmt).named, body.has named = true := by
  intro other mem
  simp only [named, ofParts, List.mem_append, Option.toList_none, List.not_mem_nil, or_false,
    List.mem_cons, or_self] at mem
  rcases mem with mem | rfl
  · exact inside other mem
  · exact has

end ExitQuery

namespace Flow

variable {flow : Flow} {query : ExitQuery}

/-- A step of the search adds the exit at one statement, if there is one. -/
theorem searchAt_eq (stmt : StmtId) (edges : ExitSet) : flow.searchAt query stmt edges =
    ⟨.ok (edges ++ (flow.exitAt? query stmt).toList), (flow.exitEvent? query stmt).toList⟩ := by
  rw [searchAt, exitAt?, exitEvent?]
  cases flow.body.get? stmt with
  | none => simp [pure]
  | some shape =>
    cases shape with
    | jump form =>
      dsimp only
      rw [jumpExit]
      cases live : flow.isReachable stmt with
      | false => simp [leaveEdge?, live, Logged.report, bind, pure]
      | true =>
        cases flow.leaveEdge? query.boundary stmt <;> simp [Logged.report, bind, pure]
    | rethrow => rfl
    | _ => simp [pure]

/-- A lambda is no exit of what is around it. -/
theorem exitAt?_of_isLambda {stmt : StmtId} (isLambda : flow.body.isLambda stmt = true) :
    flow.exitAt? query stmt = none ∧ flow.exitEvent? query stmt = none := by
  rw [exitAt?, exitEvent?]
  obtain ⟨shape, found, isLambda⟩ := (Option.any_eq_true _ _).mp isLambda
  rw [found]
  cases shape with
  | lambda => exact ⟨rfl, rfl⟩
  | _ => cases isLambda

/-- What is found at no lambda is found on a walk with or without them. -/
private theorem filterMap_walk {α : Type} (tree : flow.body.IsTree) {source : StmtId}
    (has : flow.body.has source = true) {pick : StmtId → Option α}
    (none : ∀ stmt, flow.body.isLambda stmt = true → pick stmt = none) :
    (flow.body.preorderInMethod source).filterMap pick =
      (flow.body.inMethod source).filterMap pick := by
  rw [← tree.filter_preorderInMethod has, List.filterMap_filter]
  refine List.filterMap_congr fun stmt _ ↦ ?_
  cases isLambda : flow.body.isLambda stmt with
  | false => rfl
  | true => exact none stmt isLambda

/-- The walk from one source adds the exits at the statements of its method. -/
private theorem search_source (tree : flow.body.IsTree) {source : StmtId}
    (has : flow.body.has source = true) (edges : ExitSet) :
    workOff (flow.searchAt query) flow.body.belowInMethod flow.body.walkSteps [source] edges =
      ⟨.ok (edges ++ (flow.body.inMethod source).filterMap (flow.exitAt? query)),
        (flow.body.inMethod source).filterMap (flow.exitEvent? query)⟩ := by
  rw [tree.workOff_belowInMethod has, Logged.foldlM_eq fun stmt _ edges ↦ searchAt_eq stmt edges,
    ← filterMap_walk tree has fun stmt isLambda ↦ (exitAt?_of_isLambda isLambda).1,
    ← filterMap_walk tree has fun stmt isLambda ↦ (exitAt?_of_isLambda isLambda).2,
    List.filterMap_eq_flatMap_toList, List.filterMap_eq_flatMap_toList, List.foldl_append_eq_append]
  rfl

/-- A search gives the exits that the query asks for, or the first id that names no statement. -/
theorem analyze_eq (tree : flow.body.IsTree) (query : ExitQuery) : flow.analyze query =
    match query.named.find? (!flow.body.has ·) with
    | some stmt => .ofResult (.error (.unknownStatement stmt))
    | none => ⟨.ok (flow.exits query), flow.exitEvents query⟩ := by
  rw [analyze]
  cases found : query.named.find? (!flow.body.has ·) with
  | some stmt => rfl
  | none =>
    have has {source : StmtId} (mem : source ∈ query.sources) : flow.body.has source = true := by
      have named := List.find?_eq_none.mp found source
        (List.mem_append_left _ (List.mem_append_left _ mem))
      simpa using named
    dsimp only
    rw [Logged.foldlM_eq fun source mem edges ↦ search_source tree (has mem) edges, Logged.ok_bind,
      List.foldl_append_eq_append, exits, exitEvents, searched, List.filterMap_flatMap,
      List.filterMap_flatMap]
    simp [pure, List.flatMap_def]

/-- A search that names statements of the body does not fail. -/
theorem analyze_of_named (tree : flow.body.IsTree)
    (named : ∀ stmt ∈ query.named, flow.body.has stmt = true) :
    flow.analyze query = ⟨.ok (flow.exits query), flow.exitEvents query⟩ := by
  have found : query.named.find? (!flow.body.has ·) = none :=
    List.find?_eq_none.mpr fun stmt mem ↦ by simp [named stmt mem]
  rw [analyze_eq tree, found]

/-- A query that names statements of the body has an answer. -/
theorem exits?_of_named (tree : flow.body.IsTree)
    (named : ∀ stmt ∈ query.named, flow.body.has stmt = true) :
    flow.exits? query = .ok (flow.exits query) := by
  rw [exits?, analyze_of_named tree named]

/-- The exits that a query asks for, or the first id that names no statement. -/
theorem exits?_eq (tree : flow.body.IsTree) (query : ExitQuery) : flow.exits? query =
    match query.named.find? (!flow.body.has ·) with
    | some stmt => .error (.unknownStatement stmt)
    | none => .ok (flow.exits query) := by
  rw [exits?, analyze_eq tree]
  cases query.named.find? (!flow.body.has ·) <;> rfl

end Flow
end ProtectedRegions
