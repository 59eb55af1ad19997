import ProtectedRegions.Proofs.Body.Document
import ProtectedRegions.Proofs.Flow.Exits
import ProtectedRegions.Proofs.Flow.Rules

/-!
# The answer to a query

What a query asks for, said without the walk that answers it: the live jumps that go out of the
boundary and the live rethrows whose innermost catch body is the given one, wherever they are in the
document of a source. The walk leaves out the lambdas of a document, at which nothing is asked for,
and so lists what is asked for, each place once and in document order.
-/

namespace ProtectedRegions
namespace Flow

/-- The edges that a query asks for, wherever their sources are. -/
inductive ExitsAt (flow : Flow) (query : ExitQuery) : ExitEdge → Prop
  | leave {stmt : StmtId} {form : Jump} {target : JumpTarget}
    (shaped : flow.body.get? stmt = some (.jump form)) (live : flow.isReachable stmt = true)
    (goes : flow.body.Goes stmt form target)
    (out : target.isReturn = true ∨ ¬ flow.body.Inside query.boundary target.scope) :
    ExitsAt flow query ⟨stmt, target.exitTarget, .leave, flow.reach.contains target.arrival⟩
  | rethrow {stmt owner : StmtId} {place : Nat} (shaped : flow.body.get? stmt = some .rethrow)
    (live : flow.isReachable stmt = true) (asked : query.rethrowOwner = some owner)
    (catches : flow.body.Plays owner (.catchBody place))
    (innermost : flow.body.Nearest flow.body.EndsRethrow stmt owner) :
    ExitsAt flow query ⟨stmt, .unwind, .rethrow, true⟩

/-- A list of the edges that a query asks for in one of its sources, outside of the lambdas in it.
They stand in document order, one for each place. -/
structure Lists (flow : Flow) (query : ExitQuery) (source : StmtId) (edges : List ExitEdge) :
    Prop where
  mem_iff {edge : ExitEdge} : edge ∈ edges ↔ flow.body.Inside source edge.source ∧
    flow.body.methodOf edge.source = flow.body.methodOf source ∧ flow.ExitsAt query edge
  ordered : (edges.map (·.source)).Sublist (flow.body.statements.preorder source)
  nodup : (edges.map (·.source)).Nodup

variable {flow : Flow} {query : ExitQuery} {stmt : StmtId} {edge : ExitEdge}

/-- The edge of a rethrow that a query counts. -/
theorem rethrowEdge?_eq_some {owner : Option StmtId} :
    flow.rethrowEdge? owner stmt = some edge ↔ flow.isReachable stmt = true ∧
      (∃ handler, owner = some handler ∧ flow.body.rethrowOwner? stmt = some handler) ∧
        edge = ⟨stmt, .unwind, .rethrow, true⟩ := by
  rw [rethrowEdge?, Option.ite_none_right_eq_some, Option.some_inj, @eq_comm _ _ edge]
  cases owner with
  | none => simp
  | some handler => simp [and_assoc]

/-- Nothing is asked for at a lambda. -/
theorem ExitsAt.plain (exits : flow.ExitsAt query edge) :
    flow.body.isLambda edge.source = false := by
  cases exits with
  | leave shaped | rethrow shaped =>
    rw [Body.isLambda, shaped]
    rfl

namespace Accepted

variable (accepted : flow.Accepted)

include accepted

/-- The search finds at a statement what the query asks for there. -/
theorem exitAt?_eq_some :
    flow.exitAt? query stmt = some edge ↔ flow.ExitsAt query edge ∧ edge.source = stmt := by
  have tree := accepted.wellFormed.toIsTree
  constructor
  · intro found
    rw [exitAt?] at found
    split at found
    · next form shaped =>
      obtain ⟨live, target, resolved, out, rfl⟩ := leaveEdge?_eq_some.mp found
      obtain ⟨form', shaped', goes⟩ := accepted.target?_eq_some_iff_goes.mp resolved
      cases shaped.symm.trans shaped'
      have arrives : flow.targetReachable stmt = flow.reach.contains target.arrival := by
        rw [targetReachable, resolved, Option.any_some]
      exact ⟨arrives ▸ .leave shaped live goes ((accepted.crosses_iff resolved).mp out), rfl⟩
    · next shaped =>
      obtain ⟨live, ⟨owner, asked, owned⟩, rfl⟩ := rethrowEdge?_eq_some.mp found
      obtain ⟨⟨place, catches⟩, innermost⟩ :=
        (tree.rethrowOwner?_eq_some (Body.has_iff_get?.mpr ⟨_, shaped⟩)).mp owned
      exact ⟨.rethrow shaped live asked catches innermost, rfl⟩
    · cases found
  · rintro ⟨exits, rfl⟩
    rw [exitAt?]
    cases exits with
    | leave shaped live goes out =>
      have resolved := accepted.target?_eq_some_iff_goes.mpr ⟨_, shaped, goes⟩
      rw [shaped]
      refine leaveEdge?_eq_some.mpr
        ⟨live, _, resolved, (accepted.crosses_iff resolved).mpr out, ?_⟩
      rw [targetReachable, resolved, Option.any_some]
    | rethrow shaped live asked catches innermost =>
      have owned := (tree.rethrowOwner?_eq_some (Body.has_iff_get?.mpr ⟨_, shaped⟩)).mpr
        ⟨⟨_, catches⟩, innermost⟩
      rw [shaped]
      exact rethrowEdge?_eq_some.mpr ⟨live, ⟨_, asked, owned⟩, rfl⟩

/-- The edges of a search have their sources where the search finds something. -/
theorem map_source_filterMap (query : ExitQuery) (searched : List StmtId) :
    (searched.filterMap (flow.exitAt? query)).map (·.source) =
      searched.filter fun stmt ↦ (flow.exitAt? query stmt).isSome := by
  rw [List.map_filterMap, ← List.filterMap_eq_filter]
  refine List.filterMap_congr fun stmt _ ↦ ?_
  cases found : flow.exitAt? query stmt with
  | none => simp [Option.guard, found]
  | some edge => simp [Option.guard, found, (accepted.exitAt?_eq_some.mp found).2]

/-- The search of one source lists what the query asks for there. -/
theorem lists (query : ExitQuery) {source : StmtId} (has : flow.body.has source = true) :
    flow.Lists query source ((flow.body.inMethod source).filterMap (flow.exitAt? query)) := by
  have tree := accepted.wellFormed.toIsTree
  have listing := tree.inMethod_eq_filter has
  have ordered : (((flow.body.inMethod source).filterMap (flow.exitAt? query)).map
      (·.source)).Sublist (flow.body.statements.preorder source) := by
    rw [accepted.map_source_filterMap, listing, Body.document]
    exact List.filter_sublist.trans (List.filter_sublist.trans List.filter_sublist)
  refine ⟨fun {edge} ↦ ?_, ordered, (tree.nodup_preorder has).sublist ordered⟩
  rw [List.mem_filterMap]
  constructor
  · rintro ⟨stmt, listed, found⟩
    obtain ⟨exits, rfl⟩ := accepted.exitAt?_eq_some.mp found
    rw [listing, List.mem_filter, tree.mem_document has] at listed
    obtain ⟨⟨inside, same⟩, -⟩ := listed
    exact ⟨inside, same, exits⟩
  · rintro ⟨inside, same, exits⟩
    refine ⟨edge.source, ?_, accepted.exitAt?_eq_some.mpr ⟨exits, rfl⟩⟩
    rw [listing, List.mem_filter, tree.mem_document has, exits.plain]
    exact ⟨⟨inside, same⟩, rfl⟩

end Accepted

variable {draft : Draft} {body : Body}

/-- A query is answered by exactly the exits it asks for. If it names an id outside of the body,
then the first such id is refused. Otherwise the answer goes through the sources one by one and
lists, in document order and each once, the leave edges of the live jumps that leave the boundary and
the rethrow edges of the live rethrows that belong to the given catch body; a fall through from the
boundary to the end of the continuation comes last, if some source completes, and that is all. -/
theorem exits_of_query (made : draft.toBody = .ok body) (analysed : Flow.ofBody body = .ok flow)
    (query : ExitQuery) :
    (∀ earlier stmt later, query.sources ++ [query.boundary, query.continuation] ++
          query.rethrowOwner.toList = earlier ++ stmt :: later →
        (∀ other ∈ earlier, body.has other = true) → body.has stmt = false →
          flow.exits? query = .error (.unknownStatement stmt)) ∧
      ((∀ stmt ∈ query.sources ++ [query.boundary, query.continuation] ++
          query.rethrowOwner.toList, body.has stmt = true) →
        ∃ answers, List.Forall₂ (flow.Lists query) query.sources answers ∧
          flow.exits? query = .ok (answers.flatten ++
            if ∃ source ∈ query.sources, flow.completes source = true then
              [⟨query.boundary, .endOf query.continuation, .fallThrough,
                flow.completes query.continuation⟩]
            else [])) := by
  obtain ⟨rfl, accepted⟩ := Flow.accepted_of_ofBody (Draft.wellFormed_of_toBody made) analysed
  have tree := accepted.wellFormed.toIsTree
  constructor
  · intro earlier stmt later named known unknown
    have found : query.named.find? (!flow.body.has ·) = some stmt := by
      rw [ExitQuery.named, named, List.find?_eq_some_iff_append]
      refine ⟨by simp [unknown], earlier, later, rfl, fun other mem ↦ by simp [known other mem]⟩
    rw [exits?_eq tree, found]
  · intro known
    refine ⟨query.sources.map fun source ↦
      (flow.body.inMethod source).filterMap (flow.exitAt? query), ?_, ?_⟩
    · rw [List.forall₂_map_right_iff, List.forall₂_same]
      intro source listed
      exact accepted.lists query (known source (by simp [listed]))
    · rw [exits?_of_named tree known]
      refine congrArg Except.ok ?_
      rw [exits, searched, List.filterMap_flatMap, List.flatMap_def, fallThrough?]
      congr 1
      simp only [List.any_eq_true]
      split <;> rfl

end Flow

/-- A catch body that returns or raises its exception again, behind a lambda that returns too. -/
def Draft.rethrowing : Draft where
  statements := #[.jump .returnOut, .lambda ⟨0⟩, .jump .returnOut, .conditional .unknown ⟨2⟩ none,
    .rethrow, .block [⟨1⟩, ⟨3⟩, ⟨4⟩], .expression [], .tryCatch ⟨6⟩ [⟨none, none, none, ⟨5⟩⟩]]
  labelCount := 0
  localCount := 0
  root := ⟨7⟩

private theorem rethrowing_answer : (Draft.rethrowing.toBody.bind Flow.ofBody).toOption.any
    (fun flow ↦ [⟨6⟩, ⟨5⟩, ⟨7⟩].all flow.body.has && !flow.body.has ⟨8⟩ &&
      flow.exits ⟨[⟨6⟩, ⟨5⟩], ⟨7⟩, ⟨7⟩, some ⟨5⟩⟩ ==
        [⟨⟨2⟩, .methodExit, .leave, true⟩, ⟨⟨4⟩, .unwind, .rethrow, true⟩,
          ⟨⟨7⟩, .endOf ⟨7⟩, .fallThrough, true⟩]) = true := by
  decide +kernel

theorem Flow.exits_of_query_rethrowing :
    ∃ body flow, Draft.rethrowing.toBody = .ok body ∧ Flow.ofBody body = .ok flow ∧
      (∃ answers, List.Forall₂ (flow.Lists ⟨[⟨6⟩, ⟨5⟩], ⟨7⟩, ⟨7⟩, some ⟨5⟩⟩) [⟨6⟩, ⟨5⟩] answers) ∧
      flow.exits? ⟨[⟨6⟩, ⟨5⟩], ⟨7⟩, ⟨7⟩, some ⟨5⟩⟩ =
        .ok [⟨⟨2⟩, .methodExit, .leave, true⟩, ⟨⟨4⟩, .unwind, .rethrow, true⟩,
          ⟨⟨7⟩, .endOf ⟨7⟩, .fallThrough, true⟩] ∧
      flow.exits? ⟨[⟨6⟩, ⟨8⟩], ⟨9⟩, ⟨7⟩, none⟩ = .error (.unknownStatement ⟨8⟩) := by
  obtain ⟨body, flow, made, analysed, holds⟩ := Draft.exists_flow rethrowing_answer
  obtain ⟨rfl, accepted⟩ := Flow.accepted_of_ofBody (Draft.wellFormed_of_toBody made) analysed
  simp only [Bool.and_eq_true, List.all_cons, List.all_nil, Bool.and_true, Bool.not_eq_true',
    beq_iff_eq] at holds
  obtain ⟨⟨⟨has, has', has''⟩, unknown⟩, answer⟩ := holds
  have refused := (Flow.exits_of_query made analysed ⟨[⟨6⟩, ⟨8⟩], ⟨9⟩, ⟨7⟩, none⟩).1
    [⟨6⟩] ⟨8⟩ [⟨9⟩, ⟨7⟩] rfl (by simp [has]) unknown
  obtain ⟨answers, lists, -⟩ := (Flow.exits_of_query made analysed
    ⟨[⟨6⟩, ⟨5⟩], ⟨7⟩, ⟨7⟩, some ⟨5⟩⟩).2 (by simp [has, has', has''])
  refine ⟨flow.body, flow, made, analysed, ⟨answers, lists⟩, ?_, refused⟩
  rw [← answer]
  exact Flow.exits?_of_named accepted.wellFormed.toIsTree
    (by simp [ExitQuery.named, has, has', has''])

end ProtectedRegions
