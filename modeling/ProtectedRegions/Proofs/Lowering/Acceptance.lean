import ProtectedRegions.Lowering.Build
import ProtectedRegions.Proofs.Body.Drafts
import ProtectedRegions.Proofs.Lowering.CatchLocals
import ProtectedRegions.Proofs.Lowering.Constructing

/-!
# Acceptance

A body that the flow analysis accepts, and whose reads of catch locals are in scope, is built.
Nothing behind these two checks can fail: each jump has its target and each synthetic statement its
decision, each label is placed once, and each tree is valid.
-/

namespace ProtectedRegions
namespace Flow

variable {flow : Flow}

/-- The lambdas of an accepted body are built one by one. -/
theorem Accepted.mapM_buildMethod (accepted : flow.Accepted) (config : Config) :
    flow.body.lambdaBodies.mapM (flow.buildMethod config) =
      .ok (flow.body.lambdaBodies.map (flow.methodTree config)) := by
  rw [Outcome.mapM_eq_ok, List.forall₂_map_right_iff]
  refine List.forall₂_same.mpr fun root mem ↦ ?_
  exact accepted.buildMethod_eq config (List.mem_cons_of_mem _ mem)

end Flow

namespace Config

variable {draft : Draft} {body : Body}

/-- The two checks in front of a build. -/
theorem checks_iff (made : draft.toBody = .ok body) {flow : Flow}
    (analysed : Flow.ofBody body = .ok flow) :
    flow.Accepted ∧ (flow.checkCatchLocals = .ok () ↔ body.ReadsInScope) ∧ flow.body = body := by
  obtain ⟨same, accepted⟩ := Flow.accepted_of_ofBody (Draft.wellFormed_of_toBody made) analysed
  refine ⟨accepted, ?_, same⟩
  rw [accepted.checkCatchLocals_eq_ok, same]

/-- What cannot fail behind the two checks is made of the flow exactly if they succeed. -/
private theorem checked_eq_ok {α : Type} (made : draft.toBody = .ok body)
    {next : Flow → Except Error α} {result : Flow → α}
    (total : ∀ flow : Flow, flow.Accepted → flow.body = body → next flow = .ok (result flow))
    {value : α} :
    (do
      let flow ← Flow.ofBody body
      flow.checkCatchLocals
      next flow) = .ok value ↔
      ∃ flow, Flow.ofBody body = .ok flow ∧ body.ReadsInScope ∧ value = result flow := by
  rw [Outcome.bind_eq_ok]
  refine exists_congr fun flow ↦ and_congr_right fun analysed ↦ ?_
  obtain ⟨accepted, reads, same⟩ := checks_iff made analysed
  rw [Outcome.bind_eq_ok, total flow accepted same, ← reads]
  constructor
  · rintro ⟨⟨⟩, checked, built⟩
    cases built
    exact ⟨checked, rfl⟩
  · rintro ⟨checked, rfl⟩
    exact ⟨(), checked, rfl⟩

/-- A body with an accepted flow and its reads in scope is built as the tree of its outer method. -/
theorem build_eq_ok (made : draft.toBody = .ok body) {config : Config} {tree : RegionTree} :
    config.build body = .ok tree ↔ ∃ flow, Flow.ofBody body = .ok flow ∧ body.ReadsInScope ∧
      tree = flow.methodTree config body.root := by
  refine checked_eq_ok made fun flow accepted same ↦ ?_
  subst same
  exact accepted.buildMethod_eq config List.mem_cons_self

/-- The lambdas of such a body are built as the trees of their methods. -/
theorem buildLambdas_eq_ok (made : draft.toBody = .ok body) {config : Config}
    {trees : List RegionTree} :
    config.buildLambdas body = .ok trees ↔ ∃ flow, Flow.ofBody body = .ok flow ∧
      body.ReadsInScope ∧ trees = body.lambdaBodies.map (flow.methodTree config) := by
  refine checked_eq_ok made fun flow accepted same ↦ ?_
  subst same
  exact accepted.mapM_buildMethod config

/-- A body is built if its flow is accepted and its reads of catch locals are in scope. -/
theorem build_iff (made : draft.toBody = .ok body) (config : Config) :
    (∃ tree, config.build body = .ok tree) ↔
      (∃ flow, Flow.ofBody body = .ok flow) ∧ body.ReadsInScope := by
  simp only [build_eq_ok made]
  constructor
  · rintro ⟨-, flow, analysed, inScope, -⟩
    exact ⟨⟨flow, analysed⟩, inScope⟩
  · rintro ⟨⟨flow, analysed⟩, inScope⟩
    exact ⟨_, flow, analysed, inScope, rfl⟩

/-- The lambdas of a body are built if the body is, with a tree for each of them. -/
theorem buildLambdas_iff (made : draft.toBody = .ok body) (config : Config) :
    ((∃ trees, config.buildLambdas body = .ok trees) ↔
        (∃ flow, Flow.ofBody body = .ok flow) ∧ body.ReadsInScope) ∧
      ∀ trees, config.buildLambdas body = .ok trees → trees.map (·.method) = body.lambdaBodies := by
  simp only [buildLambdas_eq_ok made]
  refine ⟨⟨?_, ?_⟩, ?_⟩
  · rintro ⟨-, flow, analysed, inScope, -⟩
    exact ⟨⟨flow, analysed⟩, inScope⟩
  · rintro ⟨⟨flow, analysed⟩, inScope⟩
    exact ⟨_, flow, analysed, inScope, rfl⟩
  · rintro trees ⟨flow, -, -, rfl⟩
    rw [List.map_map]
    exact List.map_id _

/-- A body is built exactly if its flow is accepted and its reads of catch locals are in scope,
and then so are its lambdas, one tree for each in the order of the statements that create them.
For no method of an accepted flow can anything fail behind these checks, from what is decided about
its cleanups to the validation of its tree. -/
theorem build_accepts_iff (made : draft.toBody = .ok body) (config : Config) :
    ((∃ tree, config.build body = .ok tree) ↔
        (∃ flow, Flow.ofBody body = .ok flow) ∧ body.ReadsInScope) ∧
      ((∃ trees, config.buildLambdas body = .ok trees) ↔
        (∃ flow, Flow.ofBody body = .ok flow) ∧ body.ReadsInScope) ∧
      (∀ trees, config.buildLambdas body = .ok trees →
        trees.map (·.method) = body.lambdaBodies) ∧
      ∀ flow, Flow.ofBody body = .ok flow → ∀ root ∈ body.methods,
        ∃ decisions done instructions, flow.Completed config root decisions done instructions := by
  obtain ⟨lambdas, methods⟩ := buildLambdas_iff made config
  refine ⟨build_iff made config, lambdas, methods, fun flow analysed root member ↦ ?_⟩
  obtain ⟨accepted, -, rfl⟩ := checks_iff made analysed
  exact accepted.exists_completed config member

end Config

/-- A `try` whose catch clause reads its local in the filter and in the body, a lambda, and a
desugared statement. -/
def Draft.filtered : Draft where
  statements := #[.expression [⟨0⟩], .throwException,
    .tryCatch ⟨1⟩ [⟨none, some [⟨0⟩], some ⟨0⟩, ⟨0⟩⟩], .jump .returnOut, .lambda ⟨3⟩,
    .expression [], .synthetic .lock ⟨5⟩, .block [⟨2⟩, ⟨4⟩, ⟨6⟩]]
  labelCount := 0
  localCount := 1
  root := ⟨7⟩

theorem Config.build_accepts_filtered :
    ∃ body, Draft.filtered.toBody = .ok body ∧ ∃ tree, Config.default.build body = .ok tree := by
  refine ⟨_, rfl, (@Config.build_accepts_iff Draft.filtered _ rfl .default).1.mpr ⟨⟨_, rfl⟩, ?_⟩⟩
  exact (@checks_iff Draft.filtered _ rfl _ rfl).2.1.mp rfl

end ProtectedRegions
