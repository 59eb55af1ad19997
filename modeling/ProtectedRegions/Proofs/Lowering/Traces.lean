import ProtectedRegions.Proofs.Lowering.Performing

/-!
# Traces do not show which cleanups are protected

A method shows what control shows on its course, and nothing else. The course depends on the
configuration only by way of the parts that live jumps leave, and those are protected under every
configuration but for pinned memory.
-/

namespace ProtectedRegions

namespace Flow

variable {flow : Flow} {config config' : Config} {root : StmtId}

/-- What a live jump leaves is protected, unless it is pinned memory. -/
theorem Accepted.protected_of_left (accepted : flow.Accepted) (config : Config)
    {stmt part owner : StmtId} {target : JumpTarget} (resolved : flow.target? stmt = some target)
    (live : flow.Live (.entry stmt)) {kind : SyntheticKind}
    (found : flow.body.get? owner = some (.synthetic kind part)) (plain : kind ≠ .fixed)
    (inside : flow.body.Inside part stmt) (outside : ¬ flow.body.Inside part target.scope) :
    (flow.decideCleanup config kind owner part).isProtected = true := by
  have tree := accepted.wellFormed.toIsTree
  obtain ⟨form, jump, -⟩ := accepted.resolved_of_target resolved
  have has := Body.has_iff_get?.mpr ⟨_, jump⟩
  have same := accepted.methodOf_of_left resolved inside outside
  have role : (flow.body.role? part).any (·.isProtected) = true := by
    rw [tree.role?_syntheticBody found]
    rfl
  have searched : stmt ∈ flow.searched (.ofScope part owner) := by
    refine List.mem_flatMap.mpr ⟨part, List.mem_singleton_self _, ?_⟩
    rw [tree.mem_inMethod (Body.has_of_inside inside has) has]
    refine ⟨inside, same.symm, ?_⟩
    rw [Body.isLambda, jump]
    rfl
  have crosses := (accepted.crosses_iff_of_protected resolved role same.symm).mpr outside
  obtain ⟨edge, mem, leaves, -⟩ := (exists_leave_iff jump
    ((accepted.isReachable_iff has).mpr live) resolved).mpr ⟨searched, crosses⟩
  have counted : 0 < (flow.exits (.ofScope part owner)).leaves.countP
      (config.needsCleanup kind) := by
    refine List.countP_pos_iff.mpr ⟨edge, List.mem_filter.mpr ⟨mem, ?_⟩, ?_⟩
    · rw [leaves]
      rfl
    · simp [Config.needsCleanup, plain]
  simp [decideCleanup, counted]

/-- Live jumps cross the same owners if the configurations agree on pinned memory. -/
theorem Accepted.agrees (accepted : flow.Accepted)
    (policy : config.policy .fixed = config'.policy .fixed)
    (returns : config.cleanupOnFixedReturn = config'.cleanupOnFixedReturn) :
    flow.Agrees config config' := by
  intro stmt target resolved live
  have tree := accepted.wellFormed.toIsTree
  obtain ⟨form, jump, spec⟩ := accepted.resolved_of_target resolved
  have has := Body.has_iff_get?.mpr ⟨_, jump⟩
  refine List.filterMap_congr fun part mem ↦ ?_
  obtain ⟨inside, outside⟩ := (accepted.mem_apart has (spec.scope_spec tree has).1).mp mem
  unfold guardian?
  split
  · next kind owner role outer =>
    have found := tree.get?_of_syntheticBody role outer
    by_cases fixed : kind = .fixed
    · subst fixed
      have same : (flow.decideCleanup config .fixed owner part).isProtected =
          (flow.decideCleanup config' .fixed owner part).isProtected := by
        have needs : config.needsCleanup .fixed = config'.needsCleanup .fixed := by
          funext edge
          rw [Config.needsCleanup, Config.needsCleanup, returns]
        rw [decideCleanup, decideCleanup, policy, needs]
      rw [same]
    · rw [accepted.protected_of_left config resolved live found fixed inside outside,
        accepted.protected_of_left config' resolved live found fixed inside outside]
  all_goals rfl

/-- The acts are all that control does next on its course. -/
def ActsOf (flow : Flow) (config : Config) (course : Course)
    (acts : List (Option (Instruction Nat) × Course)) : Prop :=
  ∀ seen next, flow.CourseMoves config course seen next ↔ (seen, next) ∈ acts

/-- A run of the method responds to what control does next on its course. -/
def Tracks (flow : Flow) (config config' : Config) (root : StmtId) (progress : Progress)
    (course : Course) : Prop :=
  ∃ acts, flow.Responds config root progress acts ∧ flow.ActsOf config' course acts

/-- Each move that answers acts shows what one of them does. -/
theorem Answers.exists_act {moves : List (Option (Instruction Nat) × Progress)}
    {acts : List (Option (Instruction Nat) × Course)} (answers : flow.Answers config root moves acts)
    {seen : Option (Instruction Nat)} {progress : Progress} (mem : (seen, progress) ∈ moves) :
    ∃ course, (seen, course) ∈ acts ∧ flow.Comes config root progress course := by
  induction answers with
  | nil => cases mem
  | @cons move act _ _ fits _ ih =>
    rcases List.mem_cons.mp mem with rfl | mem
    · exact ⟨act.2, List.mem_cons.mpr (.inl (Prod.ext fits.1 rfl)), fits.2⟩
    · obtain ⟨course, listed, comes⟩ := ih mem
      exact ⟨course, List.mem_cons_of_mem _ listed, comes⟩

/-- What each act does is shown by one of the moves that answer them. -/
theorem Answers.exists_move {moves : List (Option (Instruction Nat) × Progress)}
    {acts : List (Option (Instruction Nat) × Course)} (answers : flow.Answers config root moves acts)
    {seen : Option (Instruction Nat)} {course : Course} (mem : (seen, course) ∈ acts) :
    ∃ progress, (seen, progress) ∈ moves ∧ flow.Comes config root progress course := by
  induction answers with
  | nil => cases mem
  | @cons move act _ _ fits _ ih =>
    rcases List.mem_cons.mp mem with rfl | mem
    · exact ⟨move.2, List.mem_cons.mpr (.inl (Prod.ext fits.1.symm rfl)), fits.2⟩
    · obtain ⟨progress, listed, comes⟩ := ih mem
      exact ⟨progress, List.mem_cons_of_mem _ listed, comes⟩

/-- A run that drifts shows nothing. -/
theorem Drifts.run {first second : Progress} (drifts : flow.Drifts config root first second) :
    Run ((flow.methodTree config root).Moves (flow.tests config root)) first [] second := by
  induction drifts using Relation.ReflTransGen.head_induction_on with
  | refl => exact .refl
  | @head first second forced _ run =>
    have move : (flow.methodTree config root).Moves (flow.tests config root) first none second := by
      rw [RegionTree.Moves, forced]
      exact List.mem_singleton_self _
    exact .head move run

namespace Accepted

variable (accepted : flow.Accepted) (member : root ∈ flow.body.methods)
  (agrees : flow.Agrees config config')

include accepted member agrees

/-- A run that comes to where control is tracks the course of control. -/
theorem tracks {progress : Progress} {course : Course}
    (comes : flow.Comes config root progress course) :
    flow.Tracks config config' root progress course := by
  obtain ⟨progress', drifts, shows'⟩ := comes
  suffices tracks : flow.Tracks config config' root progress' course by
    obtain ⟨acts, ⟨last, drifts', answers⟩, all⟩ := tracks
    exact ⟨acts, ⟨last, drifts.trans drifts', answers⟩, all⟩
  cases shows' with
  | arrives arrived =>
    obtain ⟨last, abuts, final, live, responds⟩ := accepted.responds_arrived member arrived
    rw [agrees.performs _ live] at responds
    refine ⟨_, responds, fun seen next ↦ ⟨fun moves ↦ ?_, fun mem ↦ .acts abuts final mem⟩⟩
    cases moves with
    | acts abuts' final' mem =>
      rw [abuts.final_unique final abuts' final'] at mem
      exact mem
  | cleans stands ends promises leads waits =>
    refine ⟨_, ⟨_, .refl, (Shows.cleans stands ends promises leads waits).answers_cleans accepted⟩,
      fun seen next ↦ ⟨fun moves ↦ ?_, fun mem ↦ ?_⟩⟩
    · cases moves
      exact List.mem_singleton_self _
    · cases List.mem_singleton.mp mem
      exact .cleans
  | stopped =>
    refine ⟨[], ⟨_, .refl, .nil⟩, fun seen next ↦ ⟨fun moves ↦ ?_, nofun⟩⟩
    cases moves

/-- Each move of a run that tracks control is one of control, or drifts. -/
theorem course_of_move {progress next : Progress} {course : Course}
    {seen : Option (Instruction Nat)} (tracks : flow.Tracks config config' root progress course)
    (move : (flow.methodTree config root).Moves (flow.tests config root) progress seen next) :
    ∃ course', Run (flow.CourseMoves config') course seen.toList course' ∧
      flow.Tracks config config' root next course' := by
  obtain ⟨acts, ⟨last, drifts, answers⟩, all⟩ := tracks
  rcases drifts.cases_head with rfl | ⟨middle, forced, drifts⟩
  · obtain ⟨course', listed, comes⟩ := answers.exists_act move
    exact ⟨course', .single ((all seen course').mpr listed), accepted.tracks member agrees comes⟩
  · rw [RegionTree.Moves, forced] at move
    cases List.mem_singleton.mp move
    exact ⟨course, .refl, acts, ⟨last, drifts, answers⟩, all⟩

/-- Each move of control is shown by a run that tracks it. -/
theorem move_of_course {progress : Progress} {course next : Course}
    {seen : Option (Instruction Nat)} (tracks : flow.Tracks config config' root progress course)
    (move : flow.CourseMoves config' course seen next) :
    ∃ progress', Run ((flow.methodTree config root).Moves (flow.tests config root)) progress
        seen.toList progress' ∧
      flow.Tracks config config' root progress' next := by
  obtain ⟨acts, ⟨last, drifts, answers⟩, all⟩ := tracks
  obtain ⟨progress', listed, comes⟩ := answers.exists_move ((all seen next).mp move)
  exact ⟨progress', drifts.run.append (.single listed), accepted.tracks member agrees comes⟩

/-- What is seen of a method is what control shows on its course. -/
theorem traces_iff {trace : List (Instruction Nat)} :
    (flow.methodTree config root).Traces (flow.tests config root) trace ↔
      ∃ course, Run (flow.CourseMoves config') (.arrives (.entry root) []) trace course := by
  have tree := accepted.wellFormed.toIsTree
  obtain ⟨shape, found⟩ := Body.has_iff_get?.mp (tree.has_of_mem_methods member)
  have stands : flow.Stands config root (.node (.entry root)) 0 :=
    (@Laid.root flow config root (flow.methodPlace config root)).stands_entry tree rfl found
  have starts : flow.Comes config root (.running 0 []) (.arrives (.entry root) []) :=
    (Shows.arrives ⟨.entry member, rfl, stands, .nil⟩).comes
  have tracks := accepted.tracks member agrees starts
  constructor
  · rintro ⟨progress, run⟩
    obtain ⟨course, run', -⟩ := run.simulate (flow.Tracks config config' root)
      (accepted.course_of_move member agrees) tracks
    exact ⟨course, run'⟩
  · rintro ⟨course, run⟩
    obtain ⟨progress, run', -⟩ := run.simulate (flip (flow.Tracks config config' root))
      (accepted.move_of_course member agrees) tracks
    exact ⟨progress, run'⟩

end Accepted
end Flow

/-- Which cleanups are in a `finally` does not show in a run in which nothing throws. Under two
configurations that agree on pinned memory the same methods are built, and what can be seen of
each of them is the same. -/
theorem Config.traces_eq {draft : Draft} {body : Body} (made : draft.toBody = .ok body)
    {flow : Flow} (analysed : Flow.ofBody body = .ok flow) {config config' : Config}
    (policy : config.policy .fixed = config'.policy .fixed)
    (returns : config.cleanupOnFixedReturn = config'.cleanupOnFixedReturn) {tree : RegionTree}
    (builds : config.Builds body tree) :
    (∃ tree', config'.Builds body tree' ∧ tree'.method = tree.method) ∧
      ∀ tree', config'.Builds body tree' → tree'.method = tree.method → ∀ trace,
        tree.Traces (flow.tests config tree.method) trace ↔
          tree'.Traces (flow.tests config' tree.method) trace := by
  obtain ⟨checked, root, member, rfl⟩ := (builds_iff made analysed).mp builds
  obtain ⟨accepted, -, rfl⟩ := checks_iff made analysed
  refine ⟨⟨flow.methodTree config' root,
    (builds_iff made analysed).mpr ⟨checked, root, member, rfl⟩, rfl⟩, ?_⟩
  intro tree' builds' same trace
  obtain ⟨-, root', member', rfl⟩ := (builds_iff made analysed).mp builds'
  obtain rfl : root' = root := same
  exact (accepted.traces_iff member fun _ _ ↦ rfl).trans
    (accepted.traces_iff member' (accepted.agrees policy.symm returns.symm)).symm

/-- An expression inside a lock. -/
def Draft.locked : Draft where
  statements := #[.expression [], .synthetic .lock ⟨0⟩]
  labelCount := 0
  localCount := 0
  root := ⟨1⟩

/-- Without a protected block the cleanup follows the expression. With one a leave runs it. -/
theorem Config.traces_eq_locked :
    ∃ body flow tree tree', Draft.locked.toBody = .ok body ∧ Flow.ofBody body = .ok flow ∧
      Config.default.build body = .ok tree ∧ Config.strict.build body = .ok tree' ∧
      tree.instructions = [.code ⟨0⟩, .cleanup ⟨1⟩ .lock, .ret] ∧
      tree'.instructions =
        [.code ⟨0⟩, .leave 4, .cleanup ⟨1⟩ .lock, .endFinally, .ret] ∧
      ∀ trace, tree.Traces (flow.tests .default tree.method) trace ↔
        tree'.Traces (flow.tests .strict tree.method) trace := by
  have plain : Config.default.tests .locked (fun _ tree ↦ decide
      (tree.method = ⟨1⟩ ∧ tree.instructions = [.code ⟨0⟩, .cleanup ⟨1⟩ .lock, .ret])) = true := by
    decide +kernel
  have guarded : Config.strict.tests .locked (fun _ tree ↦ decide
      (tree.method = ⟨1⟩ ∧ tree.instructions =
        [.code ⟨0⟩, .leave 4, .cleanup ⟨1⟩ .lock, .endFinally, .ret])) = true := by
    decide +kernel
  obtain ⟨body, flow, tree, made, analysed, built, holds⟩ := exists_built plain
  obtain ⟨body', flow', tree', made', analysed', built', holds'⟩ := exists_built guarded
  rw [made] at made'
  cases made'
  obtain ⟨method, instructions⟩ := of_decide_eq_true holds
  obtain ⟨method', instructions'⟩ := of_decide_eq_true holds'
  obtain ⟨-, same⟩ := @traces_eq _ _ made _ analysed .default .strict rfl rfl _ (.outer built)
  exact ⟨body, flow, tree, tree', made, analysed, built, built', instructions, instructions',
    same tree' (.outer built') (method'.trans method.symm)⟩

end ProtectedRegions
