import ProtectedRegions.Proofs.Code.Neighbours
import ProtectedRegions.Proofs.Lowering.Acceptance
import ProtectedRegions.Proofs.Lowering.Arrivals
import ProtectedRegions.Proofs.Region.Blocks

/-!
# Trees of methods

What the tree of a method holds, read off the structured code of the method: each instruction is
a token with its labels resolved, and each block is what a guard spans.
-/

namespace ProtectedRegions

/-- The tree of the outer method of a body, or of one of its lambdas. -/
inductive Config.Builds (config : Config) (body : Body) : RegionTree → Prop
  | outer {tree : RegionTree} (built : config.build body = .ok tree) : Builds config body tree
  | lambda {trees : List RegionTree} {tree : RegionTree}
      (built : config.buildLambdas body = .ok trees) (mem : tree ∈ trees) : Builds config body tree

/-- The trees that are built are those of the methods, if the reads of catch locals are in scope. -/
theorem Config.builds_iff {draft : Draft} {body : Body} (made : draft.toBody = .ok body)
    {flow : Flow} (analysed : Flow.ofBody body = .ok flow) {config : Config} {tree : RegionTree} :
    config.Builds body tree ↔ flow.checkCatchLocals = .ok () ∧
      ∃ root ∈ body.methods, tree = flow.methodTree config root := by
  obtain ⟨-, reads, -⟩ := Config.checks_iff made analysed
  constructor
  · rintro (built | ⟨built, mem⟩)
    · obtain ⟨flow', analysed', inScope, rfl⟩ := (Config.build_eq_ok made).mp built
      cases analysed.symm.trans analysed'
      exact ⟨reads.mpr inScope, _, List.mem_cons_self, rfl⟩
    · obtain ⟨flow', analysed', inScope, rfl⟩ := (Config.buildLambdas_eq_ok made).mp built
      cases analysed.symm.trans analysed'
      obtain ⟨root, listed, rfl⟩ := List.mem_map.mp mem
      exact ⟨reads.mpr inScope, root, List.mem_cons_of_mem _ listed, rfl⟩
  · rintro ⟨checked, root, mem, rfl⟩
    have inScope := reads.mp checked
    rcases List.mem_cons.mp mem with rfl | listed
    · exact .outer ((Config.build_eq_ok made).mpr ⟨flow, analysed, inScope, rfl⟩)
    · refine .lambda ((Config.buildLambdas_eq_ok made).mpr ⟨flow, analysed, inScope, rfl⟩) ?_
      exact List.mem_map_of_mem listed

/-- A body of which a tree is built has a flow. -/
theorem Config.Builds.exists_flow {body : Body} {config : Config} {tree : RegionTree}
    (builds : config.Builds body tree) : ∃ flow, Flow.ofBody body = .ok flow := by
  cases builds with
  | outer built | lambda built =>
    obtain ⟨flow, analysed, -⟩ := Outcome.bind_eq_ok.mp built
    exact ⟨flow, analysed⟩

/-- Each tree that is built is the tree of a method. -/
theorem Config.Builds.exists_root {draft : Draft} {body : Body} (made : draft.toBody = .ok body)
    {flow : Flow} (analysed : Flow.ofBody body = .ok flow) {config : Config} {tree : RegionTree}
    (builds : config.Builds body tree) :
    flow.Accepted ∧ flow.body = body ∧
      ∃ root ∈ body.methods, tree = flow.methodTree config root := by
  obtain ⟨accepted, -, same⟩ := Config.checks_iff made analysed
  exact ⟨accepted, same, ((Config.builds_iff made analysed).mp builds).2⟩

/-- Whether a draft is built, and its flow and tree pass a test. -/
def Config.tests (config : Config) (draft : Draft) (holds : Flow → RegionTree → Bool) : Bool :=
  match draft.toBody with
  | .error _ => false
  | .ok body =>
    match Flow.ofBody body, config.build body with
    | .ok flow, .ok tree => holds flow tree
    | _, _ => false

/-- A draft that passes a test has a body with a flow and a tree that do. -/
theorem Config.exists_built {config : Config} {draft : Draft} {holds : Flow → RegionTree → Bool}
    (passes : config.tests draft holds = true) :
    ∃ body flow tree, draft.toBody = .ok body ∧ Flow.ofBody body = .ok flow ∧
      config.build body = .ok tree ∧ holds flow tree = true := by
  rw [Config.tests] at passes
  split at passes
  · cases passes
  · next body made =>
    split at passes
    · next flow tree analysed built => exact ⟨body, flow, tree, made, analysed, built, passes⟩
    · cases passes

/-- The block that a guard spans. -/
def Guard.block (guard : Guard) : Block := ⟨guard.region, guard.span⟩

namespace Flow

variable {flow : Flow} {config : Config} {root : StmtId}

/-- The instructions of a tree, with the tokens they are made of. -/
theorem getElem?_methodTree {offset : Nat} {instr : Instruction Nat} :
    (flow.methodTree config root).instructions[offset]? = some instr ↔
      ∃ source operation at', (.instr source operation, at') ∈
          (flow.methodCode config root).tokens (flow.methodPlace config root) ∧
        at'.offset = offset ∧
        instr = operation.mapTargets (flow.methodCode config root).offsetOf := by
  rw [methodTree, Code.linked, List.getElem?_map, Option.map_eq_some_iff]
  constructor
  · rintro ⟨⟨source, operation⟩, found, rfl⟩
    obtain ⟨at', mem, same⟩ :=
      (@Code.getElem?_instrs _ (flow.methodPlace config root) _ _ _).mp found
    exact ⟨source, operation, at', mem, same.trans (Nat.zero_add _), rfl⟩
  · rintro ⟨source, operation, at', mem, same, rfl⟩
    refine ⟨(source, operation), ?_, rfl⟩
    refine (@Code.getElem?_instrs _ (flow.methodPlace config root) _ _ _).mpr ⟨at', mem, ?_⟩
    exact same.trans (Nat.zero_add _).symm

/-- The regions of a tree below the method. -/
theorem regions_methodTree :
    ∃ method : Region, method.kind = .method ∧ (flow.methodTree config root).regions =
      method :: (flow.methodCode config root).regions (flow.methodPlace config root).offset
        (flow.methodPlace config root).next (flow.methodPlace config root).parent :=
  ⟨_, rfl, rfl⟩

/-- A region in the code of a method is found in the tree under its id. -/
theorem region?_methodTree {region : Region} {at' : Place}
    (opens : (.opens region, at') ∈
      (flow.methodCode config root).tokens (flow.methodPlace config root)) :
    (flow.methodTree config root).region? region.id = some region :=
  reads_methodTree.region?_eq (List.mem_cons_of_mem _ opens)

/-- The guard of the method is older than the regions in its code. -/
theorem fresh_methodPlace : (flow.methodPlace config root).Fresh := by
  apply Place.Fresh.within
  intro guard mem
  cases mem

namespace Accepted

variable (accepted : flow.Accepted) (member : root ∈ flow.body.methods)

include accepted member

/-- The guard of the method spans no block. -/
theorem not_mem_methodPlace {guard : Guard}
    (listed : guard ∈ (flow.methodCode config root).guards (flow.methodPlace config root)) :
    guard ∉ (flow.methodPlace config root).guards := by
  intro mem
  cases List.mem_singleton.mp mem
  exact (Code.region_of_guard (accepted.methodFormed config member).formed listed).1 rfl

/-- The regions of a tree below the method are those in the code of the method. -/
theorem mem_regions_methodTree {region : Region} :
    region ∈ (flow.methodTree config root).regions ∧ region.kind ≠ .method ↔
      ∃ at', (.opens region, at') ∈
        (flow.methodCode config root).tokens (flow.methodPlace config root) := by
  have formed := (accepted.methodFormed config member).formed
  obtain ⟨method, kind, regions⟩ := @regions_methodTree flow config root
  rw [regions, List.mem_cons, or_and_right, Code.mem_regions]
  constructor
  · rintro (⟨rfl, notMethod⟩ | ⟨listed, -⟩)
    · exact (notMethod kind).elim
    · exact listed
  · rintro ⟨at', opens⟩
    refine .inr ⟨⟨at', opens⟩, ?_⟩
    rcases Code.guards_of_opens opens with ⟨-, whole⟩ | ⟨-, _, -, -, -, -, -, last⟩
    · exact (Code.region_of_guard formed whole).1
    · exact (Code.region_of_guard formed last).1

/-- The blocks of a tree are what its guards span, but for what a handler protects. -/
theorem mem_blocks {block : Block} :
    block ∈ (flow.methodTree config root).blocks ↔
      ∃ guard ∈ (flow.methodCode config root).guards (flow.methodPlace config root),
        guard.part ≠ .body ∧ block = guard.block := by
  have formed := (accepted.methodFormed config member).formed
  obtain ⟨method, kind, regions⟩ := @regions_methodTree flow config root
  have outer : method.block? = none := by rw [Region.block?, kind]
  rw [RegionTree.blocks, regions, List.filterMap_cons_none outer, List.mem_filterMap]
  constructor
  · rintro ⟨region, listed, spans⟩
    obtain ⟨at', opens⟩ := Code.mem_regions.mp listed
    rcases Code.guards_of_opens opens with ⟨-, whole⟩ | ⟨-, handler, found, -, -, -, -, last⟩
    · obtain ⟨notMethod, plain, -⟩ := Code.region_of_guard formed whole
      rw [Region.block?_of_plain plain notMethod] at spans
      exact ⟨_, whole, by simp, (Option.some.inj spans).symm⟩
    · obtain ⟨-, holds, -⟩ := Code.region_of_guard formed last
      rw [Region.block?_of_hasHandler holds, found] at spans
      exact ⟨_, last, by simp, (Option.some.inj spans).symm⟩
  · rintro ⟨guard, listed, outer, rfl⟩
    obtain ⟨at', opens⟩ := Code.opens_of_guard listed
    obtain ⟨notMethod, parts⟩ := Code.region_of_guard formed listed
    refine ⟨guard.region, Code.mem_regions.mpr ⟨at', opens⟩, ?_⟩
    cases part : guard.part with
    | body => exact (outer part).elim
    | whole =>
      rw [part] at parts
      obtain ⟨plain, -, same⟩ := parts
      rw [Region.block?_of_plain plain notMethod, ← same]
      rfl
    | handler =>
      rw [part] at parts
      obtain ⟨holds, found⟩ := parts
      rw [Region.block?_of_hasHandler holds, found]
      rfl

end Accepted
end Flow
end ProtectedRegions
