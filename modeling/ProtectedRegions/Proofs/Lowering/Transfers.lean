import ProtectedRegions.Proofs.Lowering.Built
import ProtectedRegions.Proofs.Lowering.Crossing

/-!
# Transfers and blocks

Whether the branches and leaves of a tree keep the rules of blocks. They do, but for those to the
end of a block whose statement is live and cannot complete: nothing closes such a block behind the
labels at its end, so that they name the offset at which the next block starts.
-/

namespace ProtectedRegions

/-- Whether an instruction is a leave does not depend on the targets. -/
theorem Instruction.isLeave_mapTargets {τ υ : Type} (f : τ → υ) (instr : Instruction τ) :
    (instr.mapTargets f).isLeave = instr.isLeave := by
  cases instr <;> rfl

namespace Flow

variable {flow : Flow} {config : Config} {root : StmtId}

/-- The block holds the code of a live statement that cannot complete. -/
def Endless (flow : Flow) (block : Block) : Prop :=
  ∃ part, block.Holds flow.body part ∧ flow.isReachable part = true ∧
    flow.completes part = false

/-- What a fence spans is a block with the code of its scope. -/
theorem Fence.holds_block {start : Place} {part : StmtId} {fence : Guard}
    (fenced : flow.Fence config root start part fence) :
    fence.part ≠ .body ∧ fence.region.kind ≠ .method ∧ fence.block.Holds flow.body part := by
  have holds := fenced.holds
  rw [Flow.Holds] at holds
  rw [Block.Holds]
  cases form : fence.part with
  | body =>
    rw [form] at holds
    exact holds.elim
  | whole =>
    rw [form] at holds
    obtain ⟨same, kind⟩ := holds
    rcases kind with kind | kind <;> simp [Guard.block, kind, same, RegionKind.hasHandler]
  | handler =>
    rw [form] at holds
    obtain ⟨hasHandler, isHandler⟩ := holds
    refine ⟨by decide, fun kind ↦ ?_, ?_⟩
    · rw [kind] at hasHandler
      cases hasHandler
    · rw [if_pos (show fence.block.region.kind.hasHandler = true from hasHandler)]
      exact isHandler

namespace Accepted

variable (accepted : flow.Accepted) (member : root ∈ flow.body.methods)

include accepted member

/-- A target at the end of a guard around it is at the end of an endless block around it. -/
theorem exists_endless {label : LabelKey} {place : Place}
    (arrives : flow.Target config root (flow.methodPlace config root) label place)
    {guard : Guard} (around : guard ∈ place.guards)
    (listed : guard ∈ (flow.methodCode config root).guards (flow.methodPlace config root))
    (last : guard.span.stop ≤ place.offset) :
    ∃ fence ∈ place.guards,
      fence ∈ (flow.methodCode config root).guards (flow.methodPlace config root) ∧
        fence.block ∈ (flow.methodTree config root).blocks ∧ flow.Endless fence.block ∧
          fence.span.stop = place.offset := by
  have tree := accepted.wellFormed.toIsTree
  have rooted := tree.has_of_mem_methods member
  have inner := accepted.not_mem_methodPlace member listed
  rcases arrives.owned with outside | ⟨stmt, scopes, place', item, laid, same, mem⟩
  · rw [outside] at around
    exact (inner around).elim
  rw [← same] at around
  obtain ⟨part, fence, inside, fenced, mem', within, stop, closed, stands⟩ :=
    laid.exists_sealed tree rooted rfl mem around inner last
  obtain ⟨notBody, notMethod, holds⟩ := fenced.holds_block
  rw [same] at mem'
  have listed' :
      fence ∈ (flow.methodCode config root).guards (flow.methodPlace config root) := by
    rcases Code.guards_of_token arrives.token mem' with outer | listed'
    · cases List.mem_singleton.mp outer
      exact (notMethod rfl).elim
    · exact listed'
  refine ⟨fence, mem', listed', ?_, ⟨part, holds, ?_⟩, stop⟩
  · exact (accepted.mem_blocks member).mpr ⟨fence, listed', notBody, rfl⟩
  · have never := closed.2
    rw [runsOn, Bool.or_eq_false_iff, Bool.not_eq_false'] at never
    exact ⟨never.2, never.1⟩

/-- A guard that covers a target but not the transfer starts there. If it is not the range of a
protected block, then the target is also at the end of a guard around it. -/
theorem entered_at_start {label : LabelKey} {place : Place}
    (arrives : flow.Target config root (flow.methodPlace config root) label place)
    {guard : Guard} (outside : guard ∉ place.guards)
    (listed : guard ∈ (flow.methodCode config root).guards (flow.methodPlace config root))
    (covers : guard.span.covers place.offset = true) (block : guard.part ≠ .body) :
    place.offset = guard.span.start ∧ (guard.region.kind = .tryBlock ∨
      ∃ left ∈ place.guards,
        left ∈ (flow.methodCode config root).guards (flow.methodPlace config root) ∧
          left.span.stop = place.offset) := by
  have method := accepted.methodFormed config member
  rw [Span.covers_iff] at covers
  have start : place.offset = guard.span.start := by
    rcases Code.guard_cases fresh_methodPlace arrives.token listed with ⟨around, -⟩ | ⟨-, before⟩
    · exact (outside around).elim
    · simp only [Token.width] at before
      omega
  refine ⟨start, ?_⟩
  by_cases kind : guard.region.kind = .tryBlock
  · exact .inl kind
  have shut : guard.isShut = true := by
    obtain ⟨notMethod, parts⟩ := Code.region_of_guard method.formed listed
    rw [Guard.isShut]
    cases form : guard.part with
    | body => exact (block form).elim
    | handler => rfl
    | whole =>
      rw [form] at parts
      have plain := parts.1
      cases other : guard.region.kind <;> simp_all [RegionKind.isFree, RegionKind.hasHandler]
  rcases Code.exists_left method.formed arrives.token listed shut start.symm with
    around | left | ⟨region, top, rfl⟩
  · exact (outside around).elim
  · exact .inr left
  · have free := method.free region.toRegionHead (by
      rw [← Code.map_topRegions _ (flow.methodPlace config root)]
      exact List.mem_map_of_mem top)
    simp [Guard.isShut, Code.wholeOf, free] at shut

end Accepted
end Flow

/-- A transfer keeps the rules of blocks exactly if it does not go to the end of an endless block
around it, or does so as a leave and no handler or filter starts there. -/
theorem Config.transfers_respect_iff {draft : Draft} {body : Body} (made : draft.toBody = .ok body)
    {flow : Flow} (analysed : Flow.ofBody body = .ok flow) {config : Config} {tree : RegionTree}
    (builds : config.Builds body tree) {source target : Nat} {instr : Instruction Nat}
    (found : tree.instructions[source]? = some instr) (mem : target ∈ instr.targets) :
    tree.Respects instr.isLeave source target ↔
      ¬ ∃ block ∈ tree.blocks, flow.Endless block ∧ block.span.covers source = true ∧
        block.span.stop = target ∧ (instr.isLeave = false ∨
          ∃ other ∈ tree.blocks, other.region.kind ≠ .tryBlock ∧ other.span.start = target) := by
  obtain ⟨accepted, rfl, root, member, rfl⟩ := builds.exists_root made analysed
  have formed := (accepted.methodFormed config member).formed
  obtain ⟨stmt, operation, at', token, rfl, rfl⟩ := Flow.getElem?_methodTree.mp found
  rw [Instruction.isLeave_mapTargets]
  rw [Instruction.targets_mapTargets] at mem
  obtain ⟨label, named, rfl⟩ := List.mem_map.mp mem
  obtain ⟨place, between, arrives, guards, stays⟩ :=
    accepted.exists_target member rfl token named
  rw [← arrives.offset]
  have around {guard : Guard}
      (listed : guard ∈ (flow.methodCode config root).guards (flow.methodPlace config root)) :
      guard.span.covers at'.offset = true ↔ guard ∈ at'.guards :=
    Code.covers_iff_mem_guards Flow.fresh_methodPlace token listed
  constructor
  · rintro respects ⟨block, listed, -, covers, stop, enters⟩
    rw [Span.covers_iff] at covers
    rcases enters with branches | ⟨other, listed', kind, start⟩
    · have covers' := (respects block listed).2 branches (Span.covers_iff.mpr covers)
      rw [Span.covers_iff] at covers'
      omega
    · obtain ⟨guard, listed'', -, rfl⟩ := (accepted.mem_blocks member).mp listed'
      have lt := Code.lt_of_guard formed listed''
      change guard.span.start = place.offset at start
      refine kind ((respects guard.block listed').1 ?_ ?_).1
      · show guard.span.covers place.offset = true
        rw [Span.covers_iff]
        omega
      · show guard.span.covers at'.offset = false
        rw [Bool.eq_false_iff]
        intro covers'
        rw [Span.covers_iff] at covers'
        omega
  · intro none block isBlock
    obtain ⟨guard, listed, notBody, rfl⟩ := (accepted.mem_blocks member).mp isBlock
    rw [Guard.block]
    constructor
    · intro covers misses
      have outside : guard ∉ place.guards := by
        intro mem
        have covers := (around listed).mpr (by rw [guards]; exact List.mem_append_right _ mem)
        rw [misses] at covers
        cases covers
      obtain ⟨start, tried | ⟨left, mem, listed', stop⟩⟩ :=
        accepted.entered_at_start member arrives outside listed covers notBody
      · exact ⟨tried, start⟩
      by_cases kind : guard.region.kind = .tryBlock
      · exact ⟨kind, start⟩
      · obtain ⟨fence, mem, listed'', isBlock', endless, stop⟩ :=
          accepted.exists_endless member arrives mem listed' (Nat.le_of_eq stop)
        have covers' : fence.block.span.covers at'.offset = true := by
          apply (around listed'').mpr
          rw [guards]
          exact List.mem_append_right _ mem
        exact (none ⟨fence.block, isBlock', endless, covers', stop,
          .inr ⟨guard.block, isBlock, kind, start.symm⟩⟩).elim
    · intro branches covers
      have same : at'.guards = place.guards := by rw [guards, stays branches, List.nil_append]
      have mem := (around listed).mp covers
      rw [same] at mem
      rw [Span.covers_iff]
      rcases Code.guard_cases Flow.fresh_methodPlace arrives.token listed with ⟨-, first, last⟩ | ⟨outside, -⟩
      · refine ⟨first, ?_⟩
        by_cases lt : place.offset < guard.span.stop
        · exact lt
        · obtain ⟨fence, mem, listed', isBlock', endless, stop⟩ :=
            accepted.exists_endless member arrives mem listed (Nat.le_of_not_lt lt)
          rw [← same] at mem
          have covers' : fence.block.span.covers at'.offset = true := (around listed').mpr mem
          exact (none ⟨fence.block, isBlock', endless, covers', stop, .inl branches⟩).elim
      · exact (outside mem).elim

/-- A `break` out of a loop with an endless body, behind a `throw` and at the end of a protected
block. -/
def Draft.slipping : Draft where
  statements := #[.throwException, .jump .breakOut, .loop .always ⟨1⟩, .block [⟨0⟩, ⟨2⟩],
    .block [], .tryBlock ⟨⟨3⟩, [], some ⟨.finallyBlock, ⟨4⟩⟩⟩]
  labelCount := 0
  localCount := 0
  root := ⟨5⟩

theorem Config.slips_into_handler :
    ∃ body tree, Draft.slipping.toBody = .ok body ∧ Config.default.build body = .ok tree ∧
      tree.instructions[1]? = some (.branch 3) ∧ ¬ tree.Respects false 1 3 := by
  have slips : Config.default.tests .slipping (fun _ tree ↦ decide
      (tree.instructions[1]? = some (.branch 3) ∧ ¬ tree.Respects false 1 3)) = true := by
    decide +kernel
  obtain ⟨body, flow, tree, made, -, built, holds⟩ := exists_built slips
  exact ⟨body, tree, made, built, of_decide_eq_true holds⟩

theorem Config.transfers_respect_slipping :
    ∃ body flow tree, Draft.slipping.toBody = .ok body ∧ Flow.ofBody body = .ok flow ∧
      Config.default.Builds body tree ∧ tree.instructions[1]? = some (.branch 3) ∧
      ∃ block ∈ tree.blocks, flow.Endless block ∧ block.span.covers 1 = true ∧
        block.span.stop = 3 := by
  have slips : Config.default.tests .slipping (fun _ tree ↦ decide
      (tree.instructions[1]? = some (.branch 3) ∧ ¬ tree.Respects false 1 3)) = true := by
    decide +kernel
  obtain ⟨body, flow, tree, made, analysed, built, holds⟩ := exists_built slips
  obtain ⟨found, slipped⟩ := of_decide_eq_true holds
  have respects := transfers_respect_iff made analysed (.outer built) found List.mem_cons_self
  obtain ⟨block, listed, endless, covers, stop, -⟩ := Classical.not_not.mp (slipped ∘ respects.mpr)
  exact ⟨body, flow, tree, made, analysed, .outer built, found, block, listed, endless, covers, stop⟩

end ProtectedRegions
