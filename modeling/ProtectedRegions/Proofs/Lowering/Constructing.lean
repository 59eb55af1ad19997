import ProtectedRegions.Proofs.Lowering.Decisions
import ProtectedRegions.Proofs.Lowering.Method
import ProtectedRegions.Proofs.Lowering.Sound

/-!
# Constructed methods

The pass over a method of an accepted body meets none of its errors. Each jump has its target, each
synthetic statement its decision, no label is placed twice, and no region is missing that the pass
has opened. At its end no decision is left and no region is open, and the regions and instructions
are those of the structured code of the method.
-/

namespace ProtectedRegions
namespace Flow

/-- The pass over the method at `root` does its work, from what is decided to the linked code, and
each of its steps finds what it needs. -/
structure Completed (flow : Flow) (config : Config) (root : StmtId)
    (decisions : List (StmtId × CleanupDecision)) (done : Construction)
    (instructions : List (Instruction Nat)) : Prop where
  /-- Every question about exits is answered. -/
  decides : (flow.decideMethod config root).result = .ok decisions
  /-- There is a decision about each synthetic statement of the method, and about nothing else. -/
  decided : ∀ stmt, stmt ∈ decisions.map (·.1) ↔
    (∃ kind inner, flow.body.get? stmt = some (.synthetic kind inner)) ∧ flow.methodOf stmt = root
  /-- Every jump has a target, every synthetic statement its decision, every label is new where it
  is placed, and every region that is changed has been opened. -/
  lays : (flow.layOutMethod root (.start decisions)).result = .ok ((), done)
  /-- Every decision is taken. -/
  taken : done.decisions = []
  /-- Every region is closed. -/
  closed : done.opened = []
  /-- No label is placed twice. -/
  once : (done.layout.placements.map (·.1)).Nodup
  /-- Every label that an instruction names is placed. -/
  placed : ∀ label, done.layout.mentions label = true →
    ∃ offset, done.layout.placement? label = some offset
  links : done.layout.link = .ok instructions
  /-- The regions break no rule of a region tree. -/
  valid : RegionTree.validate ⟨done.regions, instructions, root⟩ = .ok ()
  builds : flow.buildMethod config root = .ok ⟨done.regions, instructions, root⟩

variable {flow : Flow} {root : StmtId} {decisions : List (StmtId × CleanupDecision)}

/-- The synthetic statements in the code of a method are those of its document. -/
theorem synthetic_mem_statements (config : Config) (tree : flow.body.IsTree)
    (rooted : flow.body.has root = true) {stmt inner : StmtId} {kind : SyntheticKind}
    (found : flow.body.get? stmt = some (.synthetic kind inner)) :
    stmt ∈ (flow.emit config root []).statements ↔ stmt ∈ flow.body.inMethod root := by
  have has := Body.has_iff_get?.mpr ⟨_, found⟩
  have plain : flow.body.isLambda stmt = false := by
    rw [Body.isLambda, found]
    rfl
  rw [mem_statements_iff config tree rooted, tree.mem_inMethod rooted has]
  simp only [has, plain, true_and, and_true]

/-- An epilogue holds no statements. -/
theorem statements_methodCode (flow : Flow) (config : Config) (root : StmtId) :
    (flow.methodCode config root).statements = (flow.emit config root []).statements := by
  rw [methodCode]
  rcases flow.epilogue_cases root (flow.emit config root []).layout with none | some
  · rw [none]
    exact List.append_nil _
  · rw [some]
    exact List.append_nil _

namespace Accepted

variable (accepted : flow.Accepted) (config : Config) (member : root ∈ flow.body.methods)

include accepted member

/-- Where everything about a method is decided, laying it out can begin. -/
theorem ready_start (decides : flow.Decides config root decisions) :
    (Construction.start decisions).Ready flow config [] (flow.methodCode config root) := by
  have tree := accepted.wellFormed.toIsTree
  have rooted := tree.has_of_mem_methods member
  have statements := flow.statements_methodCode config root
  refine ⟨rfl, fun id none ↦ (Option.not_mem_none id none).elim, ?_, fun stmt decision mem ↦ ?_,
    fun stmt kind inner found mem ↦ ?_⟩
  · rw [statements]
    exact (nodup_statements config tree rooted []).1
  · obtain ⟨kind, inner, found, -, same⟩ := decides.right stmt decision mem
    exact ⟨kind, inner, found, same⟩
  · rw [statements] at mem
    exact decides.complete stmt kind inner found
      ((synthetic_mem_statements config tree rooted found).mp mem)

/-- When a method is laid out, all decisions about it are taken. -/
theorem no_decision_left (decides : flow.Decides config root decisions) :
    decisions.filter (·.1 ∉ (flow.methodCode config root).statements) = [] := by
  have tree := accepted.wellFormed.toIsTree
  have rooted := tree.has_of_mem_methods member
  refine List.filter_eq_nil_iff.mpr fun entry mem ↦ ?_
  obtain ⟨kind, inner, found, listed, -⟩ := decides.right entry.1 entry.2 mem
  have laid := (synthetic_mem_statements config tree rooted found).mpr listed
  rw [statements_methodCode]
  simp [laid]

/-- Behind the statements of a method comes its epilogue. -/
theorem layOutEpilogue_apply {construction : Construction}
    (ready : construction.Ready flow config [] (flow.methodCode config root))
    (fresh : construction.layout = .empty) :
    flow.layOutEpilogue root
        (construction.extend (flow.emit config root []) (flow.emit config root []).layout) =
      ⟨.ok ((), construction.extend (flow.methodCode config root)
          (flow.methodCode config root).layout), []⟩ := by
  obtain ⟨first, whole, -⟩ := accepted.lay_methodCode config member
  have behind : (flow.epilogue root (flow.emit config root []).layout).lay
      (flow.emit config root []).layout = .ok (flow.methodCode config root).layout := by
    rw [methodCode, Code.append_eq, Code.lay, first] at whole
    exact whole
  have performs : Performs flow config [] _
      (flow.epilogue root (flow.emit config root []).layout) := .onlyIf (.append .define .emit)
  have quiet : (flow.epilogue root (flow.emit config root []).layout).events = [] := by
    rcases flow.epilogue_cases root (flow.emit config root []).layout with none | some
    · rw [none]
      rfl
    · rw [some]
      rfl
  rw [← fresh] at first
  rw [← quiet, methodCode, ← Construction.extend_extend ready.within first]
  exact performs (construction.extend (flow.emit config root []) _) _ ready.second_part behind

/-- Laying out a method leaves its code and its regions, and nothing to be decided or closed. -/
theorem layOutMethod_eq (decides : flow.Decides config root decisions) :
    flow.layOutMethod root (.start decisions) =
      ⟨.ok ((), ⟨[], (flow.methodCode config root).layout, (flow.methodTree config root).regions,
          [], []⟩),
        (flow.emit config root []).events ++ flow.exitEvents (.ofScope root root)⟩ := by
  have tree := accepted.wellFormed.toIsTree
  have rooted := tree.has_of_mem_methods member
  obtain ⟨first, whole, -⟩ := accepted.lay_methodCode config member
  have ready : ((Construction.start decisions).opening ⟨.method, .method, root, none, []⟩).Ready
      flow config [] (flow.methodCode config root) :=
    (accepted.ready_start config member decides).opening
  have body := accepted.performs_layOut config rooted [] _ _ ready.first_part first
  have ending := accepted.layOutEpilogue_apply config member ready rfl
  have asked := Performs.analyze_apply tree (ExitQuery.named_ofScope rooted rooted)
  have closed : ((Construction.start decisions).opening
      ⟨.method, .method, root, none, []⟩ |>.extend (flow.methodCode config root)
        (flow.methodCode config root).layout).closing (Construction.start decisions).nextRegion
          (flow.exits (.ofScope root root)) =
      ⟨[], (flow.methodCode config root).layout, (flow.methodTree config root).regions, [], []⟩ := by
    rw [Construction.closing_extend_opening whole]
    exact congrArg (Construction.mk · _ _ _ _) (accepted.no_decision_left config member decides)
  rw [layOutMethod, Construct.openRegion_bind, Construct.bind_of_eq body,
    Construct.bind_of_eq ending, Construct.bind_of_eq (asked _), ← closed]
  exact congrArg (fun events ↦ Logged.mk _ (_ ++ events)) (List.append_nil _)

/-- The pass over a method gives the tree of its structured code. -/
theorem runMethod_eq (decides : flow.Decides config root decisions) :
    flow.runMethod decisions root = ⟨.ok (flow.methodTree config root),
      (flow.emit config root []).events ++ flow.exitEvents (.ofScope root root)⟩ := by
  obtain ⟨-, -, linked⟩ := accepted.lay_methodCode config member
  rw [runMethod, accepted.layOutMethod_eq config member decides, Logged.ok_bind]
  dsimp only
  rw [linked]
  exact congrArg (Logged.mk _) (List.append_nil _)

/-- Every method of an accepted body is built. -/
theorem buildMethod_eq : flow.buildMethod config root = .ok (flow.methodTree config root) := by
  have tree := accepted.wellFormed.toIsTree
  obtain ⟨decisions, events, decided, decides⟩ :=
    exists_decideMethod_eq tree config (tree.has_of_mem_methods member)
  rw [buildMethod, constructMethod, decided, Logged.ok_bind,
    accepted.runMethod_eq config member decides, Logged.ok_bind,
    accepted.validate_methodTree config member]
  cases config.validate <;> rfl

/-- The decisions are those about the synthetic statements of the method. -/
theorem decided_iff (decides : flow.Decides config root decisions) {stmt : StmtId} :
    stmt ∈ decisions.map (·.1) ↔
      (∃ kind inner, flow.body.get? stmt = some (.synthetic kind inner)) ∧
        flow.methodOf stmt = root := by
  have tree := accepted.wellFormed.toIsTree
  have rooted := tree.has_of_mem_methods member
  have own := tree.methodOf_of_mem_methods member
  constructor
  · intro mem
    obtain ⟨entry, listed, rfl⟩ := List.mem_map.mp mem
    obtain ⟨kind, inner, found, visited, -⟩ := decides.right entry.1 entry.2 listed
    have has := Body.has_iff_get?.mpr ⟨_, found⟩
    obtain ⟨-, same, -⟩ := (tree.mem_inMethod rooted has).mp visited
    exact ⟨⟨kind, inner, found⟩, by rw [accepted.methodOf_eq has, same, own]⟩
  · rintro ⟨⟨kind, inner, found⟩, same⟩
    have has := Body.has_iff_get?.mpr ⟨_, found⟩
    rw [accepted.methodOf_eq has] at same
    have inside := (tree.methodOf_spec has).2
    rw [same] at inside
    refine decides.complete stmt kind inner found ((tree.mem_inMethod rooted has).mpr
      ⟨inside, same.trans own.symm, ?_⟩)
    rw [Body.isLambda, found]
    rfl

/-- The pass over a method of an accepted body completes, with the tree of the structured code. -/
theorem exists_completed : ∃ decisions done instructions,
    flow.Completed config root decisions done instructions := by
  have tree := accepted.wellFormed.toIsTree
  obtain ⟨decisions, events, decided, decides⟩ :=
    exists_decideMethod_eq tree config (tree.has_of_mem_methods member)
  obtain ⟨-, -, linked⟩ := accepted.lay_methodCode config member
  have nodup := nodup_marks_methodCode config accepted.wellFormed member
  refine ⟨decisions, ⟨[], (flow.methodCode config root).layout,
    (flow.methodTree config root).regions, [], []⟩, (flow.methodCode config root).linked, ?_⟩
  exact {
    decides := congrArg Logged.result decided
    decided := fun stmt ↦ accepted.decided_iff config member decides
    lays := congrArg Logged.result (accepted.layOutMethod_eq config member decides)
    taken := rfl
    closed := rfl
    once := Code.nodup_placements nodup
    placed := fun label named ↦ by
      obtain ⟨entry, listed, mem⟩ := Code.mentions_layout.mp named
      exact Code.exists_placement (accepted.placed_methodCode config member entry listed label mem)
    links := linked
    valid := accepted.validate_methodTree config member
    builds := accepted.buildMethod_eq config member }

end Accepted
end Flow
end ProtectedRegions
