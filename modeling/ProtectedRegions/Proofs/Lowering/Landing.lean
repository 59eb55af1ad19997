import ProtectedRegions.Proofs.Lowering.Built

/-!
# Where branches land

Every branch of a stream lands on an instruction. A label that is named stands before an
instruction of the code, or at the end of it; and if control can come to the end, there is an
epilogue to land on.
-/

namespace ProtectedRegions

namespace Code

variable {code : Code}

/-- A label is placed within the code, at the latest behind its last instruction. -/
theorem le_of_mem_placements {label : LabelKey} {offset : Nat}
    (mem : (label, offset) ∈ code.placements 0) : offset ≤ code.size := by
  obtain ⟨at', token, rfl⟩ := (mem_placements_iff ⟨0, 0, []⟩).mp mem
  have := (offset_mem_tokens token).2
  rwa [Nat.zero_add] at this

/-- A label that is placed has its offset among the placements. -/
theorem offsetOf_mem_placements (nodup : code.marks.Nodup) {label : LabelKey}
    (mem : label ∈ code.marks) : (label, code.offsetOf label) ∈ code.placements 0 := by
  rw [← map_fst_placements code 0] at mem
  obtain ⟨⟨_, offset⟩, listed, rfl⟩ := List.mem_map.mp mem
  rwa [offsetOf, (placement?_layout_iff nodup).mpr listed]

end Code

namespace Flow

/-- What brings control to the end of the code of a method: the statements complete, a leave goes
to the exit of the method, or an instruction names a label that stands at the end. -/
inductive ReachesEnd (flow : Flow) (config : Config) (root : StmtId) : Prop
  | completes (runs : flow.completes root = true)
  | leave (source : StmtId)
      (mem : (source, .leave .methodExit) ∈ (flow.emit config root []).instrs)
  | label (source : StmtId) (operation : Instruction LabelKey) (label : LabelKey)
      (mem : (source, operation) ∈ (flow.emit config root []).instrs)
      (named : label ∈ operation.targets)
      (last : (label, (flow.emit config root []).size) ∈ (flow.emit config root []).placements 0)

variable {flow : Flow} {config : Config} {root : StmtId}

/-- A return stands at the end of the code of a method exactly if there is an epilogue. -/
theorem ret_methodTree_iff :
    (flow.methodTree config root).instructions[(flow.emit config root []).size]? = some .ret ↔
      flow.epilogue root (flow.emit config root []).layout =
        .mark .methodExit ++ .instr root .ret := by
  rw [methodTree, Code.linked, List.getElem?_map, methodCode, Code.append_eq, Code.instrs,
    List.getElem?_append_right (by rw [Code.length_instrs]), Code.length_instrs, Nat.sub_self]
  rcases flow.epilogue_cases root (flow.emit config root []).layout with none | some
  · rw [none]
    simp [Code.instrs, Code.append_eq]
  · rw [some]
    simp [Code.instrs, Code.append_eq, Instruction.mapTargets, Instruction.mapTargetsM]

namespace Accepted

variable (accepted : flow.Accepted) (member : root ∈ flow.body.methods)

include accepted member

/-- Only a leave goes to the exit of a method. -/
theorem leave_of_names_exit {source : StmtId} {operation : Instruction LabelKey}
    (mem : (source, operation) ∈ (flow.emit config root []).instrs)
    (named : .methodExit ∈ operation.targets) : operation = .leave .methodExit := by
  have tree := accepted.wellFormed.toIsTree
  obtain ⟨at', token⟩ := (@Code.mem_instrs _ ⟨0, 0, []⟩ _ _).mp mem
  obtain ⟨stmt, scopes, place, shape, -, found, own⟩ :=
    exists_own tree (tree.has_of_mem_methods member) token (by simp)
  obtain ⟨rfl, fits⟩ := forall_own_template config tree found scopes place _ own
  cases fits with
  | plain none =>
    rw [none] at named
    cases named
  | branch owned => exact (methodExit_not_mem (owned _ named)).elim
  | leave owned => cases List.mem_singleton.mp named
  | @jump _ _ _ target resolved by' =>
    have inside (stays : target.isReturn = false) : target.labelKey ≠ .methodExit := by
      cases target with
      | returnFrom root => cases stays
      | atLabel | breakOf | continueOf => exact nofun
    cases by' with
    | ret => cases named
    | leaveMethod => rfl
    | branch stays | leave stays => exact (inside stays (List.mem_singleton.mp named).symm).elim

/-- A method runs to its end if it completes: control always comes to its start. -/
theorem runsOn_root : flow.runsOn root = flow.completes root := by
  have reachable : flow.isReachable root = true :=
    (accepted.isReachable_iff (accepted.wellFormed.toIsTree.has_of_mem_methods member)).mpr
      (.entry member)
  rw [runsOn, reachable, Bool.not_true, Bool.or_false]

/-- There is an epilogue exactly if control can come to the end of the code. -/
theorem epilogue_iff (config : Config) :
    flow.epilogue root (flow.emit config root []).layout =
      .mark .methodExit ++ .instr root .ret ↔ flow.ReachesEnd config root := by
  have nodup : (flow.emit config root []).marks.Nodup :=
    List.Nodup.of_append_left (nodup_marks_methodCode config accepted.wellFormed member)
  have offset : (flow.emit config root []).layout.offset = (flow.emit config root []).size := by
    simp [Layout.offset, Code.layout, Code.length_instrs]
  have present (condition : Bool) : Code.onlyIf condition (.mark .methodExit ++ .instr root .ret) =
      .mark .methodExit ++ .instr root .ret ↔ condition = true := by
    cases condition <;> simp [Code.onlyIf, Code.append_eq]
  rw [epilogue, present, Bool.or_eq_true, Bool.or_eq_true, accepted.runsOn_root member, offset,
    Code.mentions_layout, Code.targets_layout nodup]
  constructor
  · rintro ((runs | ⟨⟨source, operation⟩, mem, named⟩) |
      ⟨⟨source, operation⟩, mem, label, named, last⟩)
    · exact .completes runs
    · rw [accepted.leave_of_names_exit member mem named] at mem
      exact .leave source mem
    · exact .label source operation label mem named last
  · rintro (runs | ⟨source, mem⟩ | ⟨source, operation, label, mem, named, last⟩)
    · exact .inl (.inl runs)
    · exact .inl (.inr ⟨_, mem, List.mem_singleton_self _⟩)
    · exact .inr ⟨_, mem, label, named, last⟩

/-- A label that the code of a method names has an instruction behind it. -/
theorem offsetOf_lt {source : StmtId} {operation : Instruction LabelKey}
    (mem : (source, operation) ∈ (flow.methodCode config root).instrs) {label : LabelKey}
    (named : label ∈ operation.targets) :
    (flow.methodCode config root).offsetOf label < (flow.methodCode config root).size := by
  have nodup := nodup_marks_methodCode config accepted.wellFormed member
  have marked := accepted.placed_methodCode config member _ mem _ named
  have placed := Code.offsetOf_mem_placements nodup marked
  generalize (flow.methodCode config root).offsetOf label = offset at placed ⊢
  have reaches := accepted.epilogue_iff member config
  rw [methodCode] at placed mem ⊢
  rcases flow.epilogue_cases root (flow.emit config root []).layout with none | some
  · -- Without an epilogue no label that is named stands at the end.
    rw [none] at placed mem reaches ⊢
    have placed := (List.mem_append.mp placed).resolve_right List.not_mem_nil
    have mem := (List.mem_append.mp mem).resolve_right List.not_mem_nil
    show offset < (flow.emit config root []).size
    refine lt_of_le_of_ne (Code.le_of_mem_placements placed) fun last ↦ ?_
    rw [last] at placed
    cases reaches.mpr (.label source operation label mem named placed)
  · -- The return of the epilogue stands behind every label.
    rw [some] at placed ⊢
    refine Nat.lt_succ_iff.mpr ?_
    rcases List.mem_append.mp placed with inner | exit
    · exact Code.le_of_mem_placements inner
    · cases List.mem_singleton.mp exit
      exact Nat.le_of_eq (Nat.zero_add _)

end Accepted
end Flow

/-- No branch dangles, in dead code neither: each target of each instruction of a stream is the
offset of an instruction. The stream ends in the return of an epilogue exactly if control can come
to the end of the code of the method. -/
theorem Config.branches_land {draft : Draft} {body : Body} (made : draft.toBody = .ok body)
    {flow : Flow} (analysed : Flow.ofBody body = .ok flow) {config : Config} {tree : RegionTree}
    (builds : config.Builds body tree) :
    (∀ instr ∈ tree.instructions, ∀ target ∈ instr.targets, target < tree.instructions.length) ∧
      (tree.instructions[(flow.emit config tree.method []).size]? = some .ret ↔
        flow.ReachesEnd config tree.method) := by
  obtain ⟨accepted, rfl, root, member, rfl⟩ := builds.exists_root made analysed
  constructor
  · intro instr listed target named
    obtain ⟨⟨source, operation⟩, mem, rfl⟩ := List.mem_map.mp listed
    rw [Instruction.targets_mapTargets] at named
    obtain ⟨label, label_mem, rfl⟩ := List.mem_map.mp named
    have lands := accepted.offsetOf_lt member mem label_mem
    rwa [Flow.methodTree, Code.linked, List.length_map, Code.length_instrs]
  · exact Flow.ret_methodTree_iff.trans (accepted.epilogue_iff member config)

/-- A loop that nothing comes to, at the end of the method, with a break in it. -/
def Draft.deadBreak : Draft where
  statements := #[.throwException, .jump .breakOut, .loop .always ⟨1⟩, .block [⟨0⟩, ⟨2⟩]]
  labelCount := 0
  localCount := 0
  root := ⟨3⟩

/-- The method does not complete, and the break finds a return to land on. -/
theorem Config.branches_land_deadBreak :
    ∃ body flow tree, Draft.deadBreak.toBody = .ok body ∧ Flow.ofBody body = .ok flow ∧
      Config.default.build body = .ok tree ∧ flow.completes tree.method = false ∧
      tree.instructions = [.throwException, .branch 3, .branch 1, .ret] ∧
      3 < tree.instructions.length ∧ flow.ReachesEnd .default tree.method := by
  have breaks : Config.default.tests .deadBreak (fun flow tree ↦ decide
      (flow.completes tree.method = false ∧
        tree.instructions = [.throwException, .branch 3, .branch 1, .ret] ∧
        (flow.emit .default tree.method []).size = 3)) = true := by
    decide +kernel
  obtain ⟨body, flow, tree, made, analysed, built, holds⟩ := exists_built breaks
  obtain ⟨stops, listed, size⟩ := of_decide_eq_true holds
  obtain ⟨lands, final⟩ := branches_land made analysed (.outer built)
  have last : tree.instructions[3]? = some .ret := by
    rw [listed]
    rfl
  refine ⟨body, flow, tree, made, analysed, built, stops, listed, ?_, ?_⟩
  · exact lands (.branch 3) (by simp [listed]) 3 (List.mem_singleton_self _)
  · rw [size] at final
    exact final.mp last

end ProtectedRegions
