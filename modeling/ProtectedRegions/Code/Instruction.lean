import ProtectedRegions.Statement

/-!
# Instructions

An instruction over branch targets of type `τ`: label keys while code is being put together,
offsets once it is laid out. Everything but the targets is the same in both.
-/

namespace ProtectedRegions

/-- One instruction, with branch targets in `τ` (`codegen/instruction:20–81`). -/
inductive Instruction (τ : Type) where
  /-- The code of an expression statement. -/
  | code (stmt : StmtId)
  | branch (target : τ)
  /-- Branches if the condition fails. -/
  | branchIf (target : τ)
  | switch (targets : List τ)
  /-- Leaves protected regions on the way to its target. -/
  | leave (target : τ)
  | ret
  | throwException
  | rethrow
  /-- The filter of a catch clause of a `try`. -/
  | filter (stmt : StmtId) (clause : Nat)
  | endFilter
  | endFinally
  /-- The cleanup of a synthetic statement. -/
  | cleanup (stmt : StmtId) (kind : SyntheticKind)
  /-- The creation of a closure. -/
  | closure (stmt : StmtId)
  deriving DecidableEq, Repr

namespace Instruction

variable {τ υ : Type}

/-- The branch targets in slot order (`codegen/instruction:101–109`). -/
def targets : Instruction τ → List τ
  | .branch target | .branchIf target | .leave target => [target]
  | .switch targets => targets
  | _ => []

/-- Fills a target slot; only the instructions that branch have slots
(`codegen/instruction:112–131`). -/
def setTarget? (slot : Nat) (target : τ) : Instruction τ → Option (Instruction τ)
  | .branch _ => if slot = 0 then some (.branch target) else none
  | .branchIf _ => if slot = 0 then some (.branchIf target) else none
  | .leave _ => if slot = 0 then some (.leave target) else none
  | .switch targets =>
    if slot < targets.length then some (.switch (targets.set slot target)) else none
  | _ => none

/-- Whether control never goes on to the next instruction (`codegen/instruction:86–97`). -/
def isTerminator : Instruction τ → Bool
  | .branch _ | .leave _ | .ret | .throwException | .rethrow | .endFilter | .endFinally => true
  | _ => false

/-- Replaces every target, from the first slot to the last, unless one of them fails. -/
def mapTargetsM {m : Type → Type} [Monad m] (f : τ → m υ) : Instruction τ → m (Instruction υ)
  | .code stmt => pure (.code stmt)
  | .branch target => return .branch (← f target)
  | .branchIf target => return .branchIf (← f target)
  | .switch targets => return .switch (← targets.mapM f)
  | .leave target => return .leave (← f target)
  | .ret => pure .ret
  | .throwException => pure .throwException
  | .rethrow => pure .rethrow
  | .filter stmt clause => pure (.filter stmt clause)
  | .endFilter => pure .endFilter
  | .endFinally => pure .endFinally
  | .cleanup stmt kind => pure (.cleanup stmt kind)
  | .closure stmt => pure (.closure stmt)

/-- Replaces every target. -/
def mapTargets (f : τ → υ) (instr : Instruction τ) : Instruction υ :=
  Id.run (instr.mapTargetsM fun target ↦ pure (f target))

/-- Replacing the targets replaces them slot by slot. -/
theorem targets_mapTargets (f : τ → υ) (instr : Instruction τ) :
    (instr.mapTargets f).targets = instr.targets.map f := by
  cases instr <;> simp [mapTargets, mapTargetsM, targets]

/-- Whether control goes on does not depend on the targets. -/
theorem isTerminator_mapTargets (f : τ → υ) (instr : Instruction τ) :
    (instr.mapTargets f).isTerminator = instr.isTerminator := by
  cases instr <;> rfl

end Instruction

/-- The word for the cleanup of a synthetic kind (`codegen/instruction:153–155`). -/
def SyntheticKind.cleanupName : SyntheticKind → String
  | .resource => "cleanup.using"
  | .lock => "cleanup.lock"
  | .fixed => "cleanup.fixed"
  | .forEach => "cleanup.foreach"

instance : ToString (Instruction Nat) where
  toString
    | .code stmt => s!"code {stmt}"
    | .branch target => s!"br {offsetText target}"
    | .branchIf target => s!"brfalse {offsetText target}"
    | .switch targets => "switch (" ++ ", ".intercalate (targets.map offsetText) ++ ")"
    | .leave target => s!"leave {offsetText target}"
    | .ret => "ret"
    | .throwException => "throw"
    | .rethrow => "rethrow"
    | .filter stmt clause => s!"filter {stmt}[{clause}]"
    | .endFilter => "endfilter"
    | .endFinally => "endfinally"
    | .cleanup stmt kind => s!"{kind.cleanupName} {stmt}"
    | .closure stmt => s!"newclosure {stmt}"

end ProtectedRegions
