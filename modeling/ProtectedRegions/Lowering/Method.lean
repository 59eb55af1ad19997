import ProtectedRegions.Lowering.Construction
import ProtectedRegions.Lowering.Emission
import ProtectedRegions.Region.Validation

/-!
# Laying out methods

One pass over the statements of a method appends the instructions, places the labels, and opens
and closes the regions. What the pass needs to know of the flow is whether statements can start
and complete, where jumps go, and the exits of scopes.
-/

namespace ProtectedRegions
namespace Flow

/-- The instruction of a jump inside the given scopes: a branch if all of them hold its target, and
a leave otherwise. A return leaves whatever scopes there are (`regions/builder:380–404`). -/
def jumpOperation (flow : Flow) (scopes : List StmtId) : JumpTarget → Instruction LabelKey
  | .returnFrom _ => if scopes.isEmpty then .ret else .leave .methodExit
  | target =>
    if scopes.all (flow.contains · target.scope) then .branch target.labelKey
    else .leave target.labelKey

/-- A jump, which must have a target (`regions/builder:374–405`). -/
def layOutJump (flow : Flow) (jump : StmtId) : Construct Unit := do
  let target ← Logged.require (.malformed (.targetUnresolved jump)) (flow.target? jump)
  Construct.emit (flow.jumpOperation (← get).scopes target)

/-- A conditional: a branch around the arm whose condition fails (`regions/builder:407–425`). -/
def layOutConditional (flow : Flow) (layOut : StmtId → Construct Unit)
    (stmt thenBranch : StmtId) (elseBranch : Option StmtId) : Construct Unit := do
  Construct.emit (.branchIf ((elseBranch.map LabelKey.elseOf).getD (.endOf stmt)))
  layOut thenBranch
  elseBranch.forM fun elseBranch ↦ do
    Construct.onlyIf (flow.runsOn thenBranch) (Construct.emit (.branch (.endOf stmt)))
    Construct.define (.elseOf elseBranch)
    layOut elseBranch
  Construct.define (.endOf stmt)

/-- A loop: the test at its head, and a branch back from the end of its body
(`regions/builder:427–442`). -/
def layOutLoop (flow : Flow) (layOut : StmtId → Construct Unit) (stmt : StmtId)
    (condition : Condition) (body : StmtId) : Construct Unit := do
  Construct.define (.head stmt)
  Construct.onlyIf (condition != .always) (Construct.emit (.branchIf (.endOf stmt)))
  layOut body
  Construct.onlyIf (flow.runsOn body) (Construct.emit (.branch (.head stmt)))
  Construct.define (.endOf stmt)

/-- A switch: a jump table, a branch to the default section, and the sections
(`regions/builder:444–465`). -/
def layOutSwitch (flow : Flow) (layOut : StmtId → Construct Unit) (stmt : StmtId)
    (sections : List StmtId) (default : Option Nat) : Construct Unit := do
  Construct.emit (.switch (sections.map LabelKey.caseOf))
  Construct.emit
    (.branch (((default.bind (sections[·]?)).map LabelKey.caseOf).getD (.endOf stmt)))
  sections.forM fun part ↦ do
    Construct.define (.caseOf part)
    layOut part
    Construct.onlyIf (flow.runsOn part) (Construct.emit (.branch (.endOf stmt)))
  Construct.define (.endOf stmt)

/-- A protected body or catch handler: it leaves to the end of its owner
(`regions/builder:467–476`). -/
def layOutProtected (flow : Flow) (layOut : StmtId → Construct Unit) (owner part : StmtId) :
    Construct Unit :=
  Construct.inScope part do
    layOut part
    Construct.onlyIf (flow.runsOn part) (Construct.emit (.leave (.endOf owner)))

/-- The handler of a region, which gets its bounds (`regions/builder:478–489`). -/
def layOutHandler (id : RegionId) (handler : Construct Unit) : Construct Unit := do
  let start := (← get).layout.offset
  handler
  let stop := (← get).layout.offset
  Construct.updateRegion id fun region ↦
    { region with handler := some (.ofLength start (stop - start)) }

/-- A catch clause: its filter, if it has one, and its handler (`regions/builder:513–542`). -/
def layOutCatch (flow : Flow) (layOut : StmtId → Construct Unit) (stmt : StmtId)
    (clause : CatchClause) (place : Nat) : Construct Unit := do
  let info : CatchInfo := ⟨place, clause.exceptionType, clause.binder, clause.isFiltered⟩
  Construct.onlyIf clause.isFiltered do
    let filter ← Construct.openRegion .filterBlock .user clause.body
    Construct.updateRegion filter fun region ↦ { region with catchInfo := some info }
    Construct.emit (.filter stmt place)
    Construct.emit .endFilter
    Construct.closeRegion filter []
  let handler ← Construct.openRegion .catchBlock .user clause.body
  Construct.updateRegion handler fun region ↦ { region with catchInfo := some info }
  flow.layOutProtected layOut stmt clause.body
  let exits ← flow.analyze ((ExitQuery.ofScope clause.body stmt).owning clause.body)
  Construct.closeRegion handler exits

/-- A `try`. The region of its handler is opened before all others and closed last, and the group
of the body and the catch clauses, if there are any, is closed before the handler
(`regions/builder:491–567`). -/
def layOutTry (flow : Flow) (layOut : StmtId → Construct Unit) (stmt : StmtId)
    (parts : TryStatement) : Construct Unit := do
  let outer ← parts.handler.mapM fun clause ↦ do
    return (← Construct.openRegion clause.kind.regionKind .user stmt, clause.body)
  let group ← if parts.catches.isEmpty then pure none
    else some <$> Construct.openRegion .tryBlock .user stmt
  let body ← Construct.openRegion .tryBlock .user parts.body
  flow.layOutProtected layOut stmt parts.body
  let exits ← flow.analyze (.ofScope parts.body stmt)
  Construct.closeRegion body exits
  parts.catches.zipIdx.forM fun (clause, place) ↦ flow.layOutCatch layOut stmt clause place
  let composite := ExitQuery.ofParts parts.protectedParts stmt stmt
  group.forM fun group ↦ do
    let exits ← flow.analyze composite
    Construct.closeRegion group exits
  outer.forM fun (outer, handler) ↦ do
    layOutHandler outer (Construct.inScope handler do
      layOut handler
      Construct.onlyIf (flow.runsOn handler) (Construct.emit .endFinally))
    let exits ← flow.analyze composite
    Construct.closeRegion outer exits
  Construct.define (.endOf stmt)

/-- A synthetic statement: the cleanup in a `finally`, or right behind the body, as was decided
(`regions/builder:569–607`). -/
def layOutSynthetic (flow : Flow) (layOut : StmtId → Construct Unit) (stmt : StmtId)
    (kind : SyntheticKind) (body : StmtId) : Construct Unit := do
  let decision ← Construct.takeDecision kind stmt
  if decision.isProtected then
    let outer ← Construct.openRegion .finallyBlock (.synthetic kind) stmt
    let guarded ← Construct.openRegion .tryBlock (.synthetic kind) body
    flow.layOutProtected layOut stmt body
    Construct.closeRegion guarded decision.exits
    layOutHandler outer do
      Construct.emit (.cleanup stmt kind)
      Construct.emit .endFinally
    Construct.closeRegion outer decision.exits
  else
    layOut body
    Construct.onlyIf (flow.runsOn body) (Construct.emit (.cleanup stmt kind))
  Construct.define (.endOf stmt)

/-- A statement of the given shape (`regions/builder:331–371`). -/
def layOutShape (flow : Flow) (layOut : StmtId → Construct Unit) (stmt : StmtId) :
    Statement → Construct Unit
  | .block children => children.forM layOut
  | .expression _ => Construct.emit (.code stmt)
  | .conditional _ thenBranch elseBranch =>
    flow.layOutConditional layOut stmt thenBranch elseBranch
  | .tryBlock parts => flow.layOutTry layOut stmt parts
  | .labeled label body => do
    Construct.define (.user label)
    layOut body
  | .jump _ => flow.layOutJump stmt
  | .throwException => Construct.emit .throwException
  | .rethrow => Construct.emit .rethrow
  | .loop condition body => flow.layOutLoop layOut stmt condition body
  | .switch sections default => flow.layOutSwitch layOut stmt sections default
  | .synthetic kind body => flow.layOutSynthetic layOut stmt kind body
  | .lambda _ => Construct.emit (.closure stmt)

/-- A statement. It is reported if it cannot run although the one around it can
(`regions/builder:323–372`). -/
def layOut (flow : Flow) : StmtId → Construct Unit :=
  flow.body.recurse
    (fun stmt layOut ↦
      match flow.body.get? stmt with
      | none => pure ()
      | some shape => do
        Construct.onlyIf (!flow.isReachable stmt && (flow.body.parent? stmt).any flow.isReachable)
          (Logged.report (.unreachable shape.name stmt))
        flow.layOutShape layOut stmt shape)
    (pure ())

/-- The return at the end of a method, where control can come to it by falling through, by a
branch or by a leave (`regions/builder:256–262`). -/
def layOutEpilogue (flow : Flow) (root : StmtId) : Construct Unit := do
  let layout := (← get).layout
  Construct.onlyIf (flow.runsOn root || layout.mentions .methodExit ||
      layout.targets layout.offset) do
    Construct.define .methodExit
    Construct.emit .ret

/-- The method at `root`, with a region around it (`regions/builder:249–266`). -/
def layOutMethod (flow : Flow) (root : StmtId) : Construct Unit := do
  let method ← Construct.openRegion .method .method root
  flow.layOut root
  flow.layOutEpilogue root
  let exits ← flow.analyze (.ofScope root root)
  Construct.closeRegion method exits

/-- Lays out the method at `root` and links its code (`regions/builder:249–269`). -/
def runMethod (flow : Flow) (decisions : List (StmtId × CleanupDecision)) (root : StmtId) :
    Logged RegionTree := do
  let ((), done) ← flow.layOutMethod root (.start decisions)
  let instructions ← Logged.ofResult done.layout.link
  return ⟨done.regions, instructions, root⟩

/-- Builds the region tree of the method at `root` (`regions/builder:137–152`). -/
def constructMethod (flow : Flow) (config : Config) (root : StmtId) : Logged RegionTree := do
  let decisions ← flow.decideMethod config root
  let tree ← flow.runMethod decisions root
  if config.validate then
    Logged.ofResult (tree.validate.mapError fun defect ↦ .malformed (.region defect))
  Logged.report (.built tree.regions.length tree.instructions.length root)
  return tree

end Flow
end ProtectedRegions
