import ProtectedRegions.Code.LabelKey
import ProtectedRegions.Digraph
import ProtectedRegions.Region.Defect

/-!
# Errors

Every reason to refuse a body, a query or a stream of instructions. The constructors carry
the ids at fault; the wording is given once, by `message`.
-/

namespace ProtectedRegions

/-- A body or a tree that breaks a rule of the language or of the exception model
(`error:61–81`). -/
inductive Malformed where
  | rootIsChild (root parent : StmtId)
  | labelDefinedTwice (label : LabelId) (first second : StmtId)
  | tryWithoutHandler (stmt : StmtId)
  | localBoundTwice (binder : LocalId)
  | defaultOutOfRange (stmt : StmtId) (sections : Nat)
  | adoptedTwice (child first second : StmtId)
  | detached (stmt : StmtId)
  | gotoAcrossLambda (jump : StmtId) (label : LabelId)
  | breakOutside (jump : StmtId)
  | continueOutside (jump : StmtId)
  | leavesHandler (form : Jump) (jump : StmtId) (kind : HandlerKind)
  | entersProtected (jump scope : StmtId)
  | rethrowOutside (stmt : StmtId)
  | localReadOutside (binder : LocalId) (reader handler : StmtId)
  | filterReadsForeign (clause : Nat) (stmt : StmtId) (binder : LocalId) (handler : StmtId)
  | undecided (kind : SyntheticKind) (stmt : StmtId)
  | targetUnresolved (jump : StmtId)
  | neverOpened (id : RegionId)
  | labelPlacedTwice (label : LabelKey) (first second : Nat)
  | labelNeverPlaced (label : LabelKey)
  | noTargetSlot (instruction slot : Nat)
  | region (defect : RegionDefect)
  deriving DecidableEq, Repr

/-- The wording of a broken rule. -/
def Malformed.message : Malformed → String
  | .rootIsChild root parent => s!"method root {root} is used as a child of {parent}"
  | .labelDefinedTwice label first second =>
    s!"label {label} is defined by both {first} and {second}"
  | .tryWithoutHandler stmt => s!"try statement {stmt} has neither catch nor finally"
  | .localBoundTwice binder =>
    s!"exception local {binder} is bound by more than one catch clause"
  | .defaultOutOfRange stmt sections =>
    s!"switch {stmt} names a default section outside its {sections} sections"
  | .adoptedTwice child first second =>
    s!"statement {child} is adopted by both {first} and {second}"
  | .detached stmt => s!"statement {stmt} is not reachable from the method root"
  | .gotoAcrossLambda jump label =>
    s!"goto {jump} targets label {label} across a lambda boundary"
  | .breakOutside jump => s!"break {jump} has no enclosing loop or switch"
  | .continueOutside jump => s!"continue {jump} has no enclosing loop"
  | .leavesHandler form jump kind => s!"{form.name} {jump} leaves a {kind} handler"
  | .entersProtected jump scope => s!"goto {jump} jumps into protected scope {scope}"
  | .rethrowOutside stmt => s!"rethrow {stmt} is not directly inside a catch handler"
  | .localReadOutside binder reader handler =>
    s!"exception local {binder} read by {reader} outside its handler {handler}"
  | .filterReadsForeign clause stmt binder handler =>
    s!"filter {clause} of {stmt} reads exception local {binder} of handler {handler}"
  | .undecided kind stmt => s!"no protection decision for {kind} {stmt}"
  | .targetUnresolved jump => s!"jump {jump} has no resolved target"
  | .neverOpened id => s!"region {id} was never opened"
  | .labelPlacedTwice label first second =>
    s!"label {label} placed twice, at {first} and {second}"
  | .labelNeverPlaced label => s!"label {label} referenced but never placed"
  | .noTargetSlot instruction slot => s!"instruction {instruction} has no target slot {slot}"
  | .region defect => defect.message

/-- Why an operation has no result (`error:60–97`). -/
inductive Error where
  | malformed (cause : Malformed)
  /-- A label that is named but defined nowhere. -/
  | unresolvedLabel (label : LabelId)
  /-- An id that names no statement of the body. -/
  | unknownStatement (stmt : StmtId)
  /-- An edge between nodes that are not in the graph. -/
  | missingNode (cause : Digraph.MissingNode)
  deriving DecidableEq, Repr

/-- The wording of an error (`error:60–97`). -/
def Error.message : Error → String
  | .malformed cause => cause.message
  | .unresolvedLabel label => s!"Label {label} is referenced but never defined"
  | .unknownStatement stmt => s!"Statement {stmt} does not belong to this method body"
  | .missingNode cause => cause.message

end ProtectedRegions
