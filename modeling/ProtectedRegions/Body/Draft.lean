import ProtectedRegions.BitSet
import ProtectedRegions.Body.Basic
import ProtectedRegions.Error

/-!
# Drafts of bodies

A draft is a list of statements of arbitrary shape, whose children may be anything. `toBody`
accepts exactly the drafts that are trees: each statement but the root hangs at one place,
labels and catch locals are defined once, and every `goto` names a defined label.
-/

namespace ProtectedRegions

/-- Statements by id, with the numbers of labels and locals set aside for them
(`body/builder:40–44`). -/
structure Draft where
  statements : StatementTable
  labelCount : Nat
  localCount : Nat
  root : StmtId
  deriving DecidableEq, Repr

namespace Draft

/-- The number of statements. -/
def size (draft : Draft) : Nat := draft.statements.size

/-- A child is a statement of the draft other than the root (`body/builder:244–253`). -/
def checkChild (draft : Draft) (stmt child : StmtId) : Except Error Unit :=
  if draft.size ≤ child.index then .error (.unknownStatement child)
  else if child = draft.root then .error (.malformed (.rootIsChild draft.root stmt))
  else .ok ()

/-- What the statements read so far define: labels, the latest first, and catch locals
(`body/builder:238–239`). -/
structure Census where
  definitions : List (LabelId × StmtId)
  binders : List LocalId
  deriving DecidableEq, Repr

/-- Adds the definition of a label that was set aside and is still free (`body/builder:258–270`). -/
def Census.defineLabel (labelCount : Nat) (stmt : StmtId) (label : LabelId) (census : Census) :
    Except Error Census :=
  if labelCount ≤ label.index then .error (.unresolvedLabel label)
  else match census.definitions.lookup label with
    | some first => .error (.malformed (.labelDefinedTwice label first stmt))
    | none => .ok { census with definitions := (label, stmt) :: census.definitions }

/-- Adds a catch local that no other clause binds (`body/builder:278–285`). -/
def Census.bind (census : Census) (binder : LocalId) : Except Error Census :=
  if binder ∈ census.binders then .error (.malformed (.localBoundTwice binder))
  else .ok { census with binders := binder :: census.binders }

/-- Checks one statement and adds what it defines (`body/builder:242–298`). -/
def Census.record (draft : Draft) (census : Census) (entry : StmtId × Statement) :
    Except Error Census := do
  let (stmt, shape) := entry
  shape.children.forM (draft.checkChild stmt)
  match shape with
  | .labeled label _ => census.defineLabel draft.labelCount stmt label
  | .tryBlock parts =>
    if parts.catches.isEmpty && parts.handler.isNone then
      .error (.malformed (.tryWithoutHandler stmt))
    else (parts.catches.filterMap (·.binder)).foldlM Census.bind census
  | .switch sections (some default) =>
    if sections.length ≤ default then
      .error (.malformed (.defaultOutOfRange stmt sections.length))
    else .ok census
  | _ => .ok census

/-- The census of all statements (`body/builder:238–298`). -/
def census (draft : Draft) : Except Error Census :=
  draft.statements.entries.foldlM (Census.record draft) ⟨[], []⟩

/-- Every child with the statement that names it, in id order of the latter
(`body/builder:240–255`). -/
def adoptions (draft : Draft) : List (StmtId × StmtId) :=
  draft.statements.entries.flatMap fun (stmt, shape) ↦ shape.children.map (·, stmt)

/-- Enters a parent for a child that has none (`body/builder:301–309`). -/
def adopt (parents : Array (Option StmtId)) (adoption : StmtId × StmtId) :
    Except Error (Array (Option StmtId)) :=
  let (child, parent) := adoption
  match parents[child.index]?.join with
  | some first => .error (.malformed (.adoptedTwice child first parent))
  | none => .ok (parents.setIfInBounds child.index (some parent))

/-- The parent of every statement, provided that none has two (`body/builder:300–310`). -/
def parents (draft : Draft) : Except Error (Array (Option StmtId)) :=
  draft.adoptions.foldlM adopt (Array.replicate draft.size none)

/-- The first statement that does not hang off the root (`body/builder:312–324`). -/
def detached? (draft : Draft) : Option StmtId :=
  let attached := draft.statements.preorder draft.root
  let reached := BitSet.ofList draft.size (attached.map (·.index))
  draft.statements.ids.find? (!reached.contains ·.index)

/-- The first label that a `goto` names and no statement defines (`body/builder:326–332`). -/
def undefinedLabel? (draft : Draft) (definitions : List (LabelId × StmtId)) : Option LabelId :=
  draft.statements.toList.findSome? fun
    | .jump (.goto label) => if (definitions.lookup label).isNone then some label else none
    | _ => none

/-- The body of a draft that is a tree (`body/builder:232–340`). -/
def toBody (draft : Draft) : Except Error Body := do
  if draft.size ≤ draft.root.index then .error (.unknownStatement draft.root)
  let census ← draft.census
  let parents ← draft.parents
  if let some stmt := draft.detached? then .error (.malformed (.detached stmt))
  if let some label := draft.undefinedLabel? census.definitions then
    .error (.unresolvedLabel label)
  return {
    statements := draft.statements
    root := draft.root
    parents
    definitions := census.definitions
    localCount := draft.localCount }

end Draft
end ProtectedRegions
