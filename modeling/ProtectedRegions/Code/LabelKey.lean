import ProtectedRegions.Ids

/-!
# Label keys

The places of a method that a branch can name before their offsets are known.
-/

namespace ProtectedRegions

/-- A place that a branch can name (`codegen/layout:17–30`). -/
inductive LabelKey where
  /-- A label of the program. -/
  | user (label : LabelId)
  /-- The condition of a loop. -/
  | head (loop : StmtId)
  /-- The start of a switch section. -/
  | caseOf (stmt : StmtId)
  /-- The start of an `else` branch. -/
  | elseOf (stmt : StmtId)
  /-- The point behind a statement. -/
  | endOf (stmt : StmtId)
  /-- The epilogue of the method. -/
  | methodExit
  deriving DecidableEq, Repr

instance : ToString LabelKey where
  toString
    | .user label => s!"User({label})"
    | .head loop => s!"Head({loop})"
    | .caseOf stmt => s!"Case({stmt})"
    | .elseOf stmt => s!"Else({stmt})"
    | .endOf stmt => s!"EndOf({stmt})"
    | .methodExit => "MethodExit"

end ProtectedRegions
