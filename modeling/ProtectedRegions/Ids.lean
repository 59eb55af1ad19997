/-!
# Identifiers and offsets

Statements, labels, locals and regions are named by their position in the table that holds
them. Each kind of name has its own type, so that one is never taken for another, and its
own text. Instructions are named by their offset in the stream.
-/

namespace ProtectedRegions

/-- A statement, and at the same time the lexical scope it opens (`body/statement:18–46`). -/
structure StmtId where
  index : Nat
  deriving DecidableEq, Repr, Inhabited

/-- A label that a statement may define and a `goto` may name (`body/statement:50–78`). -/
structure LabelId where
  index : Nat
  deriving DecidableEq, Repr, Inhabited

/-- A local variable of the method (`body/statement:82–110`). -/
structure LocalId where
  index : Nat
  deriving DecidableEq, Repr, Inhabited

/-- A region of a region tree, numbered in the order in which regions start
(`regions/region:18–46`). -/
structure RegionId where
  index : Nat
  deriving DecidableEq, Repr, Inhabited

instance : ToString StmtId where
  toString s := s!"S{s.index}"

instance : ToString LabelId where
  toString l := s!"L{l.index}"

instance : ToString LocalId where
  toString v := s!"V_{v.index}"

instance : ToString RegionId where
  toString r := s!"R{r.index}"

/-- The text of an instruction offset: lower-case hexadecimal, at least four digits wide
(`codegen/instruction:14–16`). -/
def offsetText (offset : Nat) : String :=
  "IL_" ++ String.ofList ((Nat.toDigits 16 offset).leftpad 4 '0')

end ProtectedRegions
