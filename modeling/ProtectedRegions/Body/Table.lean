import ProtectedRegions.Statement

/-!
# Statement tables

Statements kept by id. A table may name children that it does not hold, and need not be a
tree; drafts and bodies are tables of which more is known. Recursion over a table follows the
children to a fixed depth. In a tree the number of statements is depth enough, so what stands
for the statements below is never seen.
-/

namespace ProtectedRegions

/-- Statements by id. -/
abbrev StatementTable := Array Statement

namespace StatementTable

/-- The shape of a statement. -/
def shape? (table : StatementTable) (stmt : StmtId) : Option Statement := table[stmt.index]?

/-- The children that a statement names, in document order; none for an unknown id. -/
def childrenOf (table : StatementTable) (stmt : StmtId) : List StmtId :=
  match table.shape? stmt with
  | some shape => shape.children
  | none => []

/-- The ids of the statements in increasing order. -/
def ids (table : StatementTable) : List StmtId := (List.range table.size).map StmtId.mk

/-- The statements with their ids, in id order. -/
def entries (table : StatementTable) : List (StmtId × Statement) :=
  table.toList.zipIdx.map fun (shape, index) ↦ (⟨index⟩, shape)

/-- Follows `step` from a statement, `depth` statements deep. The step is given the way to go
on at any other statement; `cut` stands for all statements below the depth. -/
def descend {α : Type} (step : StmtId → (StmtId → α) → α) (cut : α) : Nat → StmtId → α
  | 0, _ => cut
  | depth + 1, stmt => step stmt (descend step cut depth)

/-- Recursion over a table that is a tree. -/
def recurse {α : Type} (table : StatementTable) (step : StmtId → (StmtId → α) → α) (cut : α) :
    StmtId → α :=
  descend step cut table.size

/-- The statements at and below one, parents first and children in document order. -/
def preorder (table : StatementTable) : StmtId → List StmtId :=
  table.recurse (fun stmt below ↦ stmt :: (table.childrenOf stmt).flatMap below) []

/-- An id is listed if it is below the size of the table. -/
theorem mem_ids {table : StatementTable} {stmt : StmtId} :
    stmt ∈ table.ids ↔ stmt.index < table.size := by
  cases stmt
  simp [ids]

/-- The shapes of the entries are those of the table. -/
theorem mem_entries {table : StatementTable} {stmt : StmtId} {shape : Statement} :
    (stmt, shape) ∈ table.entries ↔ table.shape? stmt = some shape := by
  cases stmt
  simp only [entries, shape?, List.mem_map, Prod.exists, List.mem_zipIdx_iff_getElem?]
  constructor
  · rintro ⟨other, index, h, heq⟩
    cases heq
    simpa using h
  · intro h
    exact ⟨shape, _, by simpa using h, rfl⟩

end StatementTable
end ProtectedRegions
