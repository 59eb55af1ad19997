import ProtectedRegions.Body.Table

/-!
# Method bodies

A body is a tree of statements kept in a table, with the parent of each statement and the
place of each label. `Draft.toBody` makes bodies and sees to it that they are trees. The
bodies of lambdas live in the same table, and each is a method of its own.
-/

namespace ProtectedRegions

/-- A tree of statements with its root (`body/method:15–21`). -/
structure Body where
  statements : StatementTable
  root : StmtId
  parents : Array (Option StmtId)
  /-- Each defined label with the statement that defines it. -/
  definitions : List (LabelId × StmtId)
  localCount : Nat
  deriving DecidableEq, Repr

namespace Body

/-- The number of statements (`body/method:32–34`). -/
def size (body : Body) : Nat := body.statements.size

/-- The ids of the statements in increasing order. -/
def ids (body : Body) : List StmtId := body.statements.ids

/-- The statements with their ids, in id order (`body/method:80–82`). -/
def entries (body : Body) : List (StmtId × Statement) := body.statements.entries

/-- Whether the id names a statement of the body (`body/method:59–61`). -/
def has (body : Body) (stmt : StmtId) : Bool := stmt.index < body.size

/-- The shape of a statement (`body/method:50–52`). -/
def get? (body : Body) (stmt : StmtId) : Option Statement := body.statements.shape? stmt

/-- The child statements in document order; none for an unknown id. -/
def children (body : Body) (stmt : StmtId) : List StmtId := body.statements.childrenOf stmt

/-- The statement of which this one is a child (`body/method:69–71`). -/
def parent? (body : Body) (stmt : StmtId) : Option StmtId := body.parents[stmt.index]?.join

/-- The shape of the parent. -/
def parentShape? (body : Body) (stmt : StmtId) : Option Statement :=
  (body.parent? stmt).bind body.get?

/-- The statement that defines a label (`body/method:75–77`). -/
def labelTarget? (body : Body) (label : LabelId) : Option StmtId :=
  body.definitions.lookup label

/-- Whether the statement creates a closure. -/
def isLambda (body : Body) (stmt : StmtId) : Bool := (body.get? stmt).any (·.isLambda)

/-- The bodies of all lambdas, in the order of the statements that create them
(`body/method:85–90`). -/
def lambdaBodies (body : Body) : List StmtId :=
  body.statements.toList.filterMap fun
    | .lambda inner => some inner
    | _ => none

/-- The roots of the methods: the outer one, then the lambda bodies
(`analysis/cfg/graph:193–194`). -/
def methods (body : Body) : List StmtId := body.root :: body.lambdaBodies

/-- A statement and those around it, innermost first, at most `depth` steps out. -/
def lineageTo (body : Body) : Nat → StmtId → List StmtId
  | 0, stmt => [stmt]
  | depth + 1, stmt =>
    match body.parent? stmt with
    | none => [stmt]
    | some parent => stmt :: body.lineageTo depth parent

/-- A statement and all those around it, innermost first. -/
def lineage (body : Body) (stmt : StmtId) : List StmtId := body.lineageTo body.size stmt

/-- The statements around a statement, innermost first (`body/method:93–95`). -/
def ancestors (body : Body) (stmt : StmtId) : List StmtId := (body.lineage stmt).tail

/-- Recursion over the tree of the body. -/
def recurse {α : Type} (body : Body) (step : StmtId → (StmtId → α) → α) (cut : α) :
    StmtId → α :=
  body.statements.recurse step cut

/-- The statements at and below one that run in the same method, in document order. Lambdas
are left out with all that is in them. -/
def inMethod (body : Body) : StmtId → List StmtId :=
  body.recurse
    (fun stmt below ↦
      if body.isLambda stmt then [] else stmt :: (body.children stmt).flatMap below) []

/-- A lineage starts at its own statement. -/
theorem lineageTo_head? (body : Body) (depth : Nat) (stmt : StmtId) :
    (body.lineageTo depth stmt).head? = some stmt := by
  cases depth with
  | zero => rfl
  | succ depth =>
    unfold lineageTo
    split <;> rfl

/-- A lineage is its statement and the ancestors of it. -/
theorem lineage_eq_cons (body : Body) (stmt : StmtId) :
    body.lineage stmt = stmt :: body.ancestors stmt := by
  have h := body.lineageTo_head? body.size stmt
  obtain ⟨outer, h⟩ := List.head?_eq_some_iff.mp h
  rw [ancestors, lineage, h, List.tail_cons]

end Body
end ProtectedRegions
