import ProtectedRegions.Ids

/-!
# Statements

The shapes a statement of a method body can take. Children are named by id, so a statement
alone says nothing about the tree it hangs in. Desugared resource statements arrive as
`synthetic`: a body followed by a cleanup.
-/

namespace ProtectedRegions

/-- What is known about a condition before the program runs (`body/statement:141–148`). -/
inductive Condition where
  | always
  | never
  | unknown
  deriving DecidableEq, Repr

/-- Every condition, in declaration order. -/
def Condition.all : List Condition := [.always, .never, .unknown]

instance : ToString Condition where
  toString
    | .always => "Always"
    | .never => "Never"
    | .unknown => "Unknown"

/-- The desugared statements that end in a cleanup (`body/statement:152–161`). -/
inductive SyntheticKind where
  /-- Disposes a resource. -/
  | resource
  /-- Releases a monitor. -/
  | lock
  /-- Unpins memory. -/
  | fixed
  /-- Disposes an enumerator. -/
  | forEach
  deriving DecidableEq, Repr

/-- Every synthetic kind, in declaration order. -/
def SyntheticKind.all : List SyntheticKind := [.resource, .lock, .fixed, .forEach]

instance : ToString SyntheticKind where
  toString
    | .resource => "Using"
    | .lock => "Lock"
    | .fixed => "Fixed"
    | .forEach => "ForEach"

/-- The two kinds of handler that belong to a `try` as a whole (`body/statement:165–170`). -/
inductive HandlerKind where
  /-- Runs on every exit of the protected part. -/
  | finallyBlock
  /-- Runs only when an exception leaves the protected part. -/
  | faultBlock
  deriving DecidableEq, Repr

/-- Every handler kind, in declaration order. -/
def HandlerKind.all : List HandlerKind := [.finallyBlock, .faultBlock]

instance : ToString HandlerKind where
  toString
    | .finallyBlock => "Finally"
    | .faultBlock => "Fault"

/-- A catch clause. Without a type it catches everything; a filter is given by the locals it reads
(`body/statement:174–201`). -/
structure CatchClause where
  exceptionType : Option String
  filter : Option (List LocalId)
  binder : Option LocalId
  body : StmtId
  deriving DecidableEq, Repr

/-- Whether the clause is guarded by a filter. -/
def CatchClause.isFiltered (clause : CatchClause) : Bool := clause.filter.isSome

/-- The `finally` or `fault` part of a `try` (`body/statement:239–244`). -/
structure HandlerClause where
  kind : HandlerKind
  body : StmtId
  deriving DecidableEq, Repr

/-- A `try` with its catch clauses in source order (`body/statement:250–257`). -/
structure TryStatement where
  body : StmtId
  catches : List CatchClause
  handler : Option HandlerClause
  deriving DecidableEq, Repr

namespace TryStatement

/-- The body and the catch bodies: the parts that a `finally` protects
(`regions/builder:540–546`). -/
def protectedParts (parts : TryStatement) : List StmtId :=
  parts.body :: parts.catches.map (·.body)

/-- The body of the `finally` handler, if there is one (`analysis/cfg/graph:315–324`). -/
def finallyBody? (parts : TryStatement) : Option StmtId :=
  (parts.handler.filter (·.kind == .finallyBlock)).map (·.body)

end TryStatement

/-- The transfers of control that arrive at a place in the same method
(`body/statement:261–325`). -/
inductive Jump where
  | goto (label : LabelId)
  /-- To the end of the nearest loop or switch. -/
  | breakOut
  /-- To the condition of the nearest loop. -/
  | continueLoop
  /-- Out of the method. -/
  | returnOut
  deriving DecidableEq, Repr

/-- The word for a jump (`body/statement:374–392`). -/
def Jump.name : Jump → String
  | .goto _ => "goto"
  | .breakOut => "break"
  | .continueLoop => "continue"
  | .returnOut => "return"

/-- The shape of a statement (`body/statement:261–325`). -/
inductive Statement where
  | block (children : List StmtId)
  | expression (uses : List LocalId)
  | conditional (condition : Condition) (thenBranch : StmtId) (elseBranch : Option StmtId)
  | tryBlock (parts : TryStatement)
  | labeled (label : LabelId) (body : StmtId)
  | jump (form : Jump)
  | throwException
  | rethrow
  | loop (condition : Condition) (body : StmtId)
  | switch (sections : List StmtId) (default : Option Nat)
  | synthetic (kind : SyntheticKind) (body : StmtId)
  /-- A closure; its body is a method of its own. -/
  | lambda (body : StmtId)
  deriving DecidableEq, Repr

namespace Statement

/-- The child statements in document order (`body/statement:333–358`). -/
def children : Statement → List StmtId
  | .block children => children
  | .conditional _ thenBranch elseBranch => thenBranch :: elseBranch.toList
  | .tryBlock parts => parts.protectedParts ++ (parts.handler.map (·.body)).toList
  | .labeled _ body | .loop _ body | .synthetic _ body | .lambda body => [body]
  | .switch sections _ => sections
  | .expression _ | .jump _ | .throwException | .rethrow => []

/-- The word for the shape of a statement (`body/statement:374–392`). -/
def name : Statement → String
  | .block _ => "block"
  | .expression _ => "expression"
  | .conditional .. => "if"
  | .tryBlock _ => "try"
  | .labeled .. => "labeled"
  | .jump form => form.name
  | .throwException => "throw"
  | .rethrow => "rethrow"
  | .loop .. => "loop"
  | .switch .. => "switch"
  | .synthetic .. => "synthetic"
  | .lambda _ => "lambda"

/-- Whether the statement is a jump (`body/statement:362–370`). -/
def isJump : Statement → Bool
  | .jump _ => true
  | _ => false

/-- Whether the statement creates a closure. -/
def isLambda : Statement → Bool
  | .lambda _ => true
  | _ => false

/-- Whether a `break` inside the statement may end it (`analysis/cfg/graph:247–249`). -/
def isBreakable : Statement → Bool
  | .loop .. | .switch .. => true
  | _ => false

/-- Whether a `continue` inside the statement may go back to its head (`analysis/cfg/graph:252`). -/
def isLoop : Statement → Bool
  | .loop .. => true
  | _ => false

/-- `try` with a `finally` alone (`body/builder:111–113`). -/
def tryFinally (body handler : StmtId) : Statement :=
  .tryBlock ⟨body, [], some ⟨.finallyBlock, handler⟩⟩

/-- `try` with a `fault` alone (`body/builder:116–125`). -/
def tryFault (body handler : StmtId) : Statement :=
  .tryBlock ⟨body, [], some ⟨.faultBlock, handler⟩⟩

/-- `try` with catch clauses alone (`body/builder:128–134`). -/
def tryCatch (body : StmtId) (catches : List CatchClause) : Statement :=
  .tryBlock ⟨body, catches, none⟩

/-- `try` with catch clauses and a `finally` (`body/builder:137–151`). -/
def tryCatchFinally (body : StmtId) (catches : List CatchClause) (handler : StmtId) : Statement :=
  .tryBlock ⟨body, catches, some ⟨.finallyBlock, handler⟩⟩

end Statement
end ProtectedRegions
