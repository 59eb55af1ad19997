import ProtectedRegions.Body.Basic

/-!
# Roles

The part that a statement plays for its parent: the parts of `try`, synthetic and lambda
statements are scopes of the exception model, all other statements are ordinary. The method
of a statement and the handler it would rethrow from are found by looking outward for a role.
-/

namespace ProtectedRegions

/-- The part a statement plays for its parent (`analysis/cfg/graph:23–34`). -/
inductive Role where
  | tryBody
  | catchBody (clause : Nat)
  | handler (kind : HandlerKind)
  | syntheticBody (kind : SyntheticKind)
  | lambdaBody
  deriving DecidableEq, Repr

namespace Role

/-- Whether the scope is a protected block or a handler (`analysis/cfg/graph:39–41`). -/
def isProtected : Role → Bool
  | .lambdaBody => false
  | _ => true

/-- Whether a rethrow looks no further out: it belongs to a catch body, and may cross neither a
`finally` nor a `fault` nor the border of a lambda (`analysis/cfg/graph:398–402`). -/
def endsRethrow : Role → Bool
  | .catchBody _ | .handler _ | .lambdaBody => true
  | _ => false

/-- Whether the scope is the body of a catch clause. -/
def isCatch : Role → Bool
  | .catchBody _ => true
  | _ => false

instance : ToString Role where
  toString
    | .tryBody => "TryBody"
    | .catchBody clause => s!"CatchBody {clause}"
    | .handler kind => s!"Handler {kind}"
    | .syntheticBody kind => s!"SyntheticBody {kind}"
    | .lambdaBody => "LambdaBody"

end Role

/-- The role of a child of a `try` (`analysis/cfg/graph:372–383`). -/
def TryStatement.role? (parts : TryStatement) (stmt : StmtId) : Option Role :=
  if parts.body = stmt then some .tryBody
  else match parts.catches.findIdx? (·.body == stmt) with
    | some clause => some (.catchBody clause)
    | none => (parts.handler.filter (·.body == stmt)).map fun clause ↦ .handler clause.kind

namespace Body

/-- The role of a statement (`analysis/cfg/graph:369–388`). -/
def role? (body : Body) (stmt : StmtId) : Option Role :=
  match body.parentShape? stmt with
  | some (.tryBlock parts) => parts.role? stmt
  | some (.synthetic kind _) => some (.syntheticBody kind)
  | some (.lambda _) => some .lambdaBody
  | _ => none

/-- The root of the method that a statement runs in: the innermost lambda body around it, or
the root of the body. -/
def methodOf (body : Body) (stmt : StmtId) : StmtId :=
  ((body.lineage stmt).find? (body.role? · == some .lambdaBody)).getD body.root

/-- The catch body whose exception a rethrow at the statement would raise again
(`analysis/cfg/graph:395–404`). -/
def rethrowOwner? (body : Body) (stmt : StmtId) : Option StmtId :=
  ((body.lineage stmt).find? fun scope ↦ (body.role? scope).any (·.endsRethrow)).filter
    fun scope ↦ (body.role? scope).any (·.isCatch)

/-- The `finally` body that runs when the given protected part is left
(`analysis/cfg/graph:315–324`). -/
def finallyOf? (body : Body) (part : StmtId) : Option StmtId :=
  match body.role? part, body.parentShape? part with
  | some .tryBody, some (.tryBlock parts) => parts.finallyBody?
  | some (.catchBody _), some (.tryBlock parts) => parts.finallyBody?
  | _, _ => none

end Body
end ProtectedRegions
