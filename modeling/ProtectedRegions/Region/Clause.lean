import ProtectedRegions.Region.Tree

/-!
# Exception clauses

The flat form of a region tree: one clause for each catch, `finally` and `fault`, naming its
protected span and its handler span. Inner clauses come before outer ones, which is the order
in which handlers are searched.
-/

namespace ProtectedRegions

/-- The flag bits of a clause; no bit is a typed clause (`codegen/clauses:24–39`). -/
structure ClauseFlags where
  bits : Nat
  deriving DecidableEq, Repr

namespace ClauseFlags

/-- A clause that catches by type. -/
def typed : ClauseFlags := ⟨0⟩
/-- A clause whose filter decides. -/
def filter : ClauseFlags := ⟨1⟩
/-- A clause that runs on every exit. -/
def finallyBlock : ClauseFlags := ⟨2⟩
/-- A clause that runs on exceptional exits. -/
def faultBlock : ClauseFlags := ⟨4⟩

/-- Keeps the three bits that mean something. -/
def truncate (bits : Nat) : ClauseFlags := ⟨bits % 8⟩

/-- Whether the bit of a one-bit flag is set. -/
def has (flags flag : ClauseFlags) : Bool := flags.bits &&& flag.bits != 0

end ClauseFlags

/-- One entry of the clause table (`codegen/clauses:58–75`). -/
structure Clause where
  flags : ClauseFlags
  protectedSpan : Span
  handlerSpan : Span
  exceptionType : Option String
  filterStart : Option Nat
  region : RegionId
  deriving DecidableEq, Repr

namespace Clause

/-- Whether the handler runs on normal exits too (`codegen/clauses:80–82`). -/
def isFinally (clause : Clause) : Bool := clause.flags.has .finallyBlock

/-- Whether both spans of `inner` lie in the protected span of `outer` (`codegen/clauses:87–93`). -/
def encloses (outer inner : Clause) : Bool :=
  outer.protectedSpan.encloses inner.protectedSpan &&
    outer.protectedSpan.encloses inner.handlerSpan

/-- What the clause catches (`codegen/clauses:104–115`). -/
def selector (clause : Clause) : String :=
  if clause.flags.has .filter then s!"filter {offsetText (clause.filterStart.getD 0)}"
  else if clause.flags.has .finallyBlock then "finally"
  else if clause.flags.has .faultBlock then "fault"
  else "catch " ++ clause.exceptionType.getD "[any]"

instance : ToString Clause where
  toString clause :=
    s!".try {offsetText clause.protectedSpan.start} to {offsetText clause.protectedSpan.stop} " ++
      s!"{clause.selector} handler {offsetText clause.handlerSpan.start} " ++
      s!"to {offsetText clause.handlerSpan.stop}"

end Clause

namespace RegionTree

/-- The clauses of the catch handlers of a group. `previous` is the region to the left of the
remaining ones: a filter there belongs to the handler that follows (`codegen/clauses:169–205`). -/
def catchClauses (protectedSpan : Span) (previous : Region) : List Region → List Clause
  | [] => []
  | region :: rest =>
    let later := catchClauses protectedSpan region rest
    if region.kind = .catchBlock then
      let filtered := previous.kind = .filterBlock
      { flags := if filtered then .filter else .typed
        protectedSpan
        handlerSpan := region.span
        exceptionType := region.catchInfo.bind (·.exceptionType)
        filterStart := if filtered then some previous.span.start else none
        region := region.id } :: later
    else later

/-- The clause of the handler that a region holds itself (`codegen/clauses:142–160`). -/
def handlerClause (flags : ClauseFlags) (region body : Region) : List Clause :=
  region.handler.toList.map fun handler ↦
    { flags
      protectedSpan := body.span
      handlerSpan := handler
      exceptionType := none
      filterStart := none
      region := region.id }

/-- The clauses that a region stands for (`codegen/clauses:140–162`). -/
def clausesOf (tree : RegionTree) (region : Region) : List Clause :=
  match region.kind, tree.childRegions region with
  | .tryBlock, body :: rest => catchClauses body.span body rest
  | .finallyBlock, body :: _ => handlerClause .finallyBlock region body
  | .faultBlock, body :: _ => handlerClause .faultBlock region body
  | _, _ => []

/-- The clause table, inner clauses before outer ones (`codegen/clauses:126–166`). -/
def clauses (tree : RegionTree) : List Clause :=
  tree.postorder.flatMap tree.clausesOf

end RegionTree
end ProtectedRegions
