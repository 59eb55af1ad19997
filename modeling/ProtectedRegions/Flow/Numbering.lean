import ProtectedRegions.Body.Traversal

/-!
# Numberings

One walk around the tree of a body numbers its visits: each statement is entered before and left
after all that is in it. The numbers of the two visits bracket those of the statements inside, so
containment is a comparison of numbers. On its way the walk hands the method of each statement
down to the children.
-/

namespace ProtectedRegions

/-- The numbers of the visits that enter and leave each statement, and the root of the method that
the statement runs in (`analysis/cfg/graph:115–122`). -/
structure Numbering where
  pre : Array Nat
  post : Array Nat
  methods : Array StmtId
  deriving DecidableEq, Repr

/-- A numbering on the way, with the number of the next visit. -/
structure Tally extends Numbering where
  next : Nat
  deriving DecidableEq, Repr

namespace Tally

/-- Before the first visit every statement is in the outer method
(`analysis/cfg/graph:143–149`). -/
def start (body : Body) : Tally where
  pre := Array.replicate body.size 0
  post := Array.replicate body.size 0
  methods := Array.replicate body.size body.root
  next := 0

/-- The body of the method that a lambda creates. -/
def lambdaBody? (body : Body) (stmt : StmtId) : Option StmtId :=
  match body.get? stmt with
  | some (.lambda inner) => some inner
  | _ => none

/-- Puts the children of a statement in a method, the last child first: the body of a lambda in
its own, all others in that of the statement (`analysis/cfg/graph:209–217`). -/
def handDown (body : Body) (stmt : StmtId) (methods : Array StmtId) : Array StmtId :=
  (body.children stmt).reverse.foldl (fun methods child ↦
    methods.setIfInBounds child.index
      ((lambdaBody? body stmt).getD (methods[stmt.index]?.getD body.root))) methods

/-- Numbers a visit (`analysis/cfg/graph:198–217`). -/
def visit (body : Body) : Visit → Tally → Tally
  | .enter stmt, tally =>
    { pre := tally.pre.setIfInBounds stmt.index tally.next
      post := tally.post
      methods := handDown body stmt tally.methods
      next := tally.next + 1 }
  | .leave stmt, tally =>
    { tally with
      post := tally.post.setIfInBounds stmt.index tally.next
      next := tally.next + 1 }

end Tally

namespace Numbering

/-- Walks around a body (`analysis/cfg/graph:190–219`). -/
def ofBody (body : Body) : Numbering :=
  (workOff (fun visit tally ↦ pure (Tally.visit body visit tally)) body.visits body.walkSteps
    [.enter body.root] (Tally.start body) : Id Tally).run.toNumbering

/-- Whether `inner` is `outer` or lies inside it. Nothing contains or is contained in an id
that names no statement (`analysis/cfg/graph:337–343`). -/
def contains (numbering : Numbering) (outer inner : StmtId) : Bool :=
  match numbering.pre[outer.index]?, numbering.pre[inner.index]?,
    numbering.post[outer.index]?, numbering.post[inner.index]? with
  | some preOuter, some preInner, some postOuter, some postInner =>
    preOuter ≤ preInner && postInner ≤ postOuter
  | _, _, _, _ => false

/-- The root of the method of a statement; an id that names no statement is in the outer method,
whose root is given (`analysis/cfg/graph:348–353`). -/
def methodOf (numbering : Numbering) (root stmt : StmtId) : StmtId :=
  numbering.methods[stmt.index]?.getD root

end Numbering
end ProtectedRegions
