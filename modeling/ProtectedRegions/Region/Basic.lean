import ProtectedRegions.Exit.Edge
import ProtectedRegions.Statement

/-!
# Regions

A region is a span of the instruction stream with the part it plays in the exception model:
a whole method, a protected block, a handler or a filter. `finally` and `fault` regions wrap
their protected block and hold the handler that follows it.
-/

namespace ProtectedRegions

/-- A half-open range of instruction offsets. -/
structure Span where
  start : Nat
  stop : Nat
  start_le_stop : start ≤ stop := by omega
  deriving DecidableEq, Repr

namespace Span

/-- The span of `length` instructions from `start` on. -/
def ofLength (start length : Nat) : Span := { start, stop := start + length }

/-- The number of offsets in the span (`regions/region:175–177`). -/
def length (span : Span) : Nat := span.stop - span.start

/-- Whether no offset lies in the span (`regions/region:181–183`). -/
def isEmpty (span : Span) : Bool := span.stop ≤ span.start

/-- Whether the offset lies in the span (`regions/region:187–189`). -/
def covers (span : Span) (offset : Nat) : Bool := span.start ≤ offset && offset < span.stop

/-- Whether the other span lies between the bounds of this one. -/
def encloses (outer inner : Span) : Bool := outer.start ≤ inner.start && inner.stop ≤ outer.stop

/-- A span starts where it is made to. -/
theorem start_ofLength (start length : Nat) : (ofLength start length).start = start := rfl

/-- A span covers the offsets from its start up to its stop. -/
theorem covers_iff {span : Span} {offset : Nat} :
    span.covers offset = true ↔ span.start ≤ offset ∧ offset < span.stop := by
  simp [covers]

/-- An enclosed span covers nothing that the outer span does not cover. -/
theorem covers_of_encloses {outer inner : Span} {offset : Nat}
    (h : outer.encloses inner = true) (covered : inner.covers offset = true) :
    outer.covers offset = true := by
  simp only [encloses, covers, Bool.and_eq_true, decide_eq_true_eq] at *
  omega

end Span

/-- The part a region plays in the exception model (`regions/region:50–64`). -/
inductive RegionKind where
  /-- The whole method, the root of every tree. -/
  | method
  /-- A protected block, or a protected block together with its catch handlers. -/
  | tryBlock
  /-- The handler of a catch clause. -/
  | catchBlock
  /-- The filter of the catch handler that follows. -/
  | filterBlock
  /-- A protected block and the handler that runs on every exit of it. -/
  | finallyBlock
  /-- A protected block and the handler that runs when an exception leaves it. -/
  | faultBlock
  deriving DecidableEq, Repr

namespace RegionKind

/-- Every region kind, in declaration order. -/
def all : List RegionKind :=
  [.method, .tryBlock, .catchBlock, .filterBlock, .finallyBlock, .faultBlock]

/-- Whether the code of a handler is part of the region itself (`regions/region:69–71`). -/
def hasHandler : RegionKind → Bool
  | .finallyBlock | .faultBlock => true
  | _ => false

instance : ToString RegionKind where
  toString
    | .method => "Method"
    | .tryBlock => "Try"
    | .catchBlock => "Catch"
    | .filterBlock => "Filter"
    | .finallyBlock => "Finally"
    | .faultBlock => "Fault"

end RegionKind

/-- The region that a handler of the given kind gives rise to (`regions/builder:494–497`). -/
def HandlerKind.regionKind : HandlerKind → RegionKind
  | .finallyBlock => .finallyBlock
  | .faultBlock => .faultBlock

/-- What a region was made for (`regions/region:76–83`). -/
inductive RegionOrigin where
  | method
  /-- A `try` of the program. -/
  | user
  /-- A desugared statement. -/
  | synthetic (kind : SyntheticKind)
  deriving DecidableEq, Repr

instance : ToString RegionOrigin where
  toString
    | .method => "Method"
    | .user => "User"
    | .synthetic kind => toString kind

/-- What a catch handler or a filter belongs to (`regions/region:96–105`). -/
structure CatchInfo where
  clause : Nat
  exceptionType : Option String
  binder : Option LocalId
  filtered : Bool
  deriving DecidableEq, Repr

/-- What is known of a region before it is laid out. -/
structure RegionHead where
  kind : RegionKind
  origin : RegionOrigin
  /-- The `try` or synthetic statement of a handler or group, the body of a plain protected
  block, the handler body of a catch or filter. -/
  stmt : StmtId
  catchInfo : Option CatchInfo
  exits : ExitSet
  deriving DecidableEq, Repr

/-- A region of a laid out method (`regions/region:112–124`). -/
structure Region extends RegionHead where
  id : RegionId
  span : Span
  parent : Option RegionId
  children : List RegionId
  /-- The span of the handler of a `finally` or `fault`. -/
  handler : Option Span
  deriving DecidableEq, Repr

namespace Region

/-- Whether the region was made for a desugared statement (`regions/region:147–149`). -/
def isSynthetic (region : Region) : Bool :=
  match region.origin with
  | .synthetic _ => true
  | _ => false

instance : ToString Region where
  toString region :=
    s!"{region.id} {region.kind} " ++
      s!"[{offsetText region.span.start}, {offsetText region.span.stop}) {region.stmt}" ++
      match region.origin with
      | .synthetic kind => s!" ({kind})"
      | _ => ""

end Region
end ProtectedRegions
