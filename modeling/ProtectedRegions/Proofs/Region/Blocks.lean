import ProtectedRegions.Flow.Jump
import ProtectedRegions.Region.Tree

/-!
# Blocks of the exception model

The protected ranges, handlers and filters of a region tree, and the rules for transfers of
control between them: a block is entered at the start of a protected range only, and is left by
a leave only.
-/

namespace ProtectedRegions

/-- Whether the statement is the body of the `finally` or `fault` of another one. -/
def Body.IsHandlerOf (body : Body) (part owner : StmtId) : Prop :=
  body.parent? part = some owner ∧ (body.handlerKind? part).isSome = true

/-- A protected range, a filter, a catch handler, or the handler of a `finally` or `fault`. -/
structure Block where
  region : Region
  span : Span
  deriving DecidableEq

namespace Block

/-- Whether the block holds the code of the statement. -/
def Holds (body : Body) (block : Block) (part : StmtId) : Prop :=
  if block.region.kind.hasHandler then body.IsHandlerOf part block.region.stmt
  else block.region.stmt = part

end Block

/-- The block of a region: the range of a protected block, a catch handler or a filter, and the
handler of a `finally` or `fault`. -/
def Region.block? (region : Region) : Option Block :=
  match region.kind with
  | .method => none
  | .tryBlock | .catchBlock | .filterBlock => some ⟨region, region.span⟩
  | .finallyBlock | .faultBlock => region.handler.map (⟨region, ·⟩)

/-- The block of a region without a handler. -/
theorem Region.block?_of_plain {region : Region} (plain : region.kind.hasHandler = false)
    (notMethod : region.kind ≠ .method) : region.block? = some ⟨region, region.span⟩ := by
  rw [block?]
  cases kind : region.kind <;> simp_all [RegionKind.hasHandler]

/-- The block of a region with a handler. -/
theorem Region.block?_of_hasHandler {region : Region} (holds : region.kind.hasHandler = true) :
    region.block? = region.handler.map (⟨region, ·⟩) := by
  rw [block?]
  cases kind : region.kind <;> simp_all [RegionKind.hasHandler]

namespace RegionTree

/-- The blocks of a tree. -/
def blocks (tree : RegionTree) : List Block := tree.regions.filterMap Region.block?

/-- Whether a transfer of control from one offset to another keeps the rules of blocks. -/
def Respects (tree : RegionTree) (leaves : Bool) (source target : Nat) : Prop :=
  ∀ block ∈ tree.blocks,
    (block.span.covers target = true → block.span.covers source = false →
      block.region.kind = .tryBlock ∧ target = block.span.start) ∧
    (leaves = false → block.span.covers source = true → block.span.covers target = true)

instance (tree : RegionTree) (leaves : Bool) (source target : Nat) :
    Decidable (tree.Respects leaves source target) :=
  inferInstanceAs (Decidable (∀ block ∈ tree.blocks, _ ∧ _))

end RegionTree
end ProtectedRegions
