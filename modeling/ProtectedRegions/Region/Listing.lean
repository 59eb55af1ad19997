import ProtectedRegions.Region.Tree

/-!
# Listings

The instruction stream as text, one line for each instruction, with the protected blocks and
handlers drawn as nested brackets. A protected block together with its catch handlers is
drawn as one bracket only if a `finally` or `fault` protects it.
-/

namespace ProtectedRegions

/-- A bracket of the listing: the lines that open and close it, and what it spans
(`codegen/listing:30–36`). -/
structure ListingBlock where
  span : Span
  header : String
  footer : String
  deriving DecidableEq, Repr

namespace ListingBlock

/-- The line that opens the block of a catch handler (`codegen/listing:56–66`). -/
def catchHeader (info : Option CatchInfo) : String :=
  if info.any (·.filtered) then "handler"
  else "catch " ++ (info.bind (·.exceptionType)).getD "[any]"

/-- Whether a region groups a protected block with its catch handlers (`codegen/listing:43–46`). -/
def isGroup (tree : RegionTree) (region : Region) : Bool :=
  (tree.childRegions region).any fun child ↦
    child.kind == .catchBlock || child.kind == .filterBlock

/-- Whether a `finally` or `fault` protects the region (`codegen/listing:47–50`). -/
def isGuarded (tree : RegionTree) (region : Region) : Bool :=
  (region.parent.bind tree.region?).any (·.kind.hasHandler)

/-- The block that stands for a region (`codegen/listing:38–87`). -/
def ofRegion? (tree : RegionTree) (region : Region) : Option ListingBlock :=
  match region.kind with
  | .method => none
  | .tryBlock =>
    if isGroup tree region && !isGuarded tree region then none
    else some ⟨region.span, ".try", ".try"⟩
  | .catchBlock => some ⟨region.span, catchHeader region.catchInfo, "handler"⟩
  | .filterBlock => some ⟨region.span, "filter", "filter"⟩
  | .finallyBlock => region.handler.map fun span ↦ ⟨span, "finally", "handler"⟩
  | .faultBlock => region.handler.map fun span ↦ ⟨span, "fault", "handler"⟩

/-- Outer blocks come before inner ones: by start, then by descending stop
(`codegen/listing:92–97`). -/
def precedes (first second : ListingBlock) : Bool :=
  first.span.start < second.span.start ||
    (first.span.start == second.span.start && second.span.stop ≤ first.span.stop)

end ListingBlock

namespace RegionTree

/-- The blocks in the order in which they open; of equal spans the region that starts first comes
first (`codegen/listing:91–97`). -/
def listingBlocks (tree : RegionTree) : List ListingBlock :=
  (tree.regions.filterMap (ListingBlock.ofRegion? tree)).mergeSort ListingBlock.precedes

/-- A line inside `depth` blocks. -/
def indented (depth : Nat) (text : String) : String :=
  String.ofList (List.replicate (2 * depth) ' ') ++ text

/-- The lines that close the innermost open blocks as far as they stop at the offset, and the
blocks that stay open (`codegen/listing:104–109`). -/
def closeBlocks (offset : Nat) : List ListingBlock → List String × List ListingBlock
  | [] => ([], [])
  | block :: outer =>
    if block.span.stop = offset then
      let (lines, remaining) := closeBlocks offset outer
      (indented outer.length s!"\x7d  // end {block.footer}" :: lines, remaining)
    else ([], block :: outer)

/-- The lines that open the next blocks as far as they start at the offset; gives the open blocks,
innermost first, and the blocks still to come (`codegen/listing:110–115`). -/
def openBlocks (offset : Nat) (active : List ListingBlock) :
    List ListingBlock → List String × List ListingBlock × List ListingBlock
  | [] => ([], active, [])
  | block :: later =>
    if block.span.start = offset then
      let (lines, inner, rest) := openBlocks offset (block :: active) later
      (indented active.length block.header :: indented active.length "\x7b" :: lines, inner, rest)
    else ([], active, block :: later)

/-- The lines from an offset on, with the blocks open there and the blocks still to come
(`codegen/listing:103–120`). -/
def linesFrom (offset : Nat) (active later : List ListingBlock) :
    List (Instruction Nat) → List String
  | [] =>
    let (closing, outer) := closeBlocks offset active
    let (opening, _, _) := openBlocks offset outer later
    closing ++ opening
  | instr :: rest =>
    let (closing, outer) := closeBlocks offset active
    let (opening, inner, later) := openBlocks offset outer later
    closing ++ opening ++ [indented inner.length s!"{offsetText offset}: {instr}"] ++
      linesFrom (offset + 1) inner later rest

/-- The lines of the listing. -/
def listingLines (tree : RegionTree) : List String :=
  linesFrom 0 [] tree.listingBlocks tree.instructions

/-- The listing: every line ends in a line break (`codegen/listing:89–124`). -/
def listing (tree : RegionTree) : String :=
  String.join (tree.listingLines.map (· ++ "\n"))

end RegionTree
end ProtectedRegions
