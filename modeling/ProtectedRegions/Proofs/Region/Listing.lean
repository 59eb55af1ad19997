import ProtectedRegions.Proofs.Region.Nested
import ProtectedRegions.Region.Listing

/-!
# Balanced listings

A listing draws brackets around instructions: at each offset it closes the brackets that stop there,
inner ones first, and opens those that start there, outer ones first. If any two brackets nest or
lie apart, then each is opened and closed once and the listing is balanced.
-/

namespace ProtectedRegions

/-- A bracket of the listing with the region that it is drawn for. -/
structure Bracket extends ListingBlock where
  region : Region
  deriving DecidableEq

/-- Whether the one bracket is drawn around the other: that one is inside of it, and is drawn for a
later region. -/
def Bracket.IsAround (outer inner : Bracket) : Prop :=
  outer.region.id.index < inner.region.id.index ∧ outer.span.encloses inner.span = true

instance : DecidableRel Bracket.IsAround := fun _ _ ↦ inferInstanceAs (Decidable (_ ∧ _))

/-- The number of the given brackets around one. -/
def Bracket.depth (brackets : List Bracket) (bracket : Bracket) : Nat :=
  (brackets.filter (·.IsAround bracket)).length

/-- What a listing shows. -/
inductive ListingItem where
  | opens (bracket : Bracket)
  | instruction (offset : Nat) (instr : Instruction Nat)
  | closes (bracket : Bracket)

namespace ListingItem

/-- The bracket that is opened. -/
def opened? : ListingItem → Option Bracket
  | opens bracket => some bracket
  | _ => none

/-- The instruction that is shown, with its offset. -/
def instruction? : ListingItem → Option (Instruction Nat × Nat)
  | instruction offset instr => some (instr, offset)
  | _ => none

/-- The bracket that is closed. -/
def closed? : ListingItem → Option Bracket
  | closes bracket => some bracket
  | _ => none

/-- The lines of an item among the given brackets. A bracket is indented by those around it, and an
instruction by those that cover its offset. -/
def lines (brackets : List Bracket) : ListingItem → List String
  | opens bracket =>
    [RegionTree.indented (bracket.depth brackets) bracket.header,
      RegionTree.indented (bracket.depth brackets) "\x7b"]
  | instruction offset instr =>
    [RegionTree.indented (brackets.filter (·.span.covers offset)).length
      s!"{offsetText offset}: {instr}"]
  | closes bracket =>
    [RegionTree.indented (bracket.depth brackets) s!"\x7d  // end {bracket.footer}"]

end ListingItem

/-- Items that turn one stack of open brackets, innermost first, into another one. -/
inductive Nests : List Bracket → List ListingItem → List Bracket → Prop
  | nil {stack : List Bracket} : Nests stack [] stack
  | opens {bracket : Bracket} {stack last : List Bracket} {rest : List ListingItem}
      (later : Nests (bracket :: stack) rest last) : Nests stack (.opens bracket :: rest) last
  | instruction {offset : Nat} {instr : Instruction Nat} {stack last : List Bracket}
      {rest : List ListingItem} (later : Nests stack rest last) :
      Nests stack (.instruction offset instr :: rest) last
  | closes {bracket : Bracket} {stack last : List Bracket} {rest : List ListingItem}
      (later : Nests stack rest last) : Nests (bracket :: stack) (.closes bracket :: rest) last

namespace Nests

theorem append {first second third : List Bracket} {items items' : List ListingItem}
    (nests : Nests first items second) (nests' : Nests second items' third) :
    Nests first (items ++ items') third := by
  induction nests with
  | nil => exact nests'
  | opens _ ih => exact .opens (ih nests')
  | instruction _ ih => exact .instruction (ih nests')
  | closes _ ih => exact .closes (ih nests')

theorem closing (stack outer : List Bracket) :
    Nests (stack ++ outer) (stack.map .closes) outer := by
  induction stack with
  | nil => exact .nil
  | cons bracket stack ih => exact .closes ih

theorem opening (brackets outer : List Bracket) :
    Nests outer (brackets.map .opens) (brackets.reverse ++ outer) := by
  induction brackets generalizing outer with
  | nil => exact .nil
  | cons bracket brackets ih =>
    rw [List.reverse_cons, List.append_assoc]
    exact .opens (ih (bracket :: outer))

end Nests

/-- A listing of the instructions among the given brackets. It shows the instructions in order. Each
bracket is opened once, and between that and the instruction it starts with nothing happens but
that brackets inside of it are opened. Each bracket is closed once, and between the last instruction
in it and that nothing happens but that brackets inside of it are closed. So at an offset brackets
are closed before others are opened. What is opened is closed in turn. -/
structure IsListing (brackets : List Bracket) (instrs : List (Instruction Nat))
    (items : List ListingItem) : Prop where
  instructions : items.filterMap ListingItem.instruction? = instrs.zipIdx
  opened : items.filterMap ListingItem.opened? = brackets
  closed : (items.filterMap ListingItem.closed?).Perm brackets
  opened_at {bracket : Bracket} : bracket ∈ brackets →
    ∃ (before after : List ListingItem) (inner : List Bracket) (instr : Instruction Nat),
      items = before ++ .opens bracket :: inner.map .opens ++
        .instruction bracket.span.start instr :: after ∧
      ∀ other ∈ inner, bracket.IsAround other
  closed_at {bracket : Bracket} : bracket ∈ brackets →
    ∃ (before after : List ListingItem) (inner : List Bracket) (instr : Instruction Nat),
      items = before ++ .instruction (bracket.span.stop - 1) instr :: inner.map .closes ++
        .closes bracket :: after ∧
      ∀ other ∈ inner, bracket.IsAround other
  nests : Nests [] items []

/-! ### Brackets that nest -/

/-- Brackets in the order in which they open: of two that share an offset, the one that comes first
is around the other. -/
structure Arranged (length : Nat) (brackets : List Bracket) : Prop where
  nonempty {bracket : Bracket} : bracket ∈ brackets → bracket.span.start < bracket.span.stop
  within {bracket : Bracket} : bracket ∈ brackets → bracket.span.stop ≤ length
  sorted : brackets.Pairwise fun first second ↦ first.span.start ≤ second.span.start
  nested : brackets.Pairwise fun first second ↦
    first.span.Apart second.span ∨ first.IsAround second

/-- The brackets that are open before those are closed that stop at the offset, innermost first. -/
def openAt (brackets : List Bracket) (offset : Nat) : List Bracket :=
  (brackets.filter fun bracket ↦
    bracket.span.start < offset ∧ offset ≤ bracket.span.stop).reverse

/-- The brackets that go on at an offset, innermost first. -/
def staysAt (brackets : List Bracket) (offset : Nat) : List Bracket :=
  (brackets.filter fun bracket ↦
    bracket.span.start < offset ∧ offset < bracket.span.stop).reverse

/-- Whether each bracket of a stack has those around it below it. -/
def Stacked (brackets : List Bracket) : List Bracket → Prop
  | [] => True
  | bracket :: outer => outer.length = bracket.depth brackets ∧ Stacked brackets outer

theorem Stacked.of_append {brackets inner outer : List Bracket}
    (stacked : Stacked brackets (inner ++ outer)) : Stacked brackets outer := by
  induction inner with
  | nil => exact stacked
  | cons bracket inner ih => exact ih stacked.2

/-- Elements that come before others are listed before them. -/
private theorem filter_or_of_pairwise {α : Type} {p q r : α → Prop} [DecidablePred p]
    [DecidablePred q] [DecidablePred r] {list : List α} (splits : ∀ x ∈ list, r x ↔ p x ∨ q x)
    (apart : ∀ x ∈ list, q x → ¬ p x) (ordered : list.Pairwise fun x y ↦ q x → ¬ p y) :
    list.filter (r ·) = list.filter (p ·) ++ list.filter (q ·) := by
  induction list with
  | nil => rfl
  | cons x rest ih =>
    obtain ⟨behind, ordered⟩ := List.pairwise_cons.mp ordered
    have ih := ih (fun y mem ↦ splits y (List.mem_cons_of_mem _ mem))
      (fun y mem ↦ apart y (List.mem_cons_of_mem _ mem)) ordered
    have split := splits x List.mem_cons_self
    by_cases second : q x
    · have first := apart x List.mem_cons_self second
      have none : rest.filter (p ·) = [] :=
        List.filter_eq_nil_iff.mpr fun y mem ↦ by simpa using behind y mem second
      have either : r x := split.mpr (.inr second)
      simp [either, first, second, ih, none]
    · by_cases first : p x
      · have either : r x := split.mpr (.inl first)
        simp [either, first, second, ih]
      · have neither : ¬ r x := fun holds ↦ (split.mp holds).elim first second
        simp [neither, first, second, ih]

namespace Arranged

variable {length : Nat} {brackets : List Bracket} (arranged : Arranged length brackets)

include arranged

/-- Of two brackets that cover one offset, the one that comes first is around the other. -/
theorem pairwise_covering (offset : Nat) : brackets.Pairwise fun first second ↦
    first.span.covers offset = true → second.span.covers offset = true →
      first.IsAround second := by
  refine arranged.nested.imp fun nested covered covered' ↦ nested.resolve_left fun apart ↦ ?_
  rw [Span.covers_iff] at covered covered'
  unfold Span.Apart at apart
  omega

/-- Among brackets that cover one offset, each is around those that come later. -/
theorem isAround_of_filter {p : Bracket → Bool} (offset : Nat)
    (covered : ∀ bracket ∈ brackets, p bracket = true → bracket.span.covers offset = true)
    {outer inner : List Bracket} {bracket : Bracket}
    (split : brackets.filter p = outer ++ bracket :: inner) :
    ∀ other ∈ inner, bracket.IsAround other := by
  have covers {other : Bracket} (among : other ∈ outer ++ bracket :: inner) :
      other.span.covers offset = true := by
    obtain ⟨mem, holds⟩ := List.mem_filter.mp (split ▸ among)
    exact covered other mem holds
  have covering := (arranged.pairwise_covering offset).filter p
  rw [split, List.pairwise_append, List.pairwise_cons] at covering
  exact fun other among ↦ covering.2.1.1 other among (covers (by simp)) (covers (by simp [among]))

/-- The brackets that stop at an offset are the innermost open ones. -/
theorem openAt_eq (offset : Nat) : openAt brackets offset =
    (brackets.filter (·.span.stop = offset)).reverse ++ staysAt brackets offset := by
  rw [openAt, staysAt, ← List.reverse_append]
  congr 1
  refine filter_or_of_pairwise (fun bracket mem ↦ ?_) (fun bracket mem stop ↦ by omega) ?_
  · have := arranged.nonempty mem
    omega
  · refine (arranged.pairwise_covering (offset - 1)).imp_of_mem fun mem mem' around stop stays ↦ ?_
    have := arranged.nonempty mem
    rw [Span.covers_iff, Span.covers_iff] at around
    -- The second bracket would be inside of the first one, and would go on behind it.
    have inside := (around (by omega) (by omega)).2
    rw [Span.encloses_iff] at inside
    omega

/-- The brackets that start at an offset are then the innermost open ones. -/
theorem openAt_succ (offset : Nat) : openAt brackets (offset + 1) =
    (brackets.filter (·.span.start = offset)).reverse ++ staysAt brackets offset := by
  rw [openAt, staysAt, ← List.reverse_append]
  congr 1
  refine filter_or_of_pairwise (fun bracket mem ↦ ?_) (fun bracket mem start ↦ by omega)
    (arranged.sorted.imp fun sorted start ↦ by omega)
  have := arranged.nonempty mem
  omega

/-- The brackets that start at an offset come before those that start later. -/
theorem filter_start_eq (offset : Nat) : brackets.filter (offset ≤ ·.span.start) =
    brackets.filter (·.span.start = offset) ++ brackets.filter (offset + 1 ≤ ·.span.start) :=
  filter_or_of_pairwise (fun bracket mem ↦ by omega) (fun bracket mem start ↦ by omega)
    (arranged.sorted.imp fun sorted start ↦ by omega)

/-- No bracket is around one that comes before it. -/
theorem not_isAround {earlier later : List Bracket} {bracket other : Bracket}
    (split : brackets = earlier ++ bracket :: later) (mem : other ∈ bracket :: later) :
    ¬ other.IsAround bracket := by
  rintro ⟨lt, inside⟩
  have nonempty := arranged.nonempty (split ▸ List.mem_append_right _ List.mem_cons_self)
  have nested := arranged.nested
  rw [split, List.pairwise_append, List.pairwise_cons] at nested
  rcases List.mem_cons.mp mem with rfl | mem
  · exact lt_irrefl _ lt
  · rcases nested.2.1.1 other mem with apart | around
    · exact apart.symm.not_encloses nonempty inside
    · exact lt_asymm lt around.1

/-- An open bracket is stacked on those around it. -/
theorem stacked_openAt (offset : Nat) : Stacked brackets (openAt brackets offset) := by
  -- Of the brackets that have opened so far, the last one is on top of the stack.
  suffices prefixes : ∀ earlier later, brackets = earlier ++ later →
      Stacked brackets (openAt earlier offset) from
    prefixes brackets [] (List.append_nil _).symm
  intro earlier
  induction earlier using List.reverseRecOn with
  | nil => exact fun _ _ ↦ trivial
  | append_singleton earlier bracket ih =>
    intro later split
    rw [List.append_assoc, List.singleton_append] at split
    have stacked := ih _ split
    rw [openAt, List.filter_append, List.reverse_append]
    by_cases inside : bracket.span.start < offset ∧ offset ≤ bracket.span.stop
    · rw [List.filter_cons_of_pos (by simpa using inside), List.filter_nil, List.reverse_singleton,
        List.singleton_append]
      refine ⟨?_, stacked⟩
      have none : (bracket :: later).filter (·.IsAround bracket) = [] :=
        List.filter_eq_nil_iff.mpr fun other mem ↦ by
          simpa using arranged.not_isAround split mem
      have covering := arranged.pairwise_covering (offset - 1)
      rw [split, List.pairwise_append] at covering
      rw [Bracket.depth, List.length_reverse]
      conv_rhs => rw [split, List.filter_append, none, List.append_nil]
      refine congrArg List.length (List.filter_congr fun other mem ↦ decide_eq_decide.mpr ?_)
      have around := covering.2.2 other mem bracket List.mem_cons_self
      simp only [Span.covers_iff] at around
      refine ⟨fun open' ↦ around (by omega) (by omega), fun ⟨_, encloses⟩ ↦ ?_⟩
      rw [Span.encloses_iff] at encloses
      omega
    · rw [List.filter_cons_of_neg (by simpa using inside), List.filter_nil, List.reverse_nil,
        List.nil_append]
      exact stacked

end Arranged

/-! ### The lines of a listing -/

namespace RegionTree

variable {brackets outer : List Bracket} {offset : Nat}

/-- The blocks on top of the stack are closed that stop at the offset. -/
theorem closeBlocks_append {closing : List Bracket}
    (stop : ∀ bracket ∈ closing, bracket.span.stop = offset)
    (stays : ∀ bracket ∈ outer, bracket.span.stop ≠ offset)
    (stacked : Stacked brackets (closing ++ outer)) :
    closeBlocks offset ((closing ++ outer).map (·.toListingBlock)) =
      ((closing.map .closes).flatMap (ListingItem.lines brackets),
        outer.map (·.toListingBlock)) := by
  induction closing with
  | nil =>
    cases outer with
    | nil => rfl
    | cons bracket outer => exact if_neg (stays bracket List.mem_cons_self)
  | cons bracket closing ih =>
    obtain ⟨depth, stacked⟩ := stacked
    have ih := ih (fun other mem ↦ stop other (List.mem_cons_of_mem _ mem)) stacked
    rw [List.cons_append, List.map_cons, closeBlocks, if_pos (stop bracket List.mem_cons_self), ih,
      List.length_map]
    simp only [List.map_cons, List.flatMap_cons, ListingItem.lines, ← depth]
    rfl

/-- The next blocks are opened that start at the offset. -/
theorem openBlocks_append {opening later : List Bracket}
    (start : ∀ bracket ∈ opening, bracket.span.start = offset)
    (waits : ∀ bracket ∈ later, bracket.span.start ≠ offset)
    (stacked : Stacked brackets (opening.reverse ++ outer)) :
    openBlocks offset (outer.map (·.toListingBlock))
        ((opening ++ later).map (·.toListingBlock)) =
      ((opening.map .opens).flatMap (ListingItem.lines brackets),
        (opening.reverse ++ outer).map (·.toListingBlock), later.map (·.toListingBlock)) := by
  induction opening generalizing outer with
  | nil =>
    cases later with
    | nil => rfl
    | cons bracket later => exact if_neg (waits bracket List.mem_cons_self)
  | cons bracket opening ih =>
    rw [List.reverse_cons, List.append_assoc, List.singleton_append] at stacked ⊢
    have ih := ih (fun other mem ↦ start other (List.mem_cons_of_mem _ mem)) stacked
    have depth := stacked.of_append.1
    rw [List.map_cons] at ih
    rw [List.cons_append, List.map_cons, openBlocks, if_pos (start bracket List.mem_cons_self), ih,
      List.length_map]
    simp only [List.map_cons, List.flatMap_cons, ListingItem.lines, ← depth]
    rfl

end RegionTree

/-- The items where an offset starts: brackets that stop are closed, innermost first, and then those
that start are opened, outermost first. -/
def boundary (brackets : List Bracket) (offset : Nat) : List ListingItem :=
  (brackets.filter (·.span.stop = offset)).reverse.map .closes ++
    (brackets.filter (·.span.start = offset)).map .opens

/-- The items from an offset on. -/
def itemsFrom (brackets : List Bracket) : Nat → List (Instruction Nat) → List ListingItem
  | offset, [] => boundary brackets offset
  | offset, instr :: rest =>
    boundary brackets offset ++ .instruction offset instr :: itemsFrom brackets (offset + 1) rest

section Boundaries

variable (brackets : List Bracket) (offset : Nat)

theorem opened_boundary : (boundary brackets offset).filterMap ListingItem.opened? =
    brackets.filter (·.span.start = offset) := by
  simp [boundary, List.filterMap_map, Function.comp_def, ListingItem.opened?]

theorem closed_boundary : (boundary brackets offset).filterMap ListingItem.closed? =
    (brackets.filter (·.span.stop = offset)).reverse := by
  simp [boundary, List.filterMap_map, Function.comp_def, ListingItem.closed?]

theorem instructions_boundary :
    (boundary brackets offset).filterMap ListingItem.instruction? = [] := by
  simp [boundary, List.filterMap_map, Function.comp_def, ListingItem.instruction?]

/-- The items from an offset on show the instructions from there on. -/
theorem instructions_itemsFrom (instrs : List (Instruction Nat)) :
    (itemsFrom brackets offset instrs).filterMap ListingItem.instruction? =
      instrs.zipIdx offset := by
  induction instrs generalizing offset with
  | nil => exact instructions_boundary brackets offset
  | cons instr rest ih =>
    rw [itemsFrom, List.filterMap_append, instructions_boundary, List.nil_append,
      List.filterMap_cons_some (f := ListingItem.instruction?) rfl, ih, List.zipIdx_cons]

/-- The items from an offset on start with those of its boundary. -/
theorem exists_itemsFrom (instrs : List (Instruction Nat)) :
    ∃ after, itemsFrom brackets offset instrs = boundary brackets offset ++ after := by
  cases instrs with
  | nil => exact ⟨[], (List.append_nil _).symm⟩
  | cons instr rest => exact ⟨_, rfl⟩

variable {offset}

/-- The items from an offset on show each later instruction between the boundaries around it. -/
theorem exists_instruction_itemsFrom {instrs : List (Instruction Nat)} {last : Nat}
    (le : offset ≤ last) (lt : last < offset + instrs.length) :
    ∃ (before after : List ListingItem) (instr : Instruction Nat),
      itemsFrom brackets offset instrs = before ++ (boundary brackets last ++
        .instruction last instr :: (boundary brackets (last + 1) ++ after)) := by
  induction instrs generalizing offset with
  | nil => exact absurd lt (Nat.not_lt.mpr le)
  | cons instr rest ih =>
    rw [List.length_cons] at lt
    rcases Nat.eq_or_lt_of_le le with rfl | later
    · obtain ⟨after, same⟩ := exists_itemsFrom brackets (offset + 1) rest
      exact ⟨[], after, instr, by rw [itemsFrom, same, List.nil_append]⟩
    · obtain ⟨before, after, instr', same⟩ := @ih (offset + 1) later (by omega)
      refine ⟨boundary brackets offset ++ .instruction offset instr :: before, after, instr', ?_⟩
      rw [itemsFrom, same, List.append_assoc, List.cons_append]

end Boundaries

namespace Arranged

variable {length : Nat} {brackets : List Bracket} (arranged : Arranged length brackets)

include arranged

theorem closeBlocks_openAt (offset : Nat) :
    RegionTree.closeBlocks offset ((openAt brackets offset).map (·.toListingBlock)) =
      (((brackets.filter (·.span.stop = offset)).reverse.map .closes).flatMap
        (ListingItem.lines brackets), (staysAt brackets offset).map (·.toListingBlock)) := by
  have stacked := arranged.stacked_openAt offset
  rw [arranged.openAt_eq] at stacked ⊢
  refine RegionTree.closeBlocks_append (fun bracket mem ↦ ?_) (fun bracket mem ↦ ?_) stacked
  · exact of_decide_eq_true (List.mem_filter.mp (List.mem_reverse.mp mem)).2
  · have := of_decide_eq_true (List.mem_filter.mp (List.mem_reverse.mp mem)).2
    omega

theorem openBlocks_staysAt (offset : Nat) :
    RegionTree.openBlocks offset ((staysAt brackets offset).map (·.toListingBlock))
        ((brackets.filter (offset ≤ ·.span.start)).map (·.toListingBlock)) =
      (((brackets.filter (·.span.start = offset)).map .opens).flatMap
        (ListingItem.lines brackets), (openAt brackets (offset + 1)).map (·.toListingBlock),
        (brackets.filter (offset + 1 ≤ ·.span.start)).map (·.toListingBlock)) := by
  have stacked := arranged.stacked_openAt (offset + 1)
  rw [arranged.openAt_succ] at stacked ⊢
  rw [arranged.filter_start_eq]
  refine RegionTree.openBlocks_append (fun bracket mem ↦ ?_) (fun bracket mem ↦ ?_) stacked
  · exact of_decide_eq_true (List.mem_filter.mp mem).2
  · have := of_decide_eq_true (List.mem_filter.mp mem).2
    omega

/-- The lines from an offset on are those of the items from there on. -/
theorem linesFrom_eq (instrs : List (Instruction Nat)) (offset : Nat) :
    RegionTree.linesFrom offset ((openAt brackets offset).map (·.toListingBlock))
        ((brackets.filter (offset ≤ ·.span.start)).map (·.toListingBlock)) instrs =
      (itemsFrom brackets offset instrs).flatMap (ListingItem.lines brackets) := by
  induction instrs generalizing offset with
  | nil =>
    simp only [RegionTree.linesFrom, arranged.closeBlocks_openAt, arranged.openBlocks_staysAt,
      itemsFrom, boundary, List.flatMap_append]
  | cons instr rest ih =>
    have covering : (openAt brackets (offset + 1)).length =
        (brackets.filter (·.span.covers offset)).length := by
      rw [openAt, List.length_reverse]
      refine congrArg List.length (List.filter_congr fun bracket _ ↦ ?_)
      rw [Bool.eq_iff_iff, decide_eq_true_iff, Span.covers_iff]
      omega
    simp only [RegionTree.linesFrom, arranged.closeBlocks_openAt, arranged.openBlocks_staysAt, ih,
      itemsFrom, boundary, List.flatMap_append, List.flatMap_cons, ListingItem.lines,
      List.length_map, covering, List.append_assoc]

/-- The lines of the listing are those of the items from its start on. -/
theorem listingLines_eq {tree : RegionTree}
    (blocks : brackets.map (·.toListingBlock) = tree.listingBlocks) :
    tree.listingLines =
      (itemsFrom brackets 0 tree.instructions).flatMap (ListingItem.lines brackets) := by
  have none : openAt brackets 0 = [] := by simp [openAt]
  have all : brackets.filter (0 ≤ ·.span.start) = brackets :=
    List.filter_eq_self.mpr fun _ _ ↦ decide_eq_true (Nat.zero_le _)
  have lines := arranged.linesFrom_eq tree.instructions 0
  rwa [none, all, blocks] at lines

/-- At an offset, what stops there is taken off the stack and what starts there put on it. -/
theorem nests_boundary (offset : Nat) :
    Nests (openAt brackets offset) (boundary brackets offset) (openAt brackets (offset + 1)) := by
  rw [arranged.openAt_eq, arranged.openAt_succ]
  exact (Nests.closing _ _).append (Nests.opening _ _)

/-- Nothing stays open behind the last offset. -/
theorem openAt_length : openAt brackets (length + 1) = [] := by
  rw [openAt, List.reverse_eq_nil_iff, List.filter_eq_nil_iff]
  intro bracket mem
  have := arranged.within mem
  simp only [decide_eq_true_eq]
  omega

/-- The items from an offset on close what is open there, and what they open. -/
theorem nests_itemsFrom {offset : Nat} {instrs : List (Instruction Nat)}
    (rest : offset + instrs.length = length) :
    Nests (openAt brackets offset) (itemsFrom brackets offset instrs) [] := by
  induction instrs generalizing offset with
  | nil =>
    rw [← arranged.openAt_length, ← rest]
    exact arranged.nests_boundary offset
  | cons instr rest' ih =>
    rw [List.length_cons] at rest
    exact (arranged.nests_boundary offset).append (.instruction (ih (by omega)))

/-- The items from an offset on open the brackets that start from there on, in their order. -/
theorem opened_itemsFrom {offset : Nat} {instrs : List (Instruction Nat)}
    (rest : offset + instrs.length = length) :
    (itemsFrom brackets offset instrs).filterMap ListingItem.opened? =
      brackets.filter (offset ≤ ·.span.start) := by
  induction instrs generalizing offset with
  | nil =>
    rw [itemsFrom, opened_boundary]
    refine List.filter_congr fun bracket mem ↦ decide_eq_decide.mpr ?_
    have := arranged.nonempty mem
    have := arranged.within mem
    rw [List.length_nil] at rest
    omega
  | cons instr rest' ih =>
    rw [List.length_cons] at rest
    rw [itemsFrom, List.filterMap_append, opened_boundary, List.filterMap_cons_none rfl,
      ih (by omega), arranged.filter_start_eq offset]

/-- The items from an offset on close the brackets that stop from there on. -/
theorem closed_itemsFrom {offset : Nat} {instrs : List (Instruction Nat)}
    (rest : offset + instrs.length = length) :
    ((itemsFrom brackets offset instrs).filterMap ListingItem.closed?).Perm
      (brackets.filter (offset ≤ ·.span.stop)) := by
  induction instrs generalizing offset with
  | nil =>
    rw [itemsFrom, closed_boundary]
    refine (List.reverse_perm _).trans (.of_eq ?_)
    refine List.filter_congr fun bracket mem ↦ decide_eq_decide.mpr ?_
    have := arranged.within mem
    rw [List.length_nil] at rest
    omega
  | cons instr rest' ih =>
    rw [List.length_cons] at rest
    rw [itemsFrom, List.filterMap_append, closed_boundary, List.filterMap_cons_none rfl]
    refine ((List.reverse_perm _).append (ih (by omega))).trans ?_
    refine .trans (.of_eq ?_)
      (List.filter_append_perm (·.span.stop = offset) (brackets.filter (offset ≤ ·.span.stop)))
    rw [List.filter_filter, List.filter_filter]
    congr 1
    · refine List.filter_congr fun bracket _ ↦ ?_
      rw [Bool.eq_iff_iff]
      simp only [Bool.and_eq_true, decide_eq_true_eq]
      omega
    · refine List.filter_congr fun bracket _ ↦ ?_
      rw [Bool.eq_iff_iff]
      simp only [Bool.and_eq_true, Bool.not_eq_true', decide_eq_true_eq, decide_eq_false_iff_not]
      omega

/-- Between the opening of a bracket and its first instruction, only brackets inside of it are
opened. -/
theorem opened_at_itemsFrom {offset : Nat} {instrs : List (Instruction Nat)}
    (rest : offset + instrs.length = length) {bracket : Bracket} (mem : bracket ∈ brackets)
    (le : offset ≤ bracket.span.start) :
    ∃ (before after : List ListingItem) (inner : List Bracket) (instr : Instruction Nat),
      itemsFrom brackets offset instrs = before ++ .opens bracket :: inner.map .opens ++
        .instruction bracket.span.start instr :: after ∧
      ∀ other ∈ inner, bracket.IsAround other := by
  have nonempty := arranged.nonempty mem
  have within := arranged.within mem
  obtain ⟨before, after, instr, same⟩ :=
    @exists_instruction_itemsFrom brackets offset instrs bracket.span.start le (by omega)
  have listed : bracket ∈ brackets.filter (·.span.start = bracket.span.start) :=
    List.mem_filter.mpr ⟨mem, decide_eq_true rfl⟩
  obtain ⟨outer, inner, split⟩ := List.append_of_mem listed
  have covered (other : Bracket) (mem' : other ∈ brackets)
      (start : decide (other.span.start = bracket.span.start) = true) :
      other.span.covers bracket.span.start = true := by
    have nonempty' := arranged.nonempty mem'
    have start := of_decide_eq_true start
    exact Span.covers_iff.mpr ⟨by omega, by omega⟩
  refine ⟨before ++ (brackets.filter (·.span.stop = bracket.span.start)).reverse.map .closes ++
    outer.map .opens, boundary brackets (bracket.span.start + 1) ++ after, inner, instr, ?_,
    arranged.isAround_of_filter bracket.span.start covered split⟩
  rw [same, boundary.eq_def brackets bracket.span.start, split]
  simp only [List.map_append, List.map_cons, List.append_assoc, List.cons_append]

/-- Between the last instruction in a bracket and its closing, only brackets inside of it are
closed. -/
theorem closed_at_itemsFrom {offset : Nat} {instrs : List (Instruction Nat)}
    (rest : offset + instrs.length = length) {bracket : Bracket} (mem : bracket ∈ brackets)
    (lt : offset < bracket.span.stop) :
    ∃ (before after : List ListingItem) (inner : List Bracket) (instr : Instruction Nat),
      itemsFrom brackets offset instrs =
        before ++ .instruction (bracket.span.stop - 1) instr :: inner.map .closes ++
          .closes bracket :: after ∧
      ∀ other ∈ inner, bracket.IsAround other := by
  have within := arranged.within mem
  obtain ⟨last, stop⟩ : ∃ last, bracket.span.stop = last + 1 :=
    Nat.exists_eq_succ_of_ne_zero (Nat.ne_zero_of_lt lt)
  obtain ⟨before, after, instr, same⟩ :=
    @exists_instruction_itemsFrom brackets offset instrs last (by omega) (by omega)
  have listed : bracket ∈ brackets.filter (·.span.stop = last + 1) :=
    List.mem_filter.mpr ⟨mem, decide_eq_true stop⟩
  obtain ⟨outer, inner, split⟩ := List.append_of_mem listed
  have covered (other : Bracket) (mem' : other ∈ brackets)
      (stop' : decide (other.span.stop = last + 1) = true) :
      other.span.covers last = true := by
    have nonempty' := arranged.nonempty mem'
    have stop' := of_decide_eq_true stop'
    exact Span.covers_iff.mpr ⟨by omega, by omega⟩
  refine ⟨before ++ boundary brackets last, outer.reverse.map .closes ++
    ((brackets.filter (·.span.start = last + 1)).map .opens ++ after), inner.reverse, instr, ?_,
    fun other among ↦ arranged.isAround_of_filter last covered split other
      (List.mem_reverse.mp among)⟩
  rw [same, stop, Nat.add_sub_cancel, boundary.eq_def brackets (last + 1), split]
  simp only [List.reverse_append, List.reverse_cons, List.map_append, List.map_cons,
    List.append_assoc, List.cons_append, List.nil_append]

/-- The items of arranged brackets are a listing. -/
theorem isListing {instrs : List (Instruction Nat)} (whole : instrs.length = length) :
    IsListing brackets instrs (itemsFrom brackets 0 instrs) := by
  have rest : 0 + instrs.length = length := by omega
  have all {p : Bracket → Bool} (holds : ∀ bracket, p bracket = true) :
      brackets.filter p = brackets := List.filter_eq_self.mpr fun bracket _ ↦ holds bracket
  refine ⟨instructions_itemsFrom brackets 0 instrs, ?_, ?_, fun mem ↦ ?_, fun mem ↦ ?_, ?_⟩
  · rw [arranged.opened_itemsFrom rest, all fun _ ↦ by simp]
  · exact (arranged.closed_itemsFrom rest).trans (.of_eq (all fun _ ↦ by simp))
  · exact arranged.opened_at_itemsFrom rest mem (Nat.zero_le _)
  · have := arranged.nonempty mem
    exact arranged.closed_at_itemsFrom rest mem (by omega)
  · have none : openAt brackets 0 = [] := by simp [openAt]
    exact none ▸ arranged.nests_itemsFrom rest

end Arranged
end ProtectedRegions
