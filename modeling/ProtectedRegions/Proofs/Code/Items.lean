import Mathlib.Data.List.Chain
import ProtectedRegions.Proofs.Code.Tokens

/-!
# Items of structured code

Code read without its labels and regions: the starts and ends of statements and the
instructions, in order. A node takes no offset and an instruction takes one, so nodes stand at
one offset exactly if no instruction is between them.
-/

namespace ProtectedRegions

/-- A node, or an instruction with the statement it is made for. -/
inductive Item where
  | node (node : FlowNode)
  | instr (source : StmtId) (operation : Instruction LabelKey)
  deriving DecidableEq

namespace Item

/-- The number of offsets that an item takes. -/
def width : Item → Nat
  | node _ => 0
  | instr .. => 1

end Item

/-- The item of a token, with its offset. -/
def Token.item? : Token × Place → Option (Item × Nat)
  | (.node at', place) => some (.node at', place.offset)
  | (.instr source operation, place) => some (.instr source operation, place.offset)
  | _ => none

namespace Code

/-- The nodes and instructions of code. -/
def items : Code → List Item
  | nothing | note _ | mark _ => []
  | instr source operation => [.instr source operation]
  | append first second => first.items ++ second.items
  | statement stmt inner => .node (.entry stmt) :: (inner.items ++ [.node (.ending stmt)])
  | region _ inner => inner.items
  | handled _ inner handler => inner.items ++ handler.items

/-- The nodes and instructions of code that starts at an offset, with their offsets. -/
def placedItems : Code → Nat → List (Item × Nat)
  | nothing, _ | note _, _ | mark _, _ => []
  | instr source operation, offset => [(.instr source operation, offset)]
  | append first second, offset =>
    first.placedItems offset ++ second.placedItems (offset + first.size)
  | statement stmt inner, offset =>
    (.node (.entry stmt), offset) :: (inner.placedItems offset ++
      [(.node (.ending stmt), offset + inner.size)])
  | region _ inner, offset => inner.placedItems offset
  | handled _ inner handler, offset =>
    inner.placedItems offset ++ handler.placedItems (offset + inner.size)

variable {code : Code} {offset : Nat}

/-- The items are those of the tokens. -/
theorem filterMap_item? (code : Code) (place : Place) :
    (code.tokens place).filterMap Token.item? = code.placedItems place.offset := by
  induction code generalizing place <;>
    simp_all [tokens, List.filterMap_cons, Token.item?, placedItems, Place.after, Place.within,
      Place.inBody, Place.inHandler]

/-- The items without their offsets. -/
theorem map_fst_placedItems (code : Code) (offset : Nat) :
    (code.placedItems offset).map Prod.fst = code.items := by
  induction code generalizing offset <;> simp_all [placedItems, items]

/-- Items that fill the offsets from one to another. -/
inductive Consecutive : Nat → Nat → List (Item × Nat) → Prop
  | nil {offset : Nat} : Consecutive offset offset []
  | cons {first last : Nat} {item : Item} {rest : List (Item × Nat)}
      (later : Consecutive (first + item.width) last rest) :
      Consecutive first last ((item, first) :: rest)

theorem Consecutive.append {first middle last : Nat} {items items' : List (Item × Nat)}
    (h : Consecutive first middle items) (h' : Consecutive middle last items') :
    Consecutive first last (items ++ items') := by
  induction h with
  | nil => exact h'
  | cons later ih => exact .cons (ih h')

/-- The items of code fill its offsets. -/
theorem consecutive_placedItems (code : Code) (offset : Nat) :
    Consecutive offset (offset + code.size) (code.placedItems offset) := by
  induction code generalizing offset with
  | nothing | note | mark => exact .nil
  | instr source operation => exact .cons .nil
  | append first second ihFirst ihSecond | handled head first second ihFirst ihSecond =>
    have := (ihFirst offset).append (ihSecond (offset + first.size))
    rwa [Nat.add_assoc] at this
  | statement stmt inner ih => exact .cons ((ih offset).append (.cons .nil))
  | region head inner ih => exact ih offset

namespace Consecutive

variable {first last : Nat} {items : List (Item × Nat)}

theorem le (h : Consecutive first last items) : first ≤ last := by
  induction h with
  | nil => exact Nat.le_refl _
  | cons later ih => exact Nat.le_trans (Nat.le_add_right _ _) ih

/-- An item lies between the bounds. -/
theorem bounds (h : Consecutive first last items) {item : Item} {offset : Nat}
    (mem : (item, offset) ∈ items) : first ≤ offset ∧ offset + item.width ≤ last := by
  induction h with
  | nil => cases mem
  | cons later ih =>
    rcases List.mem_cons.mp mem with same | mem
    · cases same
      exact ⟨Nat.le_refl _, later.le⟩
    · have := ih mem
      omega

/-- The first item stands at the first offset. -/
theorem head {rest : List (Item × Nat)} {item : Item} {offset : Nat}
    (h : Consecutive first last ((item, offset) :: rest)) : offset = first := by
  cases h
  rfl

/-- The items behind an item start where it stops. -/
theorem split {before after : List (Item × Nat)} {item : Item} {offset : Nat}
    (h : Consecutive first last (before ++ (item, offset) :: after)) :
    Consecutive first offset before ∧ Consecutive (offset + item.width) last after := by
  induction before generalizing first with
  | nil =>
    cases h with
    | cons later => exact ⟨.nil, later⟩
  | cons entry before ih =>
    cases h with
    | cons later =>
      obtain ⟨front, back⟩ := ih later
      exact ⟨.cons front, back⟩

/-- Items that fill no offset are nodes. -/
theorem nodes (h : Consecutive first first items) :
    ∃ nodes : List FlowNode, items = nodes.map fun node ↦ (.node node, first) := by
  induction items with
  | nil => exact ⟨[], rfl⟩
  | cons entry rest ih =>
    obtain ⟨item, offset⟩ := entry
    obtain rfl := h.head
    cases h with
    | cons later =>
      have le := later.le
      cases item with
      | node node =>
        obtain ⟨nodes, rfl⟩ := ih later
        exact ⟨node :: nodes, rfl⟩
      | instr source operation =>
        simp only [Item.width] at le
        omega

end Consecutive
end Code
end ProtectedRegions
