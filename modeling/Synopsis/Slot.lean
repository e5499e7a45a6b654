import Synopsis.Value

/-! # Slots

What one leaf has recorded in the course of a match, and the table of all
slots.
-/

namespace Synopsis

inductive Slot where
  | unset
  | flag (b : Bool)
  | count (n : Nat)
  | text (s : String)
  | list (items : List String)
  deriving DecidableEq, Repr, Inhabited

namespace Slot

def isTruthy : Slot → Bool
  | .unset => false
  | .flag b => b
  | .count n => n != 0
  | .text s => !s.isEmpty
  | .list items => !items.isEmpty

/-- An argument holds something, be it an empty text. -/
def hasText : Slot → Bool
  | .text _ => true
  | .list items => !items.isEmpty
  | _ => false

/-- How often a flag or command was met; `none` for texts. -/
def count? : Slot → Option Nat
  | .unset => some 0
  | .flag b => some b.toNat
  | .count n => some n
  | .text _ | .list _ => none

/-- Counts one more, or raises the flag when not counting. -/
def hit (counting : Bool) (s : Slot) : Slot :=
  if counting then .count (s.count?.getD 0 + 1) else .flag true

def texts : Slot → List String
  | .text s => [s]
  | .list items => items
  | _ => []

/-- The number of texts. -/
def size (s : Slot) : Nat := s.texts.length

/-- Adds a text behind the others when repeating, and stands for it alone otherwise. -/
def pushText (text : String) (repeating : Bool) (s : Slot) : Slot :=
  if repeating then .list (s.texts ++ [text]) else .text text

/-- The last text, and the slot without it. -/
def popText? : Slot → Option (String × Slot)
  | .text s => some (s, .unset)
  | .list items => items.getLast?.map (·, .list items.dropLast)
  | _ => none

def toValue : Slot → Value
  | .unset => .null
  | .flag b => .bool b
  | .count n => .int n
  | .text s => .str s
  | .list items => .list items

end Slot

/-- One slot for each leaf, by number. Slots behind the last one are unset. -/
structure Slots where
  cells : List Slot
  deriving DecidableEq, Repr

namespace Slots

def blank (size : Nat) : Slots := ⟨List.replicate size .unset⟩

def reset (s : Slots) : Slots := blank s.cells.length

def get (s : Slots) (i : Nat) : Slot := s.cells.getD i .unset

/-- Grows the table when the slot lies behind its end. -/
def set (s : Slots) (i : Nat) (v : Slot) : Slots :=
  if i < s.cells.length then ⟨s.cells.set i v⟩
  else ⟨s.cells ++ List.replicate (i - s.cells.length) .unset ++ [v]⟩

def modify (s : Slots) (i : Nat) (f : Slot → Slot) : Slots := s.set i (f (s.get i))

@[simp] theorem get_blank (size i : Nat) : (blank size).get i = .unset := by
  simp [blank, get, List.getD_eq_getElem?_getD, List.getElem?_replicate]
  split <;> rfl

theorem get_set (s : Slots) (i j : Nat) (v : Slot) :
    (s.set i v).get j = if j = i then v else s.get j := by
  unfold set get
  simp only [List.getD_eq_getElem?_getD]
  split
  · rename_i h
    simp only [List.getElem?_set]
    grind
  · rename_i h
    grind

end Slots

end Synopsis
