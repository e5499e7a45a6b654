/-! # Columns

Where the characters of a line stand. A tab goes on to the next multiple of
eight columns.
-/

namespace Synopsis.Text

def tabWidth : Nat := 8

/-- Spaces in place of the tabs in text that begins at a column. -/
def expandTabs (column : Nat) : List Char → List Char
  | [] => []
  | c :: cs =>
    if c = '\t' then
      let width := tabWidth - column % tabWidth
      List.replicate width ' ' ++ expandTabs (column + width) cs
    else if c = '\n' ∨ c = '\r' then c :: expandTabs 0 cs
    else c :: expandTabs (column + 1) cs

/-- The number of characters when tabs are expanded. -/
def width (cs : List Char) : Nat := (expandTabs 0 cs).length

/-- The number of spaces at the front. -/
def leadingSpaces (cs : List Char) : Nat := (cs.takeWhile (· = ' ')).length

/-- The number of spaces at the front when tabs are expanded. -/
def indentation (cs : List Char) : Nat := leadingSpaces (expandTabs 0 cs)

end Synopsis.Text
