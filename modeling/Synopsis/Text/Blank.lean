/-! # Blanks

Characters of the property White_Space, and what depends on them: trimming,
words and blank text. Lines end at a newline, a carriage return before it
included.
-/

namespace Synopsis.Text

def isBlank (c : Char) : Bool :=
  let n := c.toNat
  9 ≤ n && n ≤ 13 || n = 0x20 || n = 0x85 || n = 0xA0 || n = 0x1680
    || 0x2000 ≤ n && n ≤ 0x200A || n = 0x2028 || n = 0x2029 || n = 0x202F || n = 0x205F
    || n = 0x3000

def trimStart (cs : List Char) : List Char := cs.dropWhile isBlank

def trimEnd (cs : List Char) : List Char := (cs.reverse.dropWhile isBlank).reverse

def trim (cs : List Char) : List Char := trimEnd (trimStart cs)

def isAllBlank (cs : List Char) : Bool := cs.all isBlank

/-- The longest pieces without a character of the class. -/
def splitAt (sep : Char → Bool) : List Char → List (List Char)
  | [] => [[]]
  | c :: cs =>
    if sep c then [] :: splitAt sep cs
    else match splitAt sep cs with
      | piece :: pieces => (c :: piece) :: pieces
      | [] => [[c]]

def words (cs : List Char) : List (List Char) := (splitAt isBlank cs).filter (!·.isEmpty)

/-! ## Lines -/

def dropFinalReturn (line : List Char) : List Char :=
  if line.getLast? = some '\r' then line.dropLast else line

/-- The lines of a text. What follows the last newline is a line if it is not
empty, and keeps its carriage return. -/
def lines (cs : List Char) : List (List Char) :=
  let pieces := splitAt (· = '\n') cs
  pieces.dropLast.map dropFinalReturn ++ (pieces.getLast?.toList.filter (!·.isEmpty))

end Synopsis.Text
