import Synopsis.Data.Yaml.Style

/-! # Places in a YAML stream

The rest of the text, and where it begins.
-/

namespace Synopsis.Yaml

def isBlank (c : Char) : Bool := c = ' ' || c = '\t'

/-- May occur in a stream. -/
def isAllowed (c : Char) : Bool :=
  isPrintable c || c = '\t' || c = '\r' || c = '\x85' || c = '\ufeff' || 0x10000 ≤ c.toNat

structure Cursor where
  rest : List Char
  index : Nat := 0
  line : Nat := 0
  column : Nat := 0

namespace Cursor

def peek? (c : Cursor) : Option Char := c.rest.head?

def isAt (c : Cursor) (ch : Char) : Bool := c.rest.head? = some ch

def atBlank (c : Cursor) : Bool := c.rest.head?.any isBlank

def atBreak (c : Cursor) : Bool := c.rest.head?.any isBreak

def atEnd (c : Cursor) : Bool := c.rest.isEmpty

/-- At a blank, a line break or the end, behind some characters. -/
def blankBehind (c : Cursor) (n : Nat) : Bool := blankNext (c.rest.drop n)

def advance (c : Cursor) (n : Nat) : Cursor :=
  { c with rest := c.rest.drop n, index := c.index + n, column := c.column + n }

def takeWhile (c : Cursor) (p : Char → Bool) : List Char × Cursor :=
  let cs := c.rest.takeWhile p
  (cs, c.advance cs.length)

def skipWhile (c : Cursor) (p : Char → Bool) : Cursor := (c.takeWhile p).2

/-- Takes a line break, if there is one. -/
def takeBreak (c : Cursor) : List Char × Cursor :=
  let below (n : Nat) (rest : List Char) : Cursor := ⟨rest, c.index + n, c.line + 1, 0⟩
  match c.rest with
  | '\r' :: '\n' :: rest => (['\n'], below 2 rest)
  | ch :: rest =>
    if ch = '\u2028' ∨ ch = '\u2029' then ([ch], below 1 rest)
    else if isBreak ch then (['\n'], below 1 rest)
    else ([], c)
  | [] => ([], c)

/-- At a line that begins or ends a document. -/
def atMark (c : Cursor) (mark : List Char) : Bool :=
  c.column = 0 && c.rest.take 3 == mark && c.blankBehind 3

def atAnyMark (c : Cursor) : Bool := c.atMark ['-', '-', '-'] || c.atMark ['.', '.', '.']

def skipComment (c : Cursor) : Cursor :=
  if c.isAt '#' then c.skipWhile (!isBreak ·) else c

end Cursor

/-! ## Gaps in scalars -/

/-- The blanks and line breaks between two words of a scalar. -/
structure Gap where
  /-- Those before the first break. -/
  blanks : List Char := []
  broken : Bool := false
  first : List Char := []
  others : List Char := []

namespace Gap

/-- What a gap contributes to the text: one line break becomes a space, and of
several ones all but the first are kept. -/
def text (g : Gap) : List Char :=
  if !g.broken then g.blanks
  else if g.first = ['\n'] then if g.others.isEmpty then [' '] else g.others
  else g.first ++ g.others

/-- Takes blanks and breaks. Behind a break, there may be no tab to the left of the
given column. -/
def take? (tabColumn : Nat) : (limit : Nat) → Gap → Cursor → Option (Gap × Cursor)
  | 0, _, _ => none
  | limit + 1, g, c =>
    match c.peek? with
    | none => some (g, c)
    | some ch =>
      if isBlank ch then
        if g.broken then
          if c.column < tabColumn && ch = '\t' then none else take? tabColumn limit g (c.advance 1)
        else take? tabColumn limit { g with blanks := g.blanks ++ [ch] } (c.advance 1)
      else if isBreak ch then
        let (text, c) := c.takeBreak
        if g.broken then take? tabColumn limit { g with others := g.others ++ text } c
        else take? tabColumn limit { g with broken := true, first := text } c
      else some (g, c)

end Gap

end Synopsis.Yaml
