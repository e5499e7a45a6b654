import Synopsis.Data.Yaml.Scalar

/-! # Styles of YAML scalars

How a text is written: plain if it reads back as the same text, between single
quotes if that needs no escapes, as a literal block if it has several lines, and
between double quotes otherwise.
-/

namespace Synopsis.Yaml

/-- Ends a line. -/
def isBreak (c : Char) : Bool :=
  c = '\n' || c = '\r' || c = '\x85' || c = '\u2028' || c = '\u2029'

/-- May be written as it is. -/
def isPrintable (c : Char) : Bool :=
  let n := c.toNat
  n = 0x0A || 0x20 ≤ n && n ≤ 0x7E || 0xA0 ≤ n && n ≤ 0xD7FF
    || 0xE000 ≤ n && n ≤ 0xFFFD && n ≠ 0xFEFF

inductive Style where
  | plain
  | singleQuoted
  | doubleQuoted
  | literal
  deriving DecidableEq, Repr

/-! ## What a text contains -/

def isBlankOrBreak (c : Char) : Bool := c = ' ' || c = '\t' || isBreak c

/-- The end of the text counts as a blank. -/
def blankNext (cs : List Char) : Bool := cs.head?.all isBlankOrBreak

/-- The first character, with what follows, would be read as an indicator. -/
def startsWithIndicator : List Char → Bool
  | [] => false
  | c :: cs =>
    "#,[]\x7b\x7d&*!|>'\"%@`".contains c || (c = '?' || c = ':' || c = '-') && blankNext cs

/-- A mapping value or a comment would begin behind the first character. -/
def hasInnerIndicator : List Char → Bool
  | a :: b :: cs =>
    b = ':' && blankNext cs || b = '#' && isBlankOrBreak a || hasInnerIndicator (b :: cs)
  | _ => false

/-- The text begins like the mark between two documents. -/
def startsLikeMark (cs : List Char) : Bool :=
  cs.take 3 == ['-', '-', '-'] || cs.take 3 == ['.', '.', '.']

/-- Two neighbours of which the first and the second are of the given kinds. -/
def hasPair (first second : Char → Bool) : List Char → Bool
  | a :: b :: cs => first a && second b || hasPair first second (b :: cs)
  | _ => false

def isSpace (c : Char) : Bool := c = ' '

/-- No quotes are needed outside keys and brackets. -/
def allowsPlain (cs : List Char) : Bool :=
  !(startsWithIndicator cs || hasInnerIndicator cs || startsLikeMark cs
    || cs.head?.any isSpace || cs.getLast?.any isSpace || cs.any isBreak
    || !cs.all isPrintable)

def allowsSingleQuoted (cs : List Char) : Bool :=
  cs.all isPrintable && !hasPair isBreak isSpace cs && !hasPair isSpace isBreak cs

def allowsLiteral (cs : List Char) : Bool :=
  !cs.isEmpty && cs.all isPrintable && !cs.getLast?.any isSpace && !hasPair isSpace isBreak cs

/-- Unquoted, the text would stand for something else. -/
def needsQuotes (text : String) : Bool :=
  match resolve text with
  | .str _ => hasLeadingZero text.toList
  | _ => true

/-- The style of a text, which may be a key that has to stay on its line. -/
def styleOf (isKey : Bool) (text : String) : Style :=
  let cs := text.toList
  if isKey && cs.any isBreak then .doubleQuoted
  else if cs.contains '\n' then
    if allowsLiteral cs && !isKey then .literal else .doubleQuoted
  else if !needsQuotes text && allowsPlain cs then .plain
  else if allowsSingleQuoted cs then .singleQuoted
  else .doubleQuoted

end Synopsis.Yaml
