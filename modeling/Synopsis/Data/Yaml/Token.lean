import Synopsis.Data.Yaml.ScalarText

/-! # Tokens of a YAML stream

Indentation opens and closes blocks. What turns out to be a key only when its
colon is met gets its tokens put in front of it afterwards.
-/

namespace Synopsis.Yaml

inductive Token where
  | directive
  | documentStart
  | documentEnd
  | blockSequence
  | blockMapping
  | blockEnd
  | flowSequence
  | flowSequenceEnd
  | flowMapping
  | flowMappingEnd
  | blockEntry
  | flowEntry
  | key
  | value
  | alias (name : String)
  | anchor (name : String)
  | tag (text : String)
  /-- Whether the scalar is plain, and its text. -/
  | scalar (isPlain : Bool) (text : String)
  deriving DecidableEq, Repr

/-- Something that may turn out to be a key. -/
structure PossibleKey where
  /-- Nothing but a key can stand there. -/
  isRequired : Bool
  /-- The number of tokens before it. -/
  place : Nat
  start : Cursor

structure Scanner where
  cursor : Cursor
  /-- The last token first. -/
  tokens : List Token := []
  count : Nat := 0
  /-- One for the block context, and one for each open bracket. -/
  keys : List (Option PossibleKey) := [none]
  indent : Int := -1
  outerIndents : List Int := []
  /-- A key may begin here. -/
  keyAllowed : Bool := true

namespace Scanner

def inFlow (s : Scanner) : Bool := 1 < s.keys.length

def push (s : Scanner) (t : Token) : Scanner :=
  { s with tokens := t :: s.tokens, count := s.count + 1 }

/-- Puts tokens in front of all but the first `place` ones. -/
def insert (s : Scanner) (place : Nat) (ts : List Token) : Scanner :=
  let later := s.count - place
  { s with
    tokens := s.tokens.take later ++ ts.reverse ++ s.tokens.drop later
    count := s.count + ts.length }

def advance (s : Scanner) (n : Nat) : Scanner := { s with cursor := s.cursor.advance n }

def allowKey (s : Scanner) (b : Bool) : Scanner := { s with keyAllowed := b }

/-! ## Indentation -/

/-- Whether something at a column begins a block. -/
def isDeeper (s : Scanner) (column : Nat) : Bool := !s.inFlow && s.indent < column

def indentTo (s : Scanner) (column : Nat) : Scanner :=
  { s with indent := column, outerIndents := s.indent :: s.outerIndents }

/-- Opens a block if something at the cursor is indented deeper than the last one. -/
def openBlock (s : Scanner) (t : Token) : Scanner :=
  if s.isDeeper s.cursor.column then (s.push t).indentTo s.cursor.column else s

/-- Closes the blocks that are indented deeper than a column. -/
def closeBlocks (s : Scanner) (column : Int) : Scanner :=
  if s.inFlow then s else go s s.outerIndents
where
  go (s : Scanner) : List Int → Scanner
    | [] => s
    | outer :: rest =>
      if column < s.indent then
        go { s.push .blockEnd with indent := outer, outerIndents := rest } rest
      else s

/-! ## Possible keys -/

/-- Gives up the possible key of the current level. -/
def dropKey? (s : Scanner) : Option Scanner :=
  match s.keys with
  | some k :: rest => if k.isRequired then none else some { s with keys := none :: rest }
  | _ => some s

/-- Notes that a key may begin at the cursor. -/
def noteKey? (s : Scanner) : Option Scanner := do
  if !s.keyAllowed then some s
  else
    let s ← s.dropKey?
    let isRequired := !s.inFlow && s.indent = s.cursor.column
    some { s with keys := some ⟨isRequired, s.count, s.cursor⟩ :: s.keys.drop 1 }

def maxKeyLength : Nat := 1024

/-- A key ends on its line, and is not too long. -/
def isStale (s : Scanner) (k : PossibleKey) : Bool :=
  k.start.line < s.cursor.line || k.start.index + maxKeyLength < s.cursor.index

/-- Gives up the keys that cannot be keys any more. -/
def dropStaleKeys? (s : Scanner) : Option Scanner := do
  let keys ← s.keys.mapM fun
    | some k => if s.isStale k then if k.isRequired then none else some none else some (some k)
    | none => some none
  some { s with keys }

/-! ## Steps -/

/-- Passes over blanks, comments and line breaks. A tab may not stand where a key
may. -/
def skip : (limit : Nat) → Scanner → Scanner
  | 0, s => s
  | limit + 1, s =>
    let c := if s.cursor.index = 0 && s.cursor.isAt '\ufeff' then s.cursor.advance 1 else s.cursor
    let c := c.skipWhile fun ch => ch = ' ' || (s.inFlow || !s.keyAllowed) && ch = '\t'
    let c := c.skipComment
    if c.atBreak then
      skip limit { s with cursor := c.takeBreak.2, keyAllowed := s.keyAllowed || !s.inFlow }
    else { s with cursor := c }

def beginDocumentPart? (s : Scanner) : Option Scanner := do
  some ((← (s.closeBlocks (-1)).dropKey?).allowKey false)

def directive? (s : Scanner) : Option Scanner := do
  let s ← s.beginDocumentPart?
  let (line, c) := s.cursor.takeWhile (!isBreak ·)
  let words := (String.ofList line).splitOn " " |>.filter (· ≠ "")
  match words with
  | "%YAML" :: version :: rest =>
    guard (version = "1.1" ∨ version = "1.2")
    guard (rest.head?.all (·.startsWith "#"))
    some { s.push .directive with cursor := c }
  | "%TAG" :: _ :: _ :: rest =>
    guard (rest.head?.all (·.startsWith "#"))
    some { s.push .directive with cursor := c }
  | _ => none

def mark? (s : Scanner) (t : Token) : Option Scanner := do
  some ((← s.beginDocumentPart?).push t |>.advance 3)

def openFlow? (s : Scanner) (t : Token) : Option Scanner := do
  let s ← s.noteKey?
  some (({ s with keys := none :: s.keys }.allowKey true).push t |>.advance 1)

def closeFlow? (s : Scanner) (t : Token) : Option Scanner := do
  let s ← s.dropKey?
  let keys := if s.inFlow then s.keys.drop 1 else s.keys
  some (({ s with keys }.allowKey false).push t |>.advance 1)

def flowEntry? (s : Scanner) : Option Scanner := do
  some (((← s.dropKey?).allowKey true).push .flowEntry |>.advance 1)

def blockEntry? (s : Scanner) : Option Scanner := do
  if !s.inFlow && !s.keyAllowed then none
  else some (((← (s.openBlock .blockSequence).dropKey?).allowKey true).push .blockEntry |>.advance 1)

def explicitKey? (s : Scanner) : Option Scanner := do
  if !s.inFlow && !s.keyAllowed then none
  else
    let s ← (s.openBlock .blockMapping).dropKey?
    some ((s.allowKey (!s.inFlow)).push .key |>.advance 1)

def value? (s : Scanner) : Option Scanner := do
  match s.keys with
  | some k :: rest =>
    let column := k.start.column
    let t := if s.isDeeper column then ({ s with keys := none :: rest }.insert k.place
        [.blockMapping, .key]).indentTo column
      else { s with keys := none :: rest }.insert k.place [.key]
    some ((t.allowKey false).push .value |>.advance 1)
  | _ =>
    if !s.inFlow && !s.keyAllowed then none
    else
      let s := s.openBlock .blockMapping
      some ((s.allowKey (!s.inFlow)).push .value |>.advance 1)

def isNameChar (c : Char) : Bool := c.isAlphanum || c = '_' || c = '-'

/-- A name behind `&` or `*`. -/
def named? (s : Scanner) (t : String → Token) : Option Scanner := do
  let s := (← s.noteKey?).allowKey false
  let (name, c) := (s.cursor.advance 1).takeWhile isNameChar
  guard (!name.isEmpty)
  guard (c.blankBehind 0 || c.peek?.any fun ch => "?:,]\x7d%@`".contains ch)
  some { s.push (t (String.ofList name)) with cursor := c }

def tag? (s : Scanner) : Option Scanner := do
  let s := (← s.noteKey?).allowKey false
  let isTagChar (c : Char) := !isBlankOrBreak c && !(s.inFlow && isFlowIndicator c)
  let (text, c) := s.cursor.takeWhile isTagChar
  guard (c.blankBehind 0 || s.inFlow && c.isAt ',')
  some { s.push (.tag (String.ofList text)) with cursor := c }

def block? (s : Scanner) (isFolded : Bool) : Option Scanner := do
  let s := (← s.dropKey?).allowKey true
  let (text, c) ← blockScalar? isFolded s.indent (s.cursor.advance 1)
  some { s.push (.scalar false (String.ofList text)) with cursor := c }

def quoted? (s : Scanner) (double : Bool) : Option Scanner := do
  let s := (← s.noteKey?).allowKey false
  let (text, c) ← Yaml.quoted? double (s.cursor.rest.length + 1) [] (s.cursor.advance 1)
  some { s.push (.scalar false (String.ofList text)) with cursor := c }

def plain? (s : Scanner) : Option Scanner := do
  let s := (← s.noteKey?).allowKey false
  let indent := (s.indent + 1).toNat
  let (text, last) ← Yaml.plain? s.inFlow indent (s.cursor.rest.length + 1) [] {} s.cursor
  some { s.push (.scalar true (String.ofList text)) with
    cursor := last.cursor, keyAllowed := last.broken }

/-- Reads the next token. -/
def step? (s : Scanner) : Option Scanner :=
  let c := s.cursor
  let indicated := s.inFlow || c.blankBehind 1
  if c.column = 0 && c.isAt '%' then s.directive?
  else if c.atMark ['-', '-', '-'] then s.mark? .documentStart
  else if c.atMark ['.', '.', '.'] then s.mark? .documentEnd
  else match c.peek? with
    | some '[' => s.openFlow? .flowSequence
    | some '\x7b' => s.openFlow? .flowMapping
    | some ']' => s.closeFlow? .flowSequenceEnd
    | some '\x7d' => s.closeFlow? .flowMappingEnd
    | some ',' => s.flowEntry?
    | some '*' => s.named? .alias
    | some '&' => s.named? .anchor
    | some '!' => s.tag?
    | some '\'' => s.quoted? false
    | some '"' => s.quoted? true
    | some '-' => if c.blankBehind 1 then s.blockEntry? else s.plain?
    | some '?' => if indicated then s.explicitKey? else s.plain?
    | some ':' => if indicated then s.value? else s.plain?
    | some '|' => if s.inFlow then none else s.block? false
    | some '>' => if s.inFlow then none else s.block? true
    | some ch => if "#%@`".contains ch || isBlankOrBreak ch then none else s.plain?
    | none => none

/-- All tokens up to the end of the text. -/
def tokens? : (limit : Nat) → Scanner → Option (List Token)
  | 0, _ => none
  | limit + 1, s => do
    let s ← (s.skip (s.cursor.rest.length + 1)).dropStaleKeys?
    let s := s.closeBlocks s.cursor.column
    if s.cursor.atEnd then
      let s ← (s.closeBlocks (-1)).dropKey?
      some s.tokens.reverse
    else tokens? limit (← s.step?)

end Scanner

/-- The tokens of a text, if it is well-formed as far as tokens go. -/
def tokenize? (text : String) : Option (List Token) := do
  let cs := text.toList
  guard (cs.all isAllowed)
  Scanner.tokens? (cs.length + 2) { cursor := { rest := cs } }

end Synopsis.Yaml
