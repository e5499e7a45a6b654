import Synopsis.Data.Yaml.Cursor

/-! # Reading YAML scalars

The text of plain and quoted scalars and of blocks, and the place behind them.
-/

namespace Synopsis.Yaml

/-! ## Plain scalars -/

def isFlowIndicator (c : Char) : Bool := ",[]\x7b\x7d".contains c

/-- The characters of a plain scalar up to a blank or an indicator. -/
def plainWord? (inFlow : Bool) : List Char → Option (List Char)
  | [] => some []
  | c :: cs =>
    if isBlankOrBreak c then some []
    else if inFlow && c = ':' && cs.head?.any fun d => isFlowIndicator d || d = '?' then none
    else if c = ':' && blankNext cs || inFlow && isFlowIndicator c then some []
    else (plainWord? inFlow cs).map (c :: ·)

/-- Where a scalar ends, and whether a line break was passed behind its last word. -/
structure Ending where
  cursor : Cursor
  broken : Bool

def plain? (inFlow : Bool) (indent : Nat) :
    (limit : Nat) → (text : List Char) → Gap → Cursor → Option (List Char × Ending)
  | 0, _, _, _ => none
  | limit + 1, text, gap, c =>
    if c.atAnyMark || c.isAt '#' then some (text, ⟨c, gap.broken⟩)
    else do
      let word ← plainWord? inFlow c.rest
      let c := c.advance word.length
      let (text, gap) := if word.isEmpty then (text, gap) else (text ++ gap.text ++ word, {})
      if !(c.atBlank || c.atBreak) then some (text, ⟨c, gap.broken⟩)
      else
        let (gap, c) ← Gap.take? indent (c.rest.length + 1) gap c
        if !inFlow && c.column < indent then some (text, ⟨c, gap.broken⟩)
        else plain? inFlow indent limit text gap c

/-! ## Quoted scalars -/

def hexValue? (cs : List Char) (count : Nat) : Option Nat := do
  guard (count ≤ cs.length)
  natInBase? 16 (cs.take count)

/-- The character that an escape stands for, and the number of digits that belong
to it. -/
def escape? : List Char → Option (Char × Nat)
  | '0' :: _ => some ('\x00', 0)
  | 'a' :: _ => some ('\x07', 0)
  | 'b' :: _ => some ('\x08', 0)
  | 't' :: _ | '\t' :: _ => some ('\t', 0)
  | 'n' :: _ => some ('\n', 0)
  | 'v' :: _ => some ('\x0b', 0)
  | 'f' :: _ => some ('\x0c', 0)
  | 'r' :: _ => some ('\r', 0)
  | 'e' :: _ => some ('\x1b', 0)
  | ' ' :: _ => some (' ', 0)
  | '"' :: _ => some ('"', 0)
  | '/' :: _ => some ('/', 0)
  | '\\' :: _ => some ('\\', 0)
  | 'N' :: _ => some ('\x85', 0)
  | '_' :: _ => some ('\xa0', 0)
  | 'L' :: _ => some ('\u2028', 0)
  | 'P' :: _ => some ('\u2029', 0)
  | 'x' :: cs => char cs 2
  | 'u' :: cs => char cs 4
  | 'U' :: cs => char cs 8
  | _ => none
where
  char (cs : List Char) (count : Nat) : Option (Char × Nat) := do
    let n ← hexValue? cs count
    guard n.isValidChar
    some (Char.ofNat n, count)

/-- The characters of a quoted scalar up to a blank or the closing quote, and
whether a line break was escaped behind them. -/
def quotedWord? (double : Bool) :
    (limit : Nat) → (text : List Char) → Cursor → Option (List Char × Bool × Cursor)
  | 0, _, _ => none
  | limit + 1, text, c =>
    match c.rest with
    | [] => some (text, false, c)
    | ch :: cs =>
      if isBlankOrBreak ch then some (text, false, c)
      else if !double && ch = '\'' then
        if cs.head? = some '\'' then quotedWord? double limit (text ++ ['\'']) (c.advance 2)
        else some (text, false, c)
      else if double && ch = '"' then some (text, false, c)
      else if double && ch = '\\' then
        if cs.head?.any isBreak then some (text, true, (c.advance 1).takeBreak.2)
        else do
          let (meant, digits) ← escape? cs
          quotedWord? double limit (text ++ [meant]) (c.advance (2 + digits))
      else quotedWord? double limit (text ++ [ch]) (c.advance 1)

/-- Reads behind the opening quote. -/
def quoted? (double : Bool) :
    (limit : Nat) → (text : List Char) → Cursor → Option (List Char × Cursor)
  | 0, _, _ => none
  | limit + 1, text, c => do
    if c.atAnyMark || c.atEnd then none
    else
      let (text, escaped, c) ← quotedWord? double (c.rest.length + 1) text c
      if c.isAt (if double then '"' else '\'') then some (text, c.advance 1)
      else
        let (gap, c) ← Gap.take? 0 (c.rest.length + 1) { broken := escaped } c
        quoted? double limit (text ++ gap.text) c

/-! ## Blocks -/

inductive Chomping where
  | strip
  | clip
  | keep
  deriving DecidableEq

def chomping? (c : Cursor) : Option Chomping :=
  if c.isAt '+' then some .keep else if c.isAt '-' then some .strip else none

/-- The chomping and the indentation that the head of a block asks for, if any. -/
def blockHead? (c : Cursor) : Option (Chomping × Nat × Cursor) :=
  let digit? (c : Cursor) : Option (Nat × Cursor) :=
    match c.peek? with
    | some ch =>
      if ch = '0' then none
      else if ch.isDigit then some (ch.toNat - '0'.toNat, c.advance 1)
      else some (0, c)
    | none => some (0, c)
  match chomping? c with
  | some chomping => do
    let (n, c) ← digit? (c.advance 1)
    some (chomping, n, c)
  | none => do
    let (n, c) ← digit? c
    match chomping? c with
    | some chomping => if n = 0 then some (.clip, n, c) else some (chomping, n, c.advance 1)
    | none => some (.clip, n, c)

/-- Takes the indentation and the empty lines before a line of a block. The first
one tells the indentation, unless it is known. -/
def blockBreaks? (known : Option Nat) :
    (limit : Nat) → (widest : Nat) → (text : List Char) → Cursor → Option (Nat × List Char × Cursor)
  | 0, _, _, _ => none
  | limit + 1, widest, text, c =>
    let spaces := (c.rest.takeWhile (· = ' ')).length
    let c := c.advance (known.elim spaces fun n => min spaces (n - c.column))
    let widest := max widest c.column
    let inside := known.all (c.column < ·)
    if inside && c.isAt '\t' then none
    else if c.atBreak then
      let (line, c) := c.takeBreak
      blockBreaks? known limit widest (text ++ line) c
    else some (widest, text, c)

/-- The lines of a block that have its indentation. -/
def blockLines? (isFolded : Bool) (indent : Nat) :
    (limit : Nat) → (text lastBreak emptyLines : List Char) → (blankBefore : Bool) → Cursor →
      Option (List Char × List Char × List Char × Cursor)
  | 0, _, _, _, _, _ => none
  | limit + 1, text, lastBreak, emptyLines, blankBefore, c =>
    if c.column ≠ indent || c.atEnd then some (text, lastBreak, emptyLines, c)
    else do
      let joined := isFolded && lastBreak = ['\n'] && !blankBefore && !c.atBlank
      let text := text ++ (if joined then if emptyLines.isEmpty then [' '] else [] else lastBreak)
        ++ emptyLines
      let blankBefore := c.atBlank
      let (line, c) := c.takeWhile (!isBreak ·)
      let (lastBreak, c) := c.takeBreak
      let (_, emptyLines, c) ← blockBreaks? (some indent) (c.rest.length + 1) 0 [] c
      blockLines? isFolded indent limit (text ++ line) lastBreak emptyLines blankBefore c

/-- Reads behind the indicator of a block in something with the given indentation. -/
def blockScalar? (isFolded : Bool) (outer : Int) (c : Cursor) : Option (List Char × Cursor) := do
  let (chomping, increment, c) ← blockHead? c
  let c := (c.skipWhile isBlank).skipComment
  if !(c.atEnd || c.atBreak) then none
  else
    let c := c.takeBreak.2
    let known := if increment = 0 then none else some (outer.toNat + increment)
    let (widest, emptyLines, c) ← blockBreaks? known (c.rest.length + 1) 0 [] c
    let indent := known.getD (max (max widest (outer + 1).toNat) 1)
    let (text, lastBreak, emptyLines, c) ←
      blockLines? isFolded indent (c.rest.length + 1) [] [] emptyLines false c
    let kept := match chomping with
      | .strip => []
      | .clip => lastBreak
      | .keep => lastBreak ++ emptyLines
    some (text ++ kept, c)

end Synopsis.Yaml
