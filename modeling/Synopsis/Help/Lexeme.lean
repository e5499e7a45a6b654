import Synopsis.Pattern.Basic
import Synopsis.Text.Blank
import Synopsis.Text.CaseFold
import Synopsis.Text.Cut
import Synopsis.Text.Ranges

/-! # Words of a usage line

Brackets, bars and ellipses are words of their own wherever they stand.
Placeholders such as `<file name>` are one word, blanks included.
-/

namespace Synopsis.Help

inductive Lexeme where
  | opening (kind : GroupKind)
  | closing (kind : GroupKind)
  | bar
  | ellipsis
  /-- `[options]`, or `[title-options]` with the title `title-`. -/
  | shortcut (title : String)
  | option (text : String)
  /-- `--name=<value>` or `-n<value>`. -/
  | optionWithValue (name value : String)
  /-- `--name=` before a bracket. -/
  | assignment (name : String)
  | command (text : String)
  | argument (text : String)
  deriving DecidableEq, Repr

/-! ## Single words -/

inductive WordClass where
  | option
  | command
  | argument
  deriving DecidableEq, Repr

def isWordChar (c : Char) : Bool := c.isAlpha || c = '_' || Text.isDigit c

/-- Nothing, or a letter, digit or underscore, behind which hyphens may stand too. -/
def isPlainWord : List Char → Bool
  | [] => true
  | c :: cs => isWordChar c && cs.all fun c => isWordChar c || c = '-'

/-- `<`, anything on one line, `>`. -/
def isPlaceholder (word : List Char) : Bool :=
  2 ≤ word.length && word.head? = some '<' && word.getLast? = some '>' && !word.contains '\n'

/-- Without small letters, but not without capital ones. -/
def isUpper (word : List Char) : Bool := word.any Char.isUpper && !word.any Char.isLower

/-- What a word stands for by itself. -/
def classOf (word : List Char) : WordClass :=
  match word with
  | ['-'] | ['-', '-'] => .command
  | ['-', '?'] => .option
  | '-' :: '-' :: rest => if isPlainWord rest then .option else .command
  | '-' :: rest => if isPlainWord rest then .option else .command
  | word =>
    if isPlainWord word then if isUpper word then .argument else .command
    else if isPlaceholder word then .argument
    else .command

def optionsWord : List Char := "options".toList

/-- The title of the shortcut that a text begins with, and the text behind it. -/
def shortcut? : List Char → Option (List Char × List Char)
  | '[' :: cs => do
    let inner := cs.takeWhile fun c => !Text.isBlank c && c ≠ '[' && c ≠ ']'
    let (title, last) := inner.splitAt (inner.length - optionsWord.length)
    let ']' :: rest := cs.drop inner.length | none
    guard ((last.map Text.fold) = optionsWord ∧ title.head? ≠ some '-')
    some (title, rest)
  | _ => none

/-- `--name=value`, unless the value is neither missing nor a placeholder. -/
def assignment? (word : List Char) : Option Lexeme := do
  let (name, value) ← Text.cutAt? ['='] word
  guard (classOf name = .option)
  if value.isEmpty then some (.assignment (String.ofList name))
  else
    guard (classOf value = .argument)
    some (.optionWithValue (String.ofList name) (String.ofList value))

/-- `-n<value>`. -/
def attachment? (word : List Char) : Option Lexeme := do
  let (name, rest) ← Text.cutAt? ['<'] word
  let value := '<' :: rest
  guard (classOf name = .option ∧ classOf value = .argument)
  some (.optionWithValue (String.ofList name) (String.ofList value))

def Lexeme.ofAtom (word : List Char) : Lexeme :=
  let withValue := match word with
    | '-' :: '-' :: _ => assignment? word
    | '-' :: _ => attachment? word
    | _ => none
  let text := String.ofList word
  withValue.getD <| match classOf word with
    | .option => .option text
    | .command => .command text
    | .argument => .argument text

def Lexeme.ofWord (word : List Char) : Lexeme :=
  match word with
  | ['('] => .opening .required
  | ['['] => .opening .optional
  | [')'] => .closing .required
  | [']'] => .closing .optional
  | ['|'] => .bar
  | ['.', '.', '.'] => .ellipsis
  | word =>
    match shortcut? word with
    | some (title, []) => .shortcut (String.ofList title)
    | _ => ofAtom word

/-! ## Lines -/

def isMarkChar (c : Char) : Bool := "|[]()".toList.contains c

/-- The length of the ellipsis or single mark that a text begins with. -/
def markSize : List Char → Nat
  | '.' :: '.' :: '.' :: _ => 3
  | c :: _ => if isMarkChar c then 1 else 0
  | [] => 0

/-- Puts spaces around the pieces that the function finds, which gives the length
of the piece at the front, or 0 if there is none. -/
def setApart (size : List Char → Nat) (cs : List Char) : List Char :=
  (Text.pieces size cs).flatMap fun piece =>
    if size piece = 0 then piece else ' ' :: piece ++ [' ']

def shortcutOrMarkSize (cs : List Char) : Nat :=
  match shortcut? cs with
  | some (_, rest) => cs.length - rest.length
  | none => markSize cs

/-- The text behind the next `>` on the line. -/
def behindClose? : List Char → Option (List Char)
  | [] => none
  | c :: cs => if c = '>' then some cs else if c = '\n' then none else behindClose? cs

/-- The text behind the placeholder of which the `<` stands in the word at the
front. Of several, it is the last one that is closed. -/
def behindPlaceholder? : List Char → Option (List Char)
  | [] => none
  | c :: cs =>
    if Text.isBlank c then none
    else (behindPlaceholder? cs).or (if c = '<' then behindClose? cs else none)

def blankSize (cs : List Char) : Nat := (cs.takeWhile Text.isBlank).length

def inkSize (cs : List Char) : Nat := (cs.takeWhile (!Text.isBlank ·)).length

/-- The length of the blanks or the word at the front. A placeholder belongs to
the word that it begins in, and to the one that it ends in. -/
def wordSize (cs : List Char) : Nat :=
  if 0 < blankSize cs then blankSize cs
  else if (shortcut? cs).isSome then inkSize cs
  else match behindPlaceholder? cs with
    | some rest => cs.length - rest.length + inkSize rest
    | none => inkSize cs

/-- The pieces of a line that are not blank. -/
def inkPieces (size : List Char → Nat) (cs : List Char) : List (List Char) :=
  (Text.pieces size cs).filter (!Text.isAllBlank ·)

def lex (line : List Char) : List Lexeme :=
  (inkPieces wordSize (setApart shortcutOrMarkSize (Text.trim line))).map .ofWord

end Synopsis.Help
