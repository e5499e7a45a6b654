import Synopsis.Config
import Synopsis.Help.Element
import Synopsis.Pattern.Arity
import Synopsis.Pattern.Render
import Synopsis.Pattern.Simplify
import Synopsis.Text.Columns

/-! # Option declarations

An entry of an options section begins with the names of an option and what it
takes. A description follows behind two spaces or a tab; lines that are indented
as deep continue it. Its last line may end with a default.
-/

namespace Synopsis.Help

/-! ## Entries -/

structure Entry where
  declaration : List Char
  /-- Lines indented this deep continue the entry. -/
  indent : Nat
  lastLine : List Char

def isGap : List Char → Bool
  | ' ' :: ' ' :: _ => true
  | '\t' :: _ => true
  | _ => false

/-- The length of the text at the front, up to a gap. -/
def sizeUpToGap : List Char → Nat
  | [] => 0
  | c :: cs => if isGap (c :: cs) then 0 else sizeUpToGap cs + 1

def gapOrTextSize (cs : List Char) : Nat := if isGap cs then blankSize cs else sizeUpToGap cs

/-- Opening brackets less closing ones. -/
def bracketBalance (cs : List Char) : Int :=
  cs.foldr (fun c n =>
    if "([<".toList.contains c then n + 1 else if ")]>".toList.contains c then n - 1 else n) 0

/-- The text before the first gap that stands outside brackets, that gap, and the
rest, given the number of brackets that are open. -/
def cutAtGap (depth : Int) : List (List Char) → List Char × List Char × List Char
  | [] => ([], [], [])
  | piece :: rest =>
    let depth := depth + bracketBalance piece
    if depth = 0 && Text.isAllBlank piece && 2 ≤ Text.width piece then ([], piece, rest.flatten)
    else
      let (before, gap, behind) := cutAtGap depth rest
      (piece ++ before, gap, behind)

/-- A line's declaration with the blanks before it, the gap, and the description. -/
def cutDeclaration (line : List Char) : List Char × List Char × List Char :=
  match Text.pieces gapOrTextSize line with
  | [] => ([], [], [])
  | piece :: rest =>
    if Text.isAllBlank piece then
      let (before, gap, behind) := cutAtGap 0 rest
      (piece ++ before, gap, behind)
    else cutAtGap 0 (piece :: rest)

def Entry.ofLine (line : List Char) : Entry :=
  let (declaration, gap, description) := cutDeclaration line
  { declaration := Text.trim declaration
    indent := if Text.isAllBlank description then 2 + Text.indentation declaration
      else Text.width declaration + Text.width gap
    lastLine := line }

/-- Adds a line to the entries read so far, the last one first. -/
def addEntryLine (entries : List Entry) (line : List Char) : List Entry :=
  match entries with
  | last :: rest =>
    if last.indent ≤ Text.leadingSpaces line then { last with lastLine := line } :: rest
    else .ofLine line :: entries
  | [] => [.ofLine line]

def entries (body : List Char) : List Entry :=
  let lines := (Text.lines body).filter (!Text.isAllBlank ·)
  (lines.foldl addEntryLine []).reverse

/-! ## Defaults -/

def defaultMarker : List Char := "[default: ".toList

/-- The text behind the first marker. -/
def behindMarker? : List Char → Option (List Char)
  | [] => none
  | c :: cs =>
    if ((c :: cs).take defaultMarker.length).map Text.fold = defaultMarker then
      some ((c :: cs).drop defaultMarker.length)
    else behindMarker? cs

/-- What stands in `[default: ...]` at the end of a line. -/
def default? (line : List Char) : Option String :=
  match line.reverse.dropWhile (· = ' ') with
  | ']' :: before => (behindMarker? before.reverse).map String.ofList
  | _ => none

/-! ## Declarations -/

/-- The length of the blanks, the placeholder, or the text up to either of them. -/
def declarationWordSize (cs : List Char) : Nat :=
  let closed? : List Char → Option (List Char)
    | '<' :: cs => behindClose? cs
    | _ => none
  let rec textSize : List Char → Nat
    | [] => 0
    | c :: cs => if Text.isBlank c || (closed? (c :: cs)).isSome then 0 else textSize cs + 1
  if 0 < blankSize cs then blankSize cs
  else match closed? cs with
    | some rest => cs.length - rest.length
    | none => textSize cs

def declarationWords (declaration : List Char) : List (List Char) :=
  let spaced := declaration.map fun c => if c = ',' || c = '=' then ' ' else c
  inkPieces declarationWordSize (setApart markSize spaced)

/-- The name and the attached value of a word that begins with a hyphen. -/
def splitShort (standard : Bool) (word : List Char) : List Char × List Char :=
  match word with
  | '-' :: '-' :: _ => (word, [])
  | _ => if standard then word.splitAt 2 else (word, [])

/-- What a declaration says besides the names. -/
structure Declared where
  names : Names := {}
  values : List Pattern := []
  repeats : Bool := false

namespace Declared

def addName (d : Declared) (standard : Bool) (word : List Char) : Declared :=
  let (name, value) := splitShort standard word
  { d with
    names := d.names.insert (String.ofList name)
    values := d.values ++
      if value.isEmpty then [] else [.required [.argumentNamed (String.ofList value)]] }

/-- Adds the words between two names: a value, or an ellipsis by itself. -/
def addWords (d : Declared) (config : Config) (declaration : List Char) (words : List (List Char)) :
    Except BuildError Declared :=
  match words with
  | [] => .ok d
  | ['.', '.', '.'] :: rest =>
    if rest.isEmpty then .ok { d with repeats := true }
    else .error (.argumentAfterEllipsis (String.ofList declaration))
  | words => do
    let elements ← parseLine config {} declaration (words.map .ofWord)
    return { d with values := d.values ++ (Pattern.required elements).simplify.toList }

/-- Adds the words from one name to the next, that name, and so on. -/
def addAll (config : Config) (declaration : List Char) (d : Declared) :
    (between : List (List Char)) → List (List Char) → Except BuildError Declared
  | between, [] => d.addWords config declaration between
  | between, word :: words =>
    if word.head? = some '-' then do
      let d ← d.addWords config declaration between
      addAll config declaration (d.addName config.standardLongOptions word) [] words
    else addAll config declaration d (between ++ [word]) words

/-- Two values that differ in arity cannot both be meant. -/
def value? (d : Declared) : Except BuildError (Option Pattern) :=
  match d.values with
  | [] => .ok none
  | first :: others =>
    match others.find? (·.arity ≠ first.arity) with
    | some other =>
      .error (.inconsistentArity (d.names.join ", ") first.arity.render other.arity.render)
    | none => .ok (some first)

end Declared

/-- The option that a declaration announces, and whether it may be repeated. -/
def parseDeclaration (config : Config) (declaration : List Char) :
    Except BuildError (OptionAtom × Bool) := do
  let words := declarationWords declaration
  if words.head?.bind List.head? ≠ some '-' then
    throw (.malformedOption (String.ofList declaration))
  let d ← Declared.addAll config declaration {} [] words
  return ({ names := d.names, value := ← d.value? }, d.repeats)

/-- The options of a section. -/
def parseOptions (config : Config) (title : String) (body : List Char) :
    Except BuildError OptionGroup :=
  (entries body).foldlM (fun g e => do
    let (o, repeats) ← parseDeclaration config e.declaration
    return g.push { o with default := default? e.lastLine } repeats) { title }

end Synopsis.Help
