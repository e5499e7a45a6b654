import Synopsis.Config
import Synopsis.Text.Blank
import Synopsis.Text.CaseFold
import Synopsis.Text.Cut

/-! # Sections

A section begins with a line that starts with its title and goes on to the next
blank line. Options sections may have more words before the title.
-/

namespace Synopsis.Help

structure Section where
  /-- The words before the title of an options section. -/
  title : String
  /-- As written, with its title. -/
  raw : String
  /-- What follows the title, in its columns. -/
  body : List Char

/-! ## Headings -/

/-- The rest behind a title. -/
def dropTitle? (caseSensitive : Bool) : (title cs : List Char) → Option (List Char)
  | [], cs => some cs
  | _ :: _, [] => none
  | t :: ts, c :: cs =>
    if Text.sameChar caseSensitive t c then dropTitle? caseSensitive ts cs else none

/-- The shortest text without a newline or colon before a title, and the rest
behind that. -/
def cutAtTitle? (caseSensitive : Bool) (title : List Char) :
    List Char → Option (List Char × List Char)
  | [] => (dropTitle? caseSensitive title []).map ([], ·)
  | c :: cs =>
    match dropTitle? caseSensitive title (c :: cs) with
    | some rest => some ([], rest)
    | none =>
      if c = '\n' ∨ c = ':' then none
      else (cutAtTitle? caseSensitive title cs).map fun (before, rest) => (c :: before, rest)

/-- How a title is found at some place: the words before it, and the rest. -/
abbrev TitleFinder := List Char → Option (List Char × List Char)

def usageTitle (c : Config) : TitleFinder := fun cs =>
  (dropTitle? c.caseSensitiveSections c.usageTitle.toList cs).map ([], ·)

def optionsTitle (c : Config) : TitleFinder :=
  cutAtTitle? c.caseSensitiveSections c.optionsTitle.toList

def isSpace (c : Char) : Bool := c = ' ' || c = '\t'

/-- The title behind as many of the first `indent` characters as possible. -/
def heading? (find : TitleFinder) (cs : List Char) : Nat → Option (List Char × List Char)
  | 0 => find cs
  | indent + 1 =>
    match find (cs.drop (indent + 1)) with
    | some found => some found
    | none => heading? find cs indent

/-! ## Bodies -/

/-- A section ends where only blanks follow, or a blank line. -/
def endsHere (cs : List Char) : Bool :=
  let blanks := cs.takeWhile Text.isBlank
  blanks.length = cs.length || 2 ≤ blanks.count '\n'

/-- The text up to the end of the section, and the rest. -/
def cutAtEnd : List Char → List Char × List Char
  | [] => ([], [])
  | c :: cs =>
    if endsHere (c :: cs) then ([], c :: cs)
    else
      let (text, rest) := cutAtEnd cs
      (c :: text, rest)

/-- Spaces in place of the heading keep the columns of what follows on its line. -/
def bodyBehind (headingLength : Nat) (text : List Char) : List Char :=
  let lines := (Text.lines (List.replicate headingLength ' ' ++ text)).dropWhile Text.isAllBlank
  Text.trimEnd ((['\n'] : List Char).intercalate lines)

/-- The section that starts right here, and the text behind it. -/
def sectionAt? (find : TitleFinder) (cs : List Char) : Option (Section × List Char) := do
  let (before, rest) ← heading? find cs (cs.takeWhile isSpace).length
  let rest := rest.dropWhile isSpace
  let headingLength := cs.length - rest.length
  let (body, rest) := match rest with
    | '\n' :: below => cutAtEnd below
    | beside =>
      let (text, rest) := cutAtEnd beside
      (bodyBehind headingLength text, rest)
  some ({
    title := String.ofList (Text.trim before)
    raw := String.ofList (cs.take (cs.length - rest.length))
    body }, rest)

/-- The first section behind a newline. -/
def sectionBelow? (find : TitleFinder) : List Char → Option (Section × List Char)
  | [] => none
  | c :: cs =>
    if c = '\n' then (sectionAt? find cs).or (sectionBelow? find cs) else sectionBelow? find cs

/-! ## Documents -/

def usageSection? (c : Config) (doc : List Char) : Option Section :=
  ((sectionAt? (usageTitle c) doc).or (sectionBelow? (usageTitle c) doc)).map (·.1)

/-- The sections behind newlines, each below the one before. -/
def sectionsBelow (find : TitleFinder) : (limit : Nat) → List Char → List Section
  | 0, _ => []
  | limit + 1, cs =>
    match sectionBelow? find cs with
    | some (s, rest) => s :: sectionsBelow find limit rest
    | none => []

/-- All options sections. An empty one at the very start is the only one. -/
def optionsSections (c : Config) (doc : List Char) : List Section :=
  let find := optionsTitle c
  match sectionAt? find doc with
  | some (s, rest) =>
    s :: if rest.length = doc.length then [] else sectionsBelow find rest.length rest
  | none => sectionsBelow find doc.length doc

end Synopsis.Help
