/-! # Paths

The parts of a path, its parent and the ending of its file name.
-/

namespace Synopsis

/-- A path as written. -/
structure Path where
  text : String
  deriving DecidableEq, Repr

namespace Path

def isAbsolute (p : Path) : Bool := p.text.startsWith "/"

/-- The names in a path. Repeated slashes count once. -/
def names (p : Path) : List String := (p.text.splitOn "/").filter (· ≠ "")

/-- A slash at the end asks for a directory. -/
def asksForDirectory (p : Path) : Bool := p.text.endsWith "/" && !p.names.isEmpty

/-- The names that count: a dot only does at the front. -/
def parts (p : Path) : List String :=
  match p.names with
  | [] => []
  | first :: rest =>
    let rest := rest.filter (· ≠ ".")
    if first = "." && p.isAbsolute then rest else first :: rest

/-- The path without its last part. It may be empty. -/
def parent? (p : Path) : Option Path :=
  if p.parts.isEmpty then none
  else
    let root := if p.isAbsolute then "/" else ""
    some ⟨root ++ "/".intercalate p.parts.dropLast⟩

/-- The text behind the last dot of the file name, if the name has more than that. -/
def extension? (p : Path) : Option String := do
  let name ← p.parts.getLast?
  if name = "." ∨ name = ".." then none
  else
    let cs := name.toList.reverse
    let ending := cs.takeWhile (· ≠ '.')
    match cs.drop ending.length with
    | '.' :: _ :: _ => some (String.ofList ending.reverse)
    | _ => none

def isYaml (p : Path) : Bool :=
  p.extension?.any fun e => e.toLower = "yaml" || e.toLower = "yml"

end Path

end Synopsis
