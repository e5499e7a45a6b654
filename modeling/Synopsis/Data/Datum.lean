/-! # Data

What a JSON or YAML document holds. A plain YAML scalar keeps its text, since
what it stands for depends on what is asked of it. Values that a reader may pass
over but not use, such as numbers out of range, are unreadable.
-/

namespace Synopsis

inductive Datum where
  | null
  | bool (b : Bool)
  | int (n : Int)
  /-- A number that is not an integer of 64 bits. -/
  | real
  | str (s : String)
  /-- An unquoted YAML scalar. -/
  | plain (text : String)
  | list (items : List Datum)
  | map (entries : List (Datum × Datum))
  | unreadable
  deriving Inhabited

namespace Datum

/-- A map whose keys are names. -/
def record (fields : List (String × Datum)) : Datum :=
  .map (fields.map fun (name, d) => (.str name, d))

def strings (items : List String) : Datum := .list (items.map .str)

mutual

/-- Nothing unreadable occurs. -/
def isReadable : Datum → Bool
  | .unreadable => false
  | .list items => areReadable items
  | .map entries => areReadableEntries entries
  | _ => true

def areReadable : List Datum → Bool
  | [] => true
  | d :: ds => isReadable d && areReadable ds

def areReadableEntries : List (Datum × Datum) → Bool
  | [] => true
  | (k, v) :: es => isReadable k && isReadable v && areReadableEntries es

end

end Datum

end Synopsis
