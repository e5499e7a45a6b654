import Synopsis.Error
import Synopsis.Pattern.Arity

/-! # Known option names

The option names of a grammar in the order of their first mention, with the
number of values that each reserves.
-/

namespace Synopsis

structure OptionTable where
  /-- `none` for names of flags. -/
  entries : List (String × Option Nat) := []
  deriving DecidableEq, Repr

namespace OptionTable

def contains (t : OptionTable) (name : String) : Bool := t.entries.any (·.1 == name)

/-- How many values a known name reserves; `none` for flags and unknown names. -/
def valueCount? (t : OptionTable) (name : String) : Option Nat := (t.entries.lookup name).join

/-- A name that is there keeps the number it has, if it has one. -/
def insertName (wanted : Option Nat) (entries : List (String × Option Nat)) (name : String) :
    List (String × Option Nat) :=
  if entries.any (·.1 == name) then
    entries.map fun (known, n) => (known, if known == name then n.or wanted else n)
  else entries ++ [(name, wanted)]

/-- The least number of values, for an option that takes any. -/
def reserved (o : OptionAtom) : Option Nat :=
  o.value.map fun value =>
    match value.arity.least with
    | .exactly n => n
    | .unbounded => 0

/-- Adds every alias of an option. -/
def insert (t : OptionTable) (o : OptionAtom) : OptionTable :=
  ⟨o.names.toList.foldl (insertName (reserved o)) t.entries⟩

def ofList (options : List OptionAtom) : OptionTable := options.foldl insert {}

def names (t : OptionTable) : List String := t.entries.map (·.1)

/-- The known names that a name abbreviates. Short names have no abbreviations. -/
def extensions (t : OptionTable) (name : String) : List String :=
  t.names.filter fun known => known.utf8ByteSize > 2 && known.startsWith name

/-- The known name that is meant, which may be abbreviated if that is unambiguous. -/
def resolve (t : OptionTable) (name token : String) : Except MatchError String :=
  if t.contains name then .ok name
  else match t.extensions name with
    | [known] => .ok known
    | [] => .error (.unknownOption name token)
    | candidates => .error (.ambiguousPrefix name candidates)

end OptionTable

end Synopsis
