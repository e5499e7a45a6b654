import Synopsis.Data.Datum
import Synopsis.Data.Numeral
import Synopsis.Text.Quoted

/-! # Values

What a match reports under one key, and how two reports under one key are
merged.
-/

namespace Synopsis

inductive Value where
  | bool (b : Bool)
  | int (n : Int)
  | str (s : String)
  | list (items : List String)
  | null
  deriving DecidableEq, Repr, Inhabited

namespace Value

/-- False, zero, empty and null values are not. -/
def isTruthy : Value → Bool
  | .bool b => b
  | .int n => n != 0
  | .str s => !s.isEmpty
  | .list items => !items.isEmpty
  | .null => false

/-- Truth values and integers as numbers. -/
def count? : Value → Option Int
  | .bool b => some b.toInt
  | .int n => some n
  | _ => none

def isNull : Value → Bool
  | .null => true
  | _ => false

def texts : Value → List String
  | .str s => [s]
  | .list items => items
  | _ => []

def concat (a b : Value) : Value := .list (a.texts ++ b.texts)

def render : Value → String
  | .bool b => toString b
  | .int n => toString n
  | .str s => Text.quote s
  | .list items => Text.quoteAll items
  | .null => "null"

def toDatum : Value → Datum
  | .bool b => .bool b
  | .int n => .int n
  | .str s => .str s
  | .list items => .strings items
  | .null => .null

def ofDatum? : Datum → Option Value
  | .bool b => some (.bool b)
  | .int n => if n ≤ Numeral.greatest then some (.int n) else none
  | .str s => some (.str s)
  | .null => some .null
  | .list items =>
    (items.mapM fun | Datum.str s => some s | _ => none).map .list
  | _ => none

/-- Numbers add up, everything else is concatenated. -/
def addOrConcat (a b : Value) : Value :=
  match a.count?, b.count? with
  | some m, some n => .int (m + n)
  | _, _ => concat a b

def isCountLike : Value → Bool
  | .bool _ | .int _ | .null => true
  | _ => false

/-- Merges two values of one key. Values that are not truthy count as zero under
the name of an option, unless both are null. -/
def merge (key : String) (old new : Value) : Value :=
  if key.startsWith "-" && (old.isCountLike || new.isCountLike) then
    if old.isNull && new.isNull then .list []
    else addOrConcat (if old.isTruthy then old else .int 0) (if new.isTruthy then new else .int 0)
  else addOrConcat old new

end Value

/-- A value, or `none` for an option that did not appear and is not reported. -/
abbrev Reported := Option Value

/-- An unreported value leaves the other one as it is. -/
def Reported.merge (key : String) : Reported → Reported → Reported
  | none, r => r
  | r, none => r
  | some old, some new => some (old.merge key new)

end Synopsis
