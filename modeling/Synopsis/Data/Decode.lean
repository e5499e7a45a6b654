import Synopsis.Data.Datum
import Synopsis.Data.Yaml.Scalar

/-! # Decoding

How plain values, lists and records with known fields are taken from data. A
plain YAML scalar stands for text, or for a truth value or nothing where one of
these is asked for; an empty one also stands for a list or record without
entries. Unknown fields of a record are passed over, a known field may occur
once.
-/

namespace Synopsis.Datum

def string? : Datum → Option String
  | .str s => some s
  | .plain t => some t
  | _ => none

def bool? : Datum → Option Bool
  | .bool b => some b
  | .plain t => Yaml.bool? t
  | _ => none

def list? : Datum → Option (List Datum)
  | .list items => some items
  | .plain "" => some []
  | _ => none

def strings? (d : Datum) : Option (List String) := do (← d.list?).mapM string?

/-- Text that may be missing; the outer result is `none` for anything else. -/
def optionalString? : Datum → Option (Option String)
  | .null => some none
  | .plain t => some (if t.isEmpty || Yaml.isNull t then none else some t)
  | .str s => some (some s)
  | _ => none

/-! ## Records -/

/-- The known fields among the entries of a map. -/
def knownFields? (names : List String) : List (Datum × Datum) → Option (List (String × Datum))
  | [] => some []
  | (k, v) :: es => do
    let name ← k.string?
    let fields ← knownFields? names es
    if names.contains name then
      if fields.any (·.1 == name) then none else some ((name, v) :: fields)
    else some fields

/-- The fields of a record, by name or, if `positional`, in their order. -/
def fields? (positional : Bool) (names : List String) : Datum → Option (List (String × Datum))
  | .map entries => knownFields? names entries
  | .plain "" => some []
  | .list items =>
    if positional && items.length ≤ names.length then some (names.zip items) else none
  | _ => none

/-- A field that has to be there. -/
def requiredField? {α : Type} (fields : List (String × Datum)) (name : String)
    (decode : Datum → Option α) : Option α :=
  (fields.lookup name).bind decode

/-- A field that has a value when it is missing. -/
def fieldOr? {α : Type} (fields : List (String × Datum)) (name : String) (missing : α)
    (decode : Datum → Option α) : Option α :=
  ((fields.lookup name).map decode).getD (some missing)

/-! ## Data without context

Gives every plain scalar the meaning that its spelling has by itself.
-/

mutual

def resolve : Datum → Datum
  | .plain t => Yaml.resolve t
  | .list items => .list (resolveAll items)
  | .map entries => .map (resolveEntries entries)
  | d => d

def resolveAll : List Datum → List Datum
  | [] => []
  | d :: ds => resolve d :: resolveAll ds

def resolveEntries : List (Datum × Datum) → List (Datum × Datum)
  | [] => []
  | (k, v) :: es => (resolve k, resolve v) :: resolveEntries es

end

end Synopsis.Datum
