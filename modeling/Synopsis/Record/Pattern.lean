import Synopsis.Pattern.Basic
import Synopsis.Data.Decode

/-! # Patterns as data

A pattern is written as a record that names its kind and holds the fields of
that kind. Slots are not written. When read, a pattern may also be the list of
its kind and its fields, and fields may be numbered instead of named.
-/

namespace Synopsis

def GroupKind.name : GroupKind → String
  | .required => "required"
  | .optional => "optional"

namespace Pattern

/-! ## Encoding -/

/-- An option without a value or a default lacks the field. -/
def optionDatum (names : Names) (value : Option Datum) (fallback : Option String) : Datum :=
  .record <| [("kind", .str "option"), ("names", .strings names.toList)]
    ++ (value.map ("ref", ·)).toList ++ (fallback.map fun t => ("default", .str t)).toList

mutual

def toDatum : Pattern → Datum
  | .option ⟨names, none, fallback, _⟩ => optionDatum names none fallback
  | .option ⟨names, some value, fallback, _⟩ => optionDatum names (some (toDatum value)) fallback
  | .command leaf =>
    .record [("kind", .str "command"), ("names", .strings leaf.names.toList)]
  | .argument leaf =>
    .record [("kind", .str "argument"), ("names", .strings leaf.names.toList)]
  | .group kind children repeats =>
    .record [("kind", .str kind.name), ("children", .list (toDatumAll children)),
      ("repeat", .bool repeats)]
  | .either branches => .record [("kind", .str "either"), ("branches", .list (toDatumAll branches))]
  | .shortcut s =>
    .record [("kind", .str "shortcut"), ("title", .str s.title),
      ("hidden", .strings s.hidden.toList)]

def toDatumAll : List Pattern → List Datum
  | [] => []
  | p :: ps => toDatum p :: toDatumAll ps

end

/-! ## Decoding -/

/-- A field's value, with the ways to read it as one pattern or several. -/
structure Part where
  raw : Datum
  pattern? : Unit → Option Pattern
  patterns? : Unit → Option (List Pattern)

def fieldNames : String → List String
  | "option" => ["names", "ref", "default"]
  | "command" | "argument" => ["names"]
  | "required" | "optional" => ["children", "repeat"]
  | "either" => ["branches"]
  | "shortcut" => ["title", "hidden"]
  | _ => []

/-- The name of a field that is given by its name or number. -/
def fieldName? (names : List String) : Datum → Option String
  | .str s => some s
  | .int n => if n < 0 then none else some (names.getD n.toNat "")
  | _ => none

def partFields? (names : List String) : List (Datum × Part) → Option (List (String × Part))
  | [] => some []
  | (k, v) :: es => do
    let name ← fieldName? names k
    let fields ← partFields? names es
    if names.contains name then
      if fields.any (·.1 == name) then none else some ((name, v) :: fields)
    else some fields

def names? (d : Datum) : Option Names := d.strings?.map .ofList

/-- The pattern of a kind with the given fields. -/
def ofFields? (kind : String) (fields : List (String × Part)) : Option Pattern :=
  let named? : Option Names := do names? (← fields.lookup "names").raw
  let group? (kind : GroupKind) : Option Pattern := do
    let children ← (← fields.lookup "children").patterns? ()
    let repeats ← ((fields.lookup "repeat").map (·.raw.bool?)).getD (some false)
    some (.group kind children repeats)
  match kind with
  | "option" => do
    let names ← named?
    let value ← match fields.lookup "ref" with
      | none | some ⟨.null, _, _⟩ => some none
      | some part => (part.pattern? ()).map some
    let fallback ← ((fields.lookup "default").map (·.raw.optionalString?)).getD (some none)
    some (.option { names, value, default := fallback })
  | "command" => do some (.command { names := ← named? })
  | "argument" => do some (.argument { names := ← named? })
  | "required" => group? .required
  | "optional" => group? .optional
  | "either" => do some (.either (← (← fields.lookup "branches").patterns? ()))
  | "shortcut" => do
    let title ← ((fields.lookup "title").map (·.raw.string?)).getD (some "")
    let hidden ← ((fields.lookup "hidden").map (names? ·.raw)).getD (some {})
    some (.shortcut { title, hidden })
  | _ => none

def isKindKey : Datum → Bool
  | .str s => s == "kind"
  | _ => false

def kindNames : List String :=
  ["option", "command", "argument", "required", "optional", "either", "shortcut"]

/-- A kind. Inside another pattern it may be given by its number. -/
def kindName? (inner : Bool) : Datum → Option String
  | .str s => some s
  | .int n => if inner && 0 ≤ n then kindNames[n.toNat]? else none
  | _ => none

/-- The kind, which has to be given exactly once. -/
def kind? (inner : Bool) (entries : List (Datum × Datum)) : Option String :=
  match entries.filter (isKindKey ·.1) with
  | [(_, kind)] => kindName? inner kind
  | _ => none

mutual

def ofDatum? (inner : Bool) : Datum → Option Pattern
  | .map entries => do
    let kind ← kind? inner entries
    let rest := (parts entries).filter fun (k, _) => !isKindKey k
    ofFields? kind (← partFields? (fieldNames kind) rest)
  | .list (kind :: items) => do
    let kind ← kindName? inner kind
    let names := fieldNames kind
    let ps := itemParts items
    if ps.length ≤ names.length then ofFields? kind (names.zip ps) else none
  | _ => none

def ofData? : Datum → Option (List Pattern)
  | .list items => ofItems? items
  | _ => none

def ofItems? : List Datum → Option (List Pattern)
  | [] => some []
  | d :: ds => do
    let p ← ofDatum? true d
    let ps ← ofItems? ds
    some (p :: ps)

def parts : List (Datum × Datum) → List (Datum × Part)
  | [] => []
  | (k, v) :: es => (k, ⟨v, fun _ => ofDatum? true v, fun _ => ofData? v⟩) :: parts es

def itemParts : List Datum → List Part
  | [] => []
  | d :: ds => ⟨d, fun _ => ofDatum? true d, fun _ => ofData? d⟩ :: itemParts ds

end

/-- The pattern that a datum describes, if it is readable and describes one. -/
def decode? (d : Datum) : Option Pattern :=
  let d := d.resolve
  if d.isReadable then ofDatum? false d else none

end Pattern

end Synopsis
