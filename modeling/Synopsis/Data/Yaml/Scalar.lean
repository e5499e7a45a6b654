import Synopsis.Data.Datum
import Synopsis.Data.Numeral

/-! # Plain YAML scalars

What an unquoted scalar stands for by its spelling: nothing, a truth value, an
integer, a real number, or else its own text.
-/

namespace Synopsis.Yaml

open Numeral (natOfDigits isFinite)

def isNull (t : String) : Bool := t == "null" || t == "Null" || t == "NULL" || t == "~"

def bool? (t : String) : Option Bool :=
  if t == "true" || t == "True" || t == "TRUE" then some true
  else if t == "false" || t == "False" || t == "FALSE" then some false
  else none

/-! ## Integers -/

def digit? (base : Nat) (c : Char) : Option Nat :=
  let value :=
    if '0' ≤ c && c ≤ '9' then c.toNat - '0'.toNat
    else if 'a' ≤ c && c ≤ 'z' then c.toNat - 'a'.toNat + 10
    else if 'A' ≤ c && c ≤ 'Z' then c.toNat - 'A'.toNat + 10
    else base
  if value < base then some value else none

/-- The number that one digit or more stand for. -/
def natInBase? (base : Nat) : List Char → Option Nat
  | [] => none
  | cs => do
    let ds ← cs.mapM (digit? base)
    some (ds.foldl (fun n d => base * n + d) 0)

/-- The digits behind the sign, with the base that their first characters name. -/
def magnitude? : List Char → Option Nat
  | '0' :: 'x' :: cs => natInBase? 16 cs
  | '0' :: 'o' :: cs => natInBase? 8 cs
  | '0' :: 'b' :: cs => natInBase? 2 cs
  | cs => natInBase? 10 cs

def splitSign : List Char → Bool × List Char
  | '-' :: cs => (true, cs)
  | '+' :: cs => (false, cs)
  | cs => (false, cs)

/-- Digits that start with a zero are text, not a number. -/
def hasLeadingZero (cs : List Char) : Bool :=
  match (splitSign cs).2 with
  | '0' :: c :: rest => (c :: rest).all Char.isDigit
  | _ => false

/-- Integers of up to 128 bits. -/
def int? (cs : List Char) : Option Int := do
  if hasLeadingZero cs then none
  let (negative, digits) := splitSign cs
  let n ← magnitude? digits
  if negative then if n ≤ 1 <<< 127 then some (-n) else none
  else if n < 1 <<< 128 then some n else none

/-! ## Real numbers -/

/-- An exponent, or nothing at all. -/
def exponent? : List Char → Option Int
  | [] => some 0
  | 'e' :: rest | 'E' :: rest =>
    let (negative, digits) := splitSign rest
    if digits.isEmpty || !digits.all Char.isDigit then none
    else
      let n := Int.ofNat (natOfDigits digits)
      some (if negative then -n else n)
  | _ => none

/-- A decimal number without sign that rounds to a finite double. -/
def isDecimal (cs : List Char) : Bool :=
  let (whole, rest) := cs.span Char.isDigit
  let (fraction, rest) := match rest with
    | '.' :: rest => rest.span Char.isDigit
    | rest => ([], rest)
  let digits := whole ++ fraction
  match exponent? rest with
  | some e => !digits.isEmpty && isFinite (natOfDigits digits) (e - fraction.length)
  | none => false

def isReal (cs : List Char) : Bool :=
  let (_, digits) := splitSign cs
  !hasLeadingZero cs &&
    (isDecimal digits
      || [".inf", ".Inf", ".INF"].contains (String.ofList digits)
      || [".nan", ".NaN", ".NAN"].contains (String.ofList cs))

/-! ## Resolution -/

/-- What an unquoted scalar stands for when nothing is known about its type.
Integers that need more than 64 bits cannot be used. -/
def resolve (t : String) : Datum :=
  if t.isEmpty || isNull t then .null
  else match bool? t with
    | some b => .bool b
    | none =>
      match int? t.toList with
      | some n =>
        if Numeral.least ≤ n && n ≤ Numeral.greatestUnsigned then .int n else .unreadable
      | none => if isReal t.toList then .real else .str t

end Synopsis.Yaml
