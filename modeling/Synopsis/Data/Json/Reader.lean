import Synopsis.Data.Datum
import Synopsis.Data.Numeral

/-! # Reading JSON

A value, with nothing but blanks around it. Integers are those that 64 bits can
hold, signed or not; `-0` is not one of them. Numbers too large for a double,
text with half a surrogate pair and values nested deeper than a limit, if there
is one, are unreadable.
-/

namespace Synopsis.Json

open Numeral (natOfDigits)

def isBlank (c : Char) : Bool := c = ' ' || c = '\n' || c = '\t' || c = '\r'

def skipBlanks (cs : List Char) : List Char := cs.dropWhile isBlank

@[simp] theorem skipBlanks_cons (c : Char) (cs : List Char) :
    skipBlanks (c :: cs) = if isBlank c then skipBlanks cs else c :: cs := by
  simp [skipBlanks, List.dropWhile_cons]

theorem skipBlanks_append {blanks : List Char} (h : ∀ c ∈ blanks, isBlank c) (cs : List Char) :
    skipBlanks (blanks ++ cs) = skipBlanks cs := by
  rw [skipBlanks, skipBlanks, List.dropWhile_append_of_pos h]

/-! ## Numbers -/

/-- A number as it is written: sign, digits before and after the point, exponent. -/
structure Literal where
  negative : Bool
  whole : List Char
  fraction : Option (List Char)
  exponent : Option Int

/-- The digits at the front, if there is one. -/
def digits? (cs : List Char) : Option (List Char × List Char) :=
  match cs.span Char.isDigit with
  | ([], _) => none
  | spanned => some spanned

def exponent? : List Char → Option (Option Int × List Char)
  | 'e' :: cs | 'E' :: cs => do
    let (negative, cs) := match cs with
      | '-' :: cs => (true, cs)
      | '+' :: cs => (false, cs)
      | cs => (false, cs)
    let (ds, cs) ← digits? cs
    let n := Int.ofNat (natOfDigits ds)
    some (some (if negative then -n else n), cs)
  | cs => some (none, cs)

def literal? (cs : List Char) : Option (Literal × List Char) := do
  let (negative, cs) := match cs with
    | '-' :: cs => (true, cs)
    | cs => (false, cs)
  let (whole, cs) ← digits? cs
  if whole.head? = some '0' && whole.length > 1 then none
  let (fraction, cs) ← match cs with
    | '.' :: cs => (digits? cs).map fun (ds, cs) => (some ds, cs)
    | cs => some (none, cs)
  let (exponent, cs) ← exponent? cs
  some ({ negative, whole, fraction, exponent }, cs)

def Literal.isFinite (n : Literal) : Bool :=
  let fraction := n.fraction.getD []
  Synopsis.Numeral.isFinite (natOfDigits (n.whole ++ fraction))
    (n.exponent.getD 0 - fraction.length)

def Literal.datum (n : Literal) : Datum :=
  match n.fraction, n.exponent with
  | none, none =>
    let m : Int := natOfDigits n.whole
    if !n.negative && m ≤ Numeral.greatestUnsigned then .int m
    else if n.negative && 0 < m && Numeral.least ≤ -m then .int (-m)
    else if n.isFinite then .real else .unreadable
  | _, _ => if n.isFinite then .real else .unreadable

/-! ## Text -/

def hexDigit? (c : Char) : Option Nat :=
  if '0' ≤ c && c ≤ '9' then some (c.toNat - '0'.toNat)
  else if 'a' ≤ c && c ≤ 'f' then some (c.toNat - 'a'.toNat + 10)
  else if 'A' ≤ c && c ≤ 'F' then some (c.toNat - 'A'.toNat + 10)
  else none

def hex4? : List Char → Option (Nat × List Char)
  | a :: b :: c :: d :: cs => do
    let a ← hexDigit? a
    let b ← hexDigit? b
    let c ← hexDigit? c
    let d ← hexDigit? d
    some (((a * 16 + b) * 16 + c) * 16 + d, cs)
  | _ => none

def simpleEscape? : Char → Option Char
  | '"' => some '"'
  | '\\' => some '\\'
  | '/' => some '/'
  | 'b' => some '\x08'
  | 'f' => some '\x0c'
  | 'n' => some '\n'
  | 'r' => some '\r'
  | 't' => some '\t'
  | _ => none

/-- A piece of quoted text: a character, a code unit written as `\u`, or the end. -/
inductive Piece where
  | char (c : Char)
  | unit (n : Nat)
  | close

def piece? : List Char → Option (Piece × List Char)
  | '"' :: cs => some (.close, cs)
  | '\\' :: 'u' :: cs => (hex4? cs).map fun (n, cs) => (.unit n, cs)
  | '\\' :: c :: cs => (simpleEscape? c).map fun c => (.char c, cs)
  | c :: cs => if c.toNat < 0x20 then none else some (.char c, cs)
  | [] => none

/-- The pieces up to the closing quote. -/
def pieces? : (fuel : Nat) → List Char → Option (List Piece × List Char)
  | 0, _ => none
  | fuel + 1, cs => do
    match ← piece? cs with
    | (.close, cs) => some ([], cs)
    | (p, cs) =>
      let (ps, cs) ← pieces? fuel cs
      some (p :: ps, cs)

/-- Joins surrogate pairs; `none` if half a pair stands alone. -/
def charsOfPieces? : List Piece → Option (List Char)
  | [] => some []
  | .char c :: ps => (charsOfPieces? ps).map (c :: ·)
  | .close :: ps => charsOfPieces? ps
  | .unit n :: ps =>
    if 0xD800 ≤ n && n < 0xDC00 then
      match ps with
      | .unit m :: ps =>
        if 0xDC00 ≤ m && m < 0xE000 then
          (charsOfPieces? ps).map
            (Char.ofNat (0x10000 + (n - 0xD800) * 0x400 + (m - 0xDC00)) :: ·)
        else none
      | _ => none
    else if 0xDC00 ≤ n && n < 0xE000 then none
    else (charsOfPieces? ps).map (Char.ofNat n :: ·)

/-- The text behind an opening quote. -/
def text? (fuel : Nat) (cs : List Char) : Option (Datum × List Char) := do
  let (ps, cs) ← pieces? fuel cs
  some (((charsOfPieces? ps).map (.str <| String.ofList ·)).getD .unreadable, cs)

/-! ## Values -/

/-- The usual limit: the deepest container that can be read stands in 126 others. -/
def maxDepth : Nat := 127

def atDepth (limit : Option Nat) (depth : Nat) (d : Datum) : Datum :=
  if limit.all (depth < ·) then d else .unreadable

mutual

def value? (limit : Option Nat) :
    (fuel depth : Nat) → List Char → Option (Datum × List Char)
  | 0, _, _ => none
  | fuel + 1, depth, cs =>
    match skipBlanks cs with
    | 'n' :: 'u' :: 'l' :: 'l' :: cs => some (.null, cs)
    | 't' :: 'r' :: 'u' :: 'e' :: cs => some (.bool true, cs)
    | 'f' :: 'a' :: 'l' :: 's' :: 'e' :: cs => some (.bool false, cs)
    | '"' :: cs => text? fuel cs
    | '[' :: cs =>
      match skipBlanks cs with
      | ']' :: cs => some (atDepth limit depth (.list []), cs)
      | cs =>
        (items? limit fuel (depth + 1) cs).map fun (ds, cs) =>
          (atDepth limit depth (.list ds), cs)
    | '{' :: cs =>
      match skipBlanks cs with
      | '}' :: cs => some (atDepth limit depth (.map []), cs)
      | cs =>
        (members? limit fuel (depth + 1) cs).map fun (es, cs) =>
          (atDepth limit depth (.map es), cs)
    | cs => (literal? cs).map fun (n, cs) => (n.datum, cs)

/-- One item or more, up to the closing bracket. -/
def items? (limit : Option Nat) :
    (fuel depth : Nat) → List Char → Option (List Datum × List Char)
  | 0, _, _ => none
  | fuel + 1, depth, cs => do
    let (d, cs) ← value? limit fuel depth cs
    match skipBlanks cs with
    | ',' :: cs =>
      let (ds, cs) ← items? limit fuel depth cs
      some (d :: ds, cs)
    | ']' :: cs => some ([d], cs)
    | _ => none

/-- One member or more, up to the closing brace. -/
def members? (limit : Option Nat) :
    (fuel depth : Nat) → List Char → Option (List (Datum × Datum) × List Char)
  | 0, _, _ => none
  | fuel + 1, depth, cs => do
    let '"' :: cs := skipBlanks cs | none
    let (k, cs) ← text? fuel cs
    let ':' :: cs := skipBlanks cs | none
    let (v, cs) ← value? limit fuel depth cs
    match skipBlanks cs with
    | ',' :: cs =>
      let (es, cs) ← members? limit fuel depth cs
      some ((k, v) :: es, cs)
    | '}' :: cs => some ([(k, v)], cs)
    | _ => none

end

section

variable {limit : Option Nat}

theorem value?_blanks {blanks : List Char} (h : ∀ c ∈ blanks, isBlank c) (fuel depth : Nat)
    (cs : List Char) : value? limit fuel depth (blanks ++ cs) = value? limit fuel depth cs := by
  cases fuel with
  | zero => rfl
  | succ fuel => rw [value?, value?, skipBlanks_append h]

theorem items?_close (fuel depth : Nat) (cs : List Char) :
    items? limit fuel depth (']' :: cs) = none := by
  cases fuel with
  | zero => rfl
  | succ fuel =>
    cases fuel with
    | zero => rfl
    | succ fuel =>
      have hliteral : literal? (']' :: cs) = none := rfl
      rw [items?, value?]
      simp [isBlank, hliteral]

theorem members?_close (fuel depth : Nat) (cs : List Char) :
    members? limit fuel depth ('}' :: cs) = none := by
  cases fuel with
  | zero => rfl
  | succ fuel =>
    rw [members?]
    simp [isBlank]

end

/-- Every call takes a character or is the only one at its place, so twice the
length is more than enough fuel. -/
def parseWithin? (limit : Option Nat) (text : String) : Option Datum := do
  let cs := text.toList
  let (d, cs) ← value? limit (2 * cs.length + 2) 0 cs
  if (skipBlanks cs).isEmpty then some d else none

def parse? (text : String) : Option Datum := parseWithin? (some maxDepth) text

end Synopsis.Json
