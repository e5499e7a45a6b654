import Synopsis.Data.Datum

/-! # Writing JSON

Two layouts: everything on one line without spaces, or one item a line, two
spaces deeper than what holds it. Only quotes, backslashes and control
characters are escaped.
-/

namespace Synopsis.Json

def hexDigit (n : Nat) : Char := (Nat.toDigits 16 n).headD '0'

def escapeChar : Char → String
  | '"' => "\\\""
  | '\\' => "\\\\"
  | '\x08' => "\\b"
  | '\x0c' => "\\f"
  | '\n' => "\\n"
  | '\r' => "\\r"
  | '\t' => "\\t"
  | c =>
    if c.toNat < 0x20 then
      String.ofList ['\\', 'u', '0', '0', hexDigit (c.toNat / 16), hexDigit (c.toNat % 16)]
    else c.toString

def quote (s : String) : String :=
  "\"" ++ s.foldl (fun out c => out ++ escapeChar c) "" ++ "\""

def scalar : Datum → String
  | .bool true => "true"
  | .bool false => "false"
  | .int n => toString n
  | .str s => quote s
  | .plain s => quote s
  | _ => "null"

/-! ## One line -/

mutual

def compact : Datum → String
  | .list items => "[" ++ ",".intercalate (compactItems items) ++ "]"
  | .map entries => "\x7b" ++ ",".intercalate (compactEntries entries) ++ "\x7d"
  | d => scalar d

def compactItems : List Datum → List String
  | [] => []
  | d :: ds => compact d :: compactItems ds

def compactEntries : List (Datum × Datum) → List String
  | [] => []
  | (k, v) :: es => (scalar k ++ ":" ++ compact v) :: compactEntries es

end

/-! ## One item a line -/

def newline (depth : Nat) : String := "\n" ++ String.ofList (List.replicate (2 * depth) ' ')

mutual

def pretty (depth : Nat) : Datum → String
  | .list [] => "[]"
  | .map [] => "\x7b\x7d"
  | .list items => "[" ++ ",".intercalate (prettyItems (depth + 1) items) ++ newline depth ++ "]"
  | .map entries =>
    "\x7b" ++ ",".intercalate (prettyEntries (depth + 1) entries) ++ newline depth ++ "\x7d"
  | d => scalar d

def prettyItems (depth : Nat) : List Datum → List String
  | [] => []
  | d :: ds => (newline depth ++ pretty depth d) :: prettyItems depth ds

def prettyEntries (depth : Nat) : List (Datum × Datum) → List String
  | [] => []
  | (k, v) :: es =>
    (newline depth ++ scalar k ++ ": " ++ pretty depth v) :: prettyEntries depth es

end

end Synopsis.Json
