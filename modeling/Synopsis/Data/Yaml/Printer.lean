import Synopsis.Data.Yaml.Style

/-! # Writing YAML

Block style: an entry of a mapping or an item of a sequence a line, sequences not
indented under their key. Empty ones are written in brackets.
-/

namespace Synopsis.Yaml

def spaces (n : Nat) : List Char := List.replicate n ' '

/-- Ends the line, unless a block has ended it. -/
def closeLine (cs : List Char) : List Char :=
  if cs.getLast?.any isBreak then cs else cs ++ ['\n']

/-! ## Scalars -/

/-- A number in a given number of hexadecimal digits. -/
def hexDigits : (count n : Nat) → List Char
  | 0, _ => []
  | count + 1, n => hexDigits count (n / 16) ++ [(Nat.digitChar (n % 16)).toUpper]

def escapeName? : Char → Option Char
  | '\x00' => some '0'
  | '\x07' => some 'a'
  | '\x08' => some 'b'
  | '\t' => some 't'
  | '\n' => some 'n'
  | '\x0b' => some 'v'
  | '\x0c' => some 'f'
  | '\r' => some 'r'
  | '\x1b' => some 'e'
  | '"' => some '"'
  | '\\' => some '\\'
  | '\x85' => some 'N'
  | '\u2028' => some 'L'
  | '\u2029' => some 'P'
  | _ => none

def escaped (c : Char) : List Char :=
  if isPrintable c && !isBreak c && c ≠ '"' && c ≠ '\\' then [c]
  else match escapeName? c with
    | some name => ['\\', name]
    | none =>
      if c.toNat ≤ 0xFF then '\\' :: 'x' :: hexDigits 2 c.toNat
      else if c.toNat ≤ 0xFFFF then '\\' :: 'u' :: hexDigits 4 c.toNat
      else '\\' :: 'U' :: hexDigits 8 c.toNat

def doubleQuoted (cs : List Char) : List Char := '"' :: cs.flatMap escaped ++ ['"']

/-- What follows a line break is indented. -/
def indented (indent : Nat) : (broken : Bool) → List Char → List Char
  | _, [] => []
  | broken, c :: cs =>
    if isBreak c then c :: indented indent true cs
    else (if broken then spaces indent else []) ++ c :: indented indent false cs

/-- Quotes are doubled. A break that is not a newline stands for itself. -/
def singleQuoted (indent : Nat) (cs : List Char) : List Char :=
  let body := cs.flatMap fun c => if c = '\'' then ['\'', '\''] else [c]
  '\'' :: indented indent false (body ++ ['\''])

/-- Whether the final line breaks are kept: none, one, or all. -/
def chomping (cs : List Char) : List Char :=
  match cs.reverse with
  | [] => ['-']
  | last :: before =>
    if !isBreak last then ['-']
    else if before.head?.all isBreak then ['+']
    else []

/-- The lines below a bar. A first line that is indented needs a hint. -/
def literal (indent : Nat) (cs : List Char) : List Char :=
  let hint := if cs.head?.any fun c => isSpace c || isBreak c then ['2'] else []
  '|' :: hint ++ chomping cs ++ '\n' :: indented indent true cs

def text (isKey : Bool) (indent : Nat) (s : String) : List Char :=
  let cs := s.toList
  match styleOf isKey s with
  | .plain => cs
  | .singleQuoted => singleQuoted indent cs
  | .doubleQuoted => doubleQuoted cs
  | .literal => literal indent cs

/-- Anything but a sequence or mapping that is not empty. -/
def scalar (isKey : Bool) (indent : Nat) : Datum → List Char
  | .bool b => (toString b).toList
  | .int n => (toString n).toList
  | .str s | .plain s => text isKey indent s
  | .list _ => ['[', ']']
  | .map _ => ['\x7b', '\x7d']
  | _ => "null".toList

/-! ## Blocks -/

def maxKeySize : Nat := 128

/-- A key on the line of its value is short and has no line break. -/
def isSimpleKey : Datum → Bool
  | .str s | .plain s => s.utf8ByteSize ≤ maxKeySize && !s.toList.any isBreak
  | _ => true

/-- Puts the parts of a block below each other. -/
def stack (indent : Nat) : List (List Char) → List Char
  | [] => []
  | [part] => part
  | part :: parts => closeLine part ++ spaces indent ++ stack indent parts

mutual

/-- A datum that begins right here, what is below it being indented. -/
def block (indent : Nat) : Datum → List Char
  | .list (d :: ds) => stack indent (items indent (d :: ds))
  | .map (e :: es) => stack indent (entries indent (e :: es))
  | d => scalar false indent d

/-- What follows a key and its colon, in a mapping with this indentation. -/
def valuePart (indent : Nat) : Datum → List Char
  | .list (d :: ds) => '\n' :: spaces indent ++ stack indent (items indent (d :: ds))
  | .map (e :: es) => '\n' :: spaces (indent + 2) ++ stack (indent + 2) (entries (indent + 2) (e :: es))
  | d => ' ' :: scalar false (indent + 2) d

def items (indent : Nat) : List Datum → List (List Char)
  | [] => []
  | d :: ds => ('-' :: ' ' :: block (indent + 2) d) :: items indent ds

def entries (indent : Nat) : List (Datum × Datum) → List (List Char)
  | [] => []
  | (k, v) :: es =>
    if isSimpleKey k then
      (scalar true (indent + 2) k ++ ':' :: valuePart indent v) :: entries indent es
    else
      ('?' :: ' ' :: scalar false (indent + 2) k) :: (':' :: ' ' :: block (indent + 2) v)
        :: entries indent es

end

def render (d : Datum) : String := String.ofList (closeLine (block 0 d))

end Synopsis.Yaml
