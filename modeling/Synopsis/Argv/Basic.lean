import Synopsis.Argv.Token
import Synopsis.Pattern.Basic
import Synopsis.Text.Cut
import Synopsis.Text.Quoted

/-! # Streams of arguments

The tokens that a match has not used yet. Options are taken from anywhere before
the end of the options, everything else from the front.
-/

namespace Synopsis

structure Argv where
  tokens : List Token
  style : OptionStyle
  /-- `--` ends the options. -/
  autoDashes : Bool
  /-- The end of the options was met. -/
  dashes : Bool := false
  /-- Only options may be taken. -/
  optionOnly : Bool := false
  deriving DecidableEq, Repr

namespace Argv

def isEmpty (a : Argv) : Bool := a.tokens.isEmpty

def texts (a : Argv) : List String := a.tokens.map (·.text)

def render (a : Argv) : String := Text.quoteAll a.texts

/-- Each token counts its characters and one more. -/
def size (a : Argv) : Nat := a.tokens.foldr (fun t n => t.text.length + 1 + n) 0

/-- Nothing is left but a `--` that ends the options. -/
def isExhausted (a : Argv) : Bool :=
  match a.tokens with
  | [] => true
  | [t] => a.autoDashes && t.isDoubleDash
  | _ => false

/-- Tokens that are all taken as plain values. -/
def ofValues (values : List String) (style : OptionStyle) : Argv where
  tokens := values.map (⟨·, .value⟩)
  style := style
  autoDashes := true
  dashes := true

/-- Other tokens in the same style, among which `--` means nothing. -/
def valueStream (a : Argv) (tokens : List Token) : Argv where
  tokens := tokens
  style := a.style
  autoDashes := false

def remove (a : Argv) (i : Nat) : Argv := { a with tokens := a.tokens.eraseIdx i }

/-- Inserts a token, at the end if the place lies behind it. -/
def insert (a : Argv) (i : Nat) (t : Token) : Argv :=
  { a with tokens := a.tokens.take i ++ t :: a.tokens.drop i }

/-- Notes a `--` at the front. -/
def checkDash (a : Argv) : Argv :=
  if a.tokens.head?.any Token.isDoubleDash then { a with dashes := true } else a

/-- The place of the next positional token, behind a `--` that ends the options.
There is none at a `--` that does not. -/
def positional (a : Argv) : Argv × Option Nat :=
  match a.tokens.head? with
  | none => (a, none)
  | some t =>
    if t.isDoubleDash then
      let a := a.checkDash
      (a, if a.autoDashes && a.dashes then some 1 else none)
    else (a, some 0)

/-! ## Options -/

/-- An option in the stream: the name it is written with, the text attached to
it, and its place. -/
structure Found where
  name : String
  attached : Option String
  index : Nat
  deriving DecidableEq, Repr

/-- The name and attached text of a flag token, if the name is one of those given. -/
def spelledBy? (style : OptionStyle) (names : Names) (text : String) :
    Option (String × Option String) :=
  let (name, attached) :=
    if style.readsWhole text then
      match Text.cutString? "=" text with
      | some (name, value) => (name, some value)
      | none => (text, none)
    else
      let cs := text.toList
      (String.ofList (cs.take 2),
        if cs.length ≤ 2 then none else some (String.ofList (cs.drop 2)))
  if names.contains name then some (name, attached) else none

/-- The first token from a place on that spells one of the names. The search ends
at a `--` that ends the options. -/
def findOption? (a : Argv) (names : Names) : Nat → List Token → Option Found
  | _, [] => none
  | i, t :: ts =>
    if a.autoDashes && t.isDoubleDash then none
    else if t.kind = .flag then
      match spelledBy? a.style names t.text with
      | some (name, attached) => some ⟨name, attached, i⟩
      | none => findOption? a names (i + 1) ts
    else findOption? a names (i + 1) ts

/-- Takes the first token that spells one of the names out of the stream. -/
def takeOption? (a : Argv) (names : Names) : Option (Found × Argv) :=
  (a.findOption? names 0 a.tokens).map fun found => (found, a.remove found.index)

end Argv

end Synopsis
