import Synopsis.Config

/-! # Tokens

Arguments, marked with what they may stand for.
-/

namespace Synopsis

inductive TokenKind where
  /-- Known options, possibly stacked or with an attached value. -/
  | flag
  /-- Reserved as a value of the option before it. -/
  | value
  /-- Plain positional. -/
  | word
  /-- The end of the options. -/
  | doubleDash
  /-- Anything behind the end of the options. -/
  | literal
  deriving DecidableEq, Repr

structure Token where
  text : String
  kind : TokenKind
  deriving DecidableEq, Repr

def Token.isDoubleDash (t : Token) : Bool := t.kind = .doubleDash

/-- How options may be written. -/
structure OptionStyle where
  standard : Bool
  combined : Bool
  attached : Bool
  deriving DecidableEq, Repr

def Config.style (c : Config) : OptionStyle :=
  ⟨c.standardLongOptions, c.combinedShortFlags, c.attachedShortValues⟩

/-- `-x`, `--long` and stacks, but neither `-` nor `--`. -/
def looksLikeOption (text : String) : Bool :=
  text.startsWith "-" && text != "-" && text != "--"

/-- Long under the standard style, and any option under the other one. -/
def OptionStyle.readsWhole (s : OptionStyle) (text : String) : Bool :=
  text.startsWith "--" || !s.standard

end Synopsis
