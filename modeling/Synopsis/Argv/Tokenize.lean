import Synopsis.Argv.Basic
import Synopsis.Argv.OptionTable

/-! # Tokenizing

Turns arguments into tokens: long options get their full names, stacks of short
options are checked, the arguments that options need are reserved, and whatever
follows `--` is left alone.
-/

namespace Synopsis

namespace OptionTable

/-- The number of arguments to reserve behind a stack of short options, given
the number so far. -/
def stackReserve (t : OptionTable) (style : OptionStyle) (token : String) :
    Nat → List Char → Except MatchError Nat
  | wanted, [] => .ok wanted
  | wanted, c :: rest =>
    let name := String.ofList ['-', c]
    if !t.contains name then .error (.unknownOption name token)
    else match t.valueCount? name with
      | some count =>
        if rest.isEmpty then .ok count
        else if style.attached then .ok 0
        else if !style.combined then .ok count
        else stackReserve t style token count rest
      | none =>
        if rest.isEmpty || !style.combined then .ok wanted
        else stackReserve t style token wanted rest

/-- An option with its name in full, and the number of arguments it reserves. -/
def normalize (t : OptionTable) (style : OptionStyle) (arg : String) :
    Except MatchError (String × Nat) :=
  if style.readsWhole arg then
    match Text.cutString? "=" arg with
    | some (name, value) => do
      let known ← t.resolve name arg
      return (known ++ "=" ++ value, 0)
    | none => do
      let known ← t.resolve arg arg
      return (known, (t.valueCount? known).getD 0)
  else do
    let wanted ← t.stackReserve style arg 0 (arg.toList.drop 1)
    return (arg, wanted)

end OptionTable

/-- The tokens of some arguments, the first `pending` of which are reserved. -/
def tokensOf (t : OptionTable) (c : Config) (pending : Nat) :
    List String → Except MatchError (List Token)
  | [] => .ok []
  | arg :: rest =>
    let literals := (arg :: rest).map (Token.mk · .literal)
    if pending > 0 && arg != "--" then do
      return ⟨arg, .value⟩ :: (← tokensOf t c (pending - 1) rest)
    else if arg == "--" && c.honorsDoubleDash then
      .ok (⟨arg, .doubleDash⟩ :: literals.tail)
    else if looksLikeOption arg then do
      let (text, wanted) ← t.normalize c.style arg
      return ⟨text, .flag⟩ :: (← tokensOf t c wanted rest)
    else if c.optionsFirst then .ok (⟨"--", .doubleDash⟩ :: literals)
    else do
      return ⟨arg, .word⟩ :: (← tokensOf t c 0 rest)

def Argv.tokenize (raw : List String) (t : OptionTable) (c : Config) : Except MatchError Argv := do
  return { tokens := ← tokensOf t c 0 raw, style := c.style, autoDashes := c.honorsDoubleDash }

end Synopsis
