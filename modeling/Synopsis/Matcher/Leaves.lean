import Synopsis.Argv.OptionTable
import Synopsis.Matcher.Attempt
import Synopsis.Matcher.Lending

/-! # Matching leaves

A command takes the next positional token if it is one of its names, an
argument takes any, an option is taken from wherever it stands. A leaf that is
filled already matches again without taking anything, unless hits are counted.
-/

namespace Synopsis

namespace Positional

/-- Whether the leaf can take a token. Right at the front, an argument does not
take what looks like an option, unless the token is known to be a value. -/
def accepts (place : Nat) (t : Token) : Positional → Bool
  | .command leaf => leaf.names.contains t.text && !looksLikeOption t.text
  | .argument _ =>
    if place ≠ 0 ∨ t.kind = .value ∨ t.kind = .literal then true
    else !looksLikeOption t.text

def record (counting : Bool) (text : String) : Positional → Slot → Slot
  | .command _ => Slot.hit counting
  | .argument _ => Slot.pushText text counting

/-- Takes the next positional token, if there is one that the leaf accepts. -/
def take (p : Positional) (counting : Bool) : MatchM Bool := do
  let (argv, place) := (← MatchM.argv).positional
  MatchM.setArgv argv
  let some place := place | return false
  let some token := argv.tokens[place]? | return false
  if !p.accepts place token then return false
  MatchM.modifySlot p.slot (p.record counting token.text)
  MatchM.setArgv (argv.remove place)
  return true

def run (p : Positional) (counting : Bool) : MatchM Bool := do
  if !counting && p.isFilled (← MatchM.slots) then return true
  if (← MatchM.argv).optionOnly then return false
  p.take counting

end Positional

namespace Lending

/-- Makes the loan of a line, if there is one and all borrowers match. -/
def lend (line : List Pattern) : MatchM Bool := do
  let slots ← MatchM.slots
  let some loan := loan? slots line | return false
  let some (texts, left) := loan.texts? slots | return false
  MatchM.setSlots left
  let stream := Argv.ofValues texts (← MatchM.argv).style
  let (matched, _) ← MatchM.onStream stream do
    loan.borrowers.allM (·.run false)
  if !matched then MatchM.setSlots slots
  return matched

end Lending

/-! ## Options -/

namespace OptionOf

/-- The rest of a stack goes back into the stream as a stack of its own. -/
def restOfStack (rest : String) : Token := ⟨"-" ++ rest, .flag⟩

/-- Matches the text that is attached to an option. All of it has to be used. -/
def takeAttached (o : OptionAtom) (value : MatchM Bool) (text : String) : MatchM Bool := do
  let stream := (← MatchM.argv).valueStream [⟨text, .value⟩]
  let (matched, left) ← MatchM.onStream stream value
  if !matched || !left.isEmpty then
    MatchM.fail (.missingValue o.names.toList left.texts.head?)
  return true

/-- Matches the tokens from a place on. What is not used goes back. -/
def takeSeparate (o : OptionAtom) (arity : Arity) (value : MatchM Bool) (place : Nat) :
    MatchM Bool := do
  let argv ← MatchM.argv
  let atDashes := argv.autoDashes && argv.tokens[place]?.any Token.isDoubleDash
  if atDashes && arity.least != .exactly 0 then
    MatchM.fail (.missingValueAtDashes o.names.toList)
  let (kept, given) :=
    if atDashes then (argv.tokens, []) else (argv.tokens.take place, argv.tokens.drop place)
  let (matched, left) ← MatchM.onStream (argv.valueStream given) value
  if !matched then
    MatchM.fail (.missingValue o.names.toList left.texts.head?)
  MatchM.setArgv { argv with tokens := kept ++ left.tokens }
  return true

/-- Handles what is attached to an option that was taken out of the stream. -/
def takeFound (o : OptionAtom) (value : Pattern → MatchM Bool) (found : Argv.Found) :
    MatchM Bool := do
  let argv ← MatchM.argv
  let short := argv.style.standard && !found.name.startsWith "--"
  match o.value, found.attached with
  | none, none => return true
  | none, some rest =>
    if short && argv.style.combined then
      MatchM.setArgv (argv.insert found.index (restOfStack rest))
      return true
    else MatchM.fail (.unexpectedValue o.names.toList rest)
  | some p, none => o.takeSeparate p.arity (value p) found.index
  | some p, some rest =>
    if short && !argv.style.attached then
      if !argv.style.combined then
        MatchM.fail (.missingValue o.names.toList (some rest))
      MatchM.setArgv (argv.insert found.index (restOfStack rest))
      o.takeSeparate p.arity (value p) (found.index + 1)
    else o.takeAttached (value p) rest

/-- Matches an option, given how to match its value pattern. -/
def run (o : OptionAtom) (value : Pattern → MatchM Bool) (counting : Bool) : MatchM Bool := do
  if !counting && ((← MatchM.slots).get o.slot).isTruthy then return true
  let some (found, argv) := (← MatchM.argv).takeOption? o.names | return false
  MatchM.setArgv argv
  MatchM.modifySlot o.slot (Slot.hit counting)
  o.takeFound value found

end OptionOf

end Synopsis
