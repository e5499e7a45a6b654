import Synopsis.Matcher.Leaves
import Synopsis.Matcher.Recorded

/-! # Matching patterns

One usage against a stream of arguments. A line of patterns is scanned again
until nothing more is taken, so that options may come in any order; a repeating
group is matched again until nothing more is taken, and its passes are merged.

The bound of the recursion is explicit, since a value pattern may lead back to
its own option.
-/

namespace Synopsis

/-! ## Lines -/

/-- A pattern of a line, and whether it has matched. -/
structure Scanned where
  pattern : Pattern
  matched : Bool

namespace Scanned

def start (p : Pattern) : Scanned where
  pattern := p
  matched := match p with
    | .group .optional _ _ | .shortcut _ => true
    | _ => false

end Scanned

/-- Tries the patterns of a line once. Up to the last positional that matched,
only options are taken. -/
def scanPass (run : Pattern → MatchM Bool) :
    (place : Nat) → (last : Option Nat) → List Scanned → MatchM (Option Nat × List Scanned)
  | _, last, [] => return (last, [])
  | place, last, s :: rest => do
    let argv ← MatchM.argv
    if argv.isEmpty then return (last, s :: rest)
    MatchM.setArgv { argv with optionOnly := last.any (place ≤ ·) }
    if ← run s.pattern then
      let first := !s.matched && s.pattern.positional?.isSome
      let (last, rest) ← scanPass run (place + 1) (if first then some place else last) rest
      return (last, { s with matched := true } :: rest)
    else
      let (last, rest) ← scanPass run (place + 1) last rest
      return (last, s :: rest)

/-- Passes over a line until nothing more is taken. -/
def scanPasses (run : Pattern → MatchM Bool) :
    (passes : Nat) → (last : Option Nat) → List Scanned → MatchM (List Scanned)
  | 0, _, _ => throw .outOfFuel
  | n + 1, last, line => do
    let before ← MatchM.argv
    if before.isEmpty then return line
    let (last, line) ← scanPass run 0 last line
    if (← MatchM.argv).tokens = before.tokens then return line else scanPasses run n last line

/-- Every pass that takes something makes the stream smaller. -/
def scanLine (run : Pattern → MatchM Bool) (line : List Pattern) : MatchM (List Scanned) := do
  scanPasses run ((← MatchM.argv).size + 1) none (line.map .start)

/-- A line of which everything has to match, if need be with a loan. -/
def matchLine (run : Pattern → MatchM Bool) (line : List Pattern) : MatchM Bool :=
  MatchM.restoring do
    if (← scanLine run line).all (·.matched) then return true
    Lending.lend line

/-- A group, as if it did not repeat. -/
def matchOnce (run : Pattern → MatchM Bool) (kind : GroupKind) (line : List Pattern) :
    MatchM Bool := do
  match kind with
  | .required => matchLine run line
  | .optional =>
    let _ ← scanLine run line
    return true

/-! ## Repetition -/

/-- The slots after each pass that matched, the last one first. -/
def repeatPasses (once : MatchM Bool) (leaves : List Recorded) :
    (passes : Nat) → List Slots → MatchM (List Slots)
  | 0, _ => throw .outOfFuel
  | n + 1, history => do
    let before ← MatchM.argv
    if before.isEmpty then return history
    MatchM.setSlots (Recorded.clearAll leaves (← MatchM.slots))
    if !(← once) then return history
    let history := (← MatchM.slots) :: history
    if (← MatchM.argv).tokens = before.tokens then return history
    else repeatPasses once leaves n history

/-- Matches a group as often as it takes something, and merges what it recorded.
The answer is whether any pass matched. -/
def matchRepeatedly (once : MatchM Bool) (leaves : List Recorded) : MatchM Bool := do
  let initial ← MatchM.slots
  let history ← repeatPasses once leaves ((← MatchM.argv).size + 1) []
  if history.isEmpty then
    MatchM.setSlots initial
    return false
  MatchM.setSlots (Recorded.mergeAll leaves (initial :: history.reverse) (← MatchM.slots))
  return true

/-! ## Patterns -/

/-- Tries the branches one after the other. -/
def matchEither (run : Pattern → MatchM Bool) : List Pattern → MatchM Bool
  | [] => return false
  | p :: ps => do
    if ← MatchM.restoring (run p) then return true
    matchEither run ps

/-- Tries all entries while there are arguments. -/
def matchEntries (run : Pattern → MatchM Bool) : List Pattern → MatchM Unit
  | [] => return
  | p :: ps => do
    if (← MatchM.argv).isEmpty then return
    let _ ← run p
    matchEntries run ps

/-- Whether a pattern matches. If it does not, the slots and tokens are what they
were. A counting match takes leaves that are filled already once more. -/
def matchPattern (scope : Scope) : Nat → (counting : Bool) → Pattern → MatchM Bool
  | 0, _, _ => throw .outOfFuel
  | n + 1, counting, p =>
    match p with
    | .option o => o.run (matchPattern scope n counting) counting
    | .command leaf => (Positional.command leaf).run counting
    | .argument leaf => (Positional.argument leaf).run counting
    | .group kind children repeats => do
      let once := matchOnce (matchPattern scope n false) kind children
      if counting || repeats then
        let some leaves := p.recorded? scope (scope.depth p) | throw .outOfFuel
        let matched ← matchRepeatedly once leaves
        return matched || kind = .optional
      else once
    | .either branches => matchEither (matchPattern scope n counting) branches
    | .shortcut s => do
      matchEntries (matchPattern scope n counting) (scope.visible s)
      return true

/-- Deep enough unless a value pattern leads back to its own option: between two
options that are taken, the recursion cannot be deeper than all patterns together. -/
def Scope.fuel (scope : Scope) (p : Pattern) (a : Argv) : Nat :=
  scope.depth p * (a.size + 2)

end Synopsis
