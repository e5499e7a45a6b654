import Synopsis.Pattern.Basic
import Synopsis.Slot

/-! # Lending

A repeating group takes all arguments that it can, also those that positionals
behind it need. When a line fails for that reason, the group gives its last
texts back. Only a group of arguments can lend, and only to commands and
arguments that did not match.
-/

namespace Synopsis

inductive Positional where
  | command (leaf : Leaf)
  | argument (leaf : Leaf)
  deriving DecidableEq, Repr

namespace Positional

def slot : Positional → Nat
  | .command leaf | .argument leaf => leaf.slot

/-- The leaf has what it needs. -/
def isFilled (slots : Slots) : Positional → Bool
  | .command leaf => (slots.get leaf.slot).isTruthy
  | .argument leaf => (slots.get leaf.slot).hasText

end Positional

def Pattern.positional? : Pattern → Option Positional
  | .command leaf => some (.command leaf)
  | .argument leaf => some (.argument leaf)
  | _ => none

namespace Lending

/-! ## Who lends, who borrows -/

mutual

/-- Everything that has to match in a pattern has matched. -/
def isSatisfied (slots : Slots) : Pattern → Bool
  | .option _ | .shortcut _ | .group .optional _ _ => true
  | .command leaf => (slots.get leaf.slot).isTruthy
  | .argument leaf => (slots.get leaf.slot).hasText
  | .group .required children _ => areSatisfied slots children
  | .either _ => false

def areSatisfied (slots : Slots) : List Pattern → Bool
  | [] => true
  | p :: ps => isSatisfied slots p && areSatisfied slots ps

end

mutual

/-- The argument slots of a group that holds nothing but arguments and groups
of them without a repetition of their own. -/
def argumentSlots? : Pattern → Option (List Nat)
  | .argument leaf => some [leaf.slot]
  | .group _ children false => argumentSlotsAll? children
  | _ => none

def argumentSlotsAll? : List Pattern → Option (List Nat)
  | [] => some []
  | p :: ps => do
    let first ← argumentSlots? p
    let rest ← argumentSlotsAll? ps
    some (first ++ rest)

end

mutual

/-- The commands and arguments that wait for a text, or `none` if one of them
has one or a pattern cannot borrow. -/
def borrowers? (slots : Slots) : Pattern → Option (List Positional)
  | .group _ _ true | .either _ => none
  | .group .optional _ _ | .option _ | .shortcut _ => some []
  | .group .required children false => borrowersAll? slots children
  | .command leaf => if (slots.get leaf.slot).isTruthy then none else some [.command leaf]
  | .argument leaf => if (slots.get leaf.slot).hasText then none else some [.argument leaf]

def borrowersAll? (slots : Slots) : List Pattern → Option (List Positional)
  | [] => some []
  | p :: ps => do
    let first ← borrowers? slots p
    let rest ← borrowersAll? slots ps
    some (first ++ rest)

end

/-- A loan: from the arguments of a repeating group to positionals behind it. -/
structure Loan where
  /-- Whether the group may give up everything that it has. -/
  kind : GroupKind
  lenders : List Nat
  borrowers : List Positional
  deriving DecidableEq, Repr

/-- The loan that the first repeating group of a line can make. Everything before
it has to be satisfied. -/
def loan? (slots : Slots) : List Pattern → Option Loan
  | [] | [_] => none
  | .shortcut _ :: rest => loan? slots rest
  | .group kind children true :: rest => do
    guard (isSatisfied slots (.group kind children true))
    let lenders ← argumentSlotsAll? children
    let borrowers ← borrowersAll? slots rest
    if lenders.isEmpty || borrowers.isEmpty then none else some ⟨kind, lenders, borrowers⟩
  | p :: rest => if isSatisfied slots p then loan? slots rest else none

/-! ## The texts to lend -/

def popText? (slots : Slots) (i : Nat) : Option (String × Slots) :=
  (slots.get i).popText?.map fun (text, left) => (text, slots.set i left)

/-- The last text of each slot that has one, in order. -/
def popEach (slots : Slots) : List Nat → List String × Slots
  | [] => ([], slots)
  | i :: is =>
    match popText? slots i with
    | some (text, slots) =>
      let (texts, slots) := popEach slots is
      (text :: texts, slots)
    | none => popEach slots is

/-- The last texts of some slots, for a number of rounds. -/
def popRounds (lenders : List Nat) : Nat → Slots → List String × Slots
  | 0, slots => ([], slots)
  | n + 1, slots =>
    let (last, slots) := popEach slots lenders
    let (texts, slots) := popRounds lenders n slots
    (texts ++ last, slots)

/-- Puts the last text of each slot in turn in front of the others, until none
is missing. -/
def popUntil : (missing : Nat) → List Nat → List String → Slots → Option (List String × Slots)
  | 0, _, texts, slots => some (texts, slots)
  | _ + 1, [], _, _ => none
  | n + 1, i :: is, texts, slots => do
    let (text, slots) ← popText? slots i
    popUntil n is (text :: texts) slots

def leastSize (lenders : List Nat) (slots : Slots) : Nat :=
  ((lenders.map fun i => (slots.get i).size).min?).getD 0

/-- Whole rounds only, and every lender keeps a text. -/
def fromRequired? (lenders : List Nat) (wanted : Nat) (slots : Slots) :
    Option (List String × Slots) :=
  let rounds := wanted / lenders.length
  if wanted % lenders.length ≠ 0 ∨ leastSize lenders slots - 1 < rounds then none
  else some (popRounds lenders rounds slots)

/-- The lenders that are ahead of the others go first, from the last to the first. -/
def fromOptional? (lenders : List Nat) (wanted : Nat) (slots : Slots) :
    Option (List String × Slots) := do
  let least := leastSize lenders slots
  let ahead := (lenders.reverse.filter fun i => (slots.get i).size ≠ least).take wanted
  let (texts, slots) ← popUntil ahead.length ahead [] slots
  let turns := (List.replicate wanted lenders.reverse).flatten
  popUntil (wanted - ahead.length) turns texts slots

def Loan.texts? (l : Loan) (slots : Slots) : Option (List String × Slots) :=
  match l.kind with
  | .required => fromRequired? l.lenders l.borrowers.length slots
  | .optional => fromOptional? l.lenders l.borrowers.length slots

end Lending

end Synopsis
