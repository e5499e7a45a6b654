import Synopsis.Argv.Basic
import Synopsis.Error
import Synopsis.Slot

/-! # Attempts

What a match works on: the slots filled so far and the arguments not used yet.
A step may say that its pattern does not match, which is an answer, or it may
stop the whole attempt.
-/

namespace Synopsis

structure Attempt where
  slots : Slots
  argv : Argv
  deriving DecidableEq, Repr

inductive Stop where
  | error (e : MatchError)
  /-- The recursion did not end within its bound. -/
  | outOfFuel
  deriving DecidableEq, Repr

/-- A step of a match. The state that it leaves is known even if it stops. -/
abbrev MatchM := EStateM Stop Attempt

namespace MatchM

def fail {α : Type} (e : MatchError) : MatchM α := throw (.error e)

def argv : MatchM Argv := return (← get).argv

def setArgv (a : Argv) : MatchM Unit := modify ({ · with argv := a })

def slots : MatchM Slots := return (← get).slots

def setSlots (s : Slots) : MatchM Unit := modify ({ · with slots := s })

def modifySlot (i : Nat) (f : Slot → Slot) : MatchM Unit :=
  modify fun s => { s with slots := s.slots.modify i f }

/-- The slots, tokens and end of options of an earlier state. -/
def restore (saved : Attempt) : MatchM Unit :=
  modify fun s => ⟨saved.slots, { s.argv with tokens := saved.argv.tokens, dashes := saved.argv.dashes }⟩

/-- Undoes what a step has done if it does not match. -/
def restoring (m : MatchM Bool) : MatchM Bool := do
  let saved ← get
  if ← m then return true
  restore saved
  return false

/-- Runs a step on another stream, and returns what it leaves of that. -/
def onStream {α : Type} (stream : Argv) (m : MatchM α) : MatchM (α × Argv) := do
  let own ← argv
  setArgv stream
  let r ← m
  let left ← argv
  setArgv own
  return (r, left)

end MatchM

end Synopsis
