import Mathlib
import Synopsis.Proofs.Matcher.Adequacy
import Synopsis.Proofs.Matcher.Restore

/-! # Failure leaves no trace

A pattern that does not match leaves the slots and the tokens as they were, whatever
was tried before it failed.
-/

namespace Synopsis

variable {s t : Attempt}

/-- A match that fails leaves the slots and the tokens as they were. It leaves the
mark of a `--` that was met as well, unless a bare command or argument has just met
one. -/
theorem matchPattern_false_leaves_no_trace {scope : Scope} {n : Nat} {counting : Bool}
    {p : Pattern} (h : matchPattern scope n counting p s = .ok false t) :
    t.slots = s.slots ∧ t.argv.tokens = s.argv.tokens ∧
      (t.argv.dashes = s.argv.dashes ∨
        p.positional?.isSome ∧ s.argv.startsWithDashes = true) := by
  obtain ⟨log, h⟩ := run_of_matchPattern h
  obtain ⟨h, hd⟩ := h.undone
  refine ⟨h.slots_eq, h.tokens_eq, ?_⟩
  by_cases hp : p.positional? = none ∨ s.argv.startsWithDashes = false
  · exact .inl (hd hp)
  · right
    simpa [not_or, Option.isSome_iff_ne_none] using hp

/-- The usage `-a <x> go`. -/
def goLine : Pattern := .required
  [.option { names := .singleton "-a" }, .argument { names := .singleton "<x>", slot := 1 },
    .command { names := .singleton "go", slot := 2 }]

/-- The arguments `1 -a stop`. -/
def stopAttempt : Attempt where
  slots := .blank 3
  argv := {
    tokens := [⟨"1", .word⟩, ⟨"-a", .flag⟩, ⟨"stop", .word⟩]
    style := ⟨true, true, true⟩
    autoDashes := true }

/-- The option and the argument were recorded before the command did not match. -/
theorem goLine_leaves_no_trace :
    ∃ t, matchPattern ⟨{}, false⟩ 3 false goLine stopAttempt = .ok false t ∧
      t.slots = .blank 3 ∧ t.argv.tokens = stopAttempt.argv.tokens ∧
        (t.argv.dashes = false ∨
          goLine.positional?.isSome ∧ stopAttempt.argv.startsWithDashes = true) := by
  have h : matchPattern ⟨{}, false⟩ 3 false goLine stopAttempt = .ok false stopAttempt := by cbv
  exact ⟨_, h, matchPattern_false_leaves_no_trace h⟩

end Synopsis
