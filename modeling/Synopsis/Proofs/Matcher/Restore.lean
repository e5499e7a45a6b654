import Synopsis.Proofs.Matcher.Steps

/-! # Runs that fail

Every rule that can fail either has done nothing yet or restores what it has saved;
this holds locally, without a look at the runs inside.
-/

namespace Synopsis

/-- Nothing was recorded and nothing was used up. -/
structure Undone (s : Attempt) (log : List Move) (t : Attempt) : Prop where
  log_eq : log = []
  slots_eq : t.slots = s.slots
  tokens_eq : t.argv.tokens = s.argv.tokens

variable {s t : Attempt} {log : List Move}

namespace Undone

theorem refl : Undone s [] s := ⟨rfl, rfl, rfl⟩

theorem restored : Undone s [] (s.restored t) := ⟨rfl, rfl, rfl⟩

end Undone

/-- The stream starts with a `--` that may end the options. -/
def Argv.startsWithDashes (a : Argv) : Bool := a.tokens.head?.any Token.isDoubleDash

theorem Argv.positional_dashes {a : Argv} (h : a.startsWithDashes = false) :
    a.positional.1.dashes = a.dashes := by
  unfold positional
  split
  next => rfl
  next t ht =>
    have hd : t.isDoubleDash = false := by simpa [startsWithDashes, ht] using h
    simp [hd]

theorem Positional.Runs.undone {p : Positional} {counting : Bool}
    (h : p.Runs counting s log false t) :
    Undone s log t ∧ (s.argv.startsWithDashes = false → t.argv.dashes = s.argv.dashes) := by
  cases h with
  | barred => exact ⟨.refl, fun _ => rfl⟩
  | refused => exact ⟨⟨rfl, rfl, s.argv.positional_tokens⟩, Argv.positional_dashes⟩

theorem OptionOf.Runs.undone {o : OptionAtom} {value : Pattern → Step} {counting : Bool}
    (h : o.Runs value counting s log false t) : log = [] ∧ t = s := by
  cases h with
  | absent => exact ⟨rfl, rfl⟩

theorem EitherRun.undone {R : Pattern → Step} {ps : List Pattern}
    (h : EitherRun R ps s log false t) :
    Undone s log t ∧ t.argv.dashes = s.argv.dashes := by
  induction ps generalizing s log with
  | nil =>
    cases h
    exact ⟨.refl, rfl⟩
  | cons p ps ih =>
    cases h with
    | miss run rest =>
      obtain ⟨h, hd⟩ := ih rest
      exact ⟨⟨h.log_eq, h.slots_eq, h.tokens_eq⟩, hd⟩

theorem OnceRun.undone {R : Pattern → Step} {line : List Pattern} {kind : GroupKind}
    (h : OnceRun R line kind s log false t) :
    Undone s log t ∧ t.argv.dashes = s.argv.dashes := by
  cases h with
  | required run =>
    cases run with
    | failed => exact ⟨.restored, rfl⟩

theorem RepeatPasses.history_suffix {once : Step} {leaves : List Recorded}
    {history history' : List Slots} (h : RepeatPasses once leaves history s log history' t) :
    history <:+ history' := by
  induction h with
  | empty | failed => exact List.suffix_rfl
  | still => exact List.suffix_cons _ _
  | again _ _ _ _ ih => exact (List.suffix_cons _ _).trans ih

/-- Without a pass that matched, the slots come back from before the first one, and
the rest from the pass itself. -/
theorem RepeatRun.undone {R : Pattern → Step} {line : List Pattern} {kind : GroupKind}
    {leaves : List Recorded} (h : RepeatRun (OnceRun R line kind) leaves s log false t) :
    Undone s log t ∧ t.argv.dashes = s.argv.dashes := by
  cases h with
  | none passes =>
    cases passes with
    | empty => exact ⟨.refl, rfl⟩
    | failed _ run =>
      obtain ⟨h, hd⟩ := run.undone
      exact ⟨⟨rfl, rfl, h.tokens_eq⟩, hd⟩
    | again _ _ _ rest => simpa using rest.history_suffix

theorem Run.undone {scope : Scope} {n : Nat} {counting : Bool} {p : Pattern}
    (h : Run scope n counting p s log false t) :
    Undone s log t ∧
      (p.positional? = none ∨ s.argv.startsWithDashes = false →
        t.argv.dashes = s.argv.dashes) := by
  cases n with
  | zero => exact h.elim
  | succ n =>
    cases p with
    | option o =>
      obtain ⟨rfl, rfl⟩ := OptionOf.Runs.undone h
      exact ⟨.refl, fun _ => rfl⟩
    | command leaf | argument leaf =>
      obtain ⟨h, hd⟩ := Positional.Runs.undone h
      exact ⟨h, fun hp => hp.elim (fun hp => by simp [Pattern.positional?] at hp) hd⟩
    | group kind children repeats =>
      simp only [Run] at h
      split at h
      next =>
        obtain ⟨leaves, matched, -, h, hb⟩ := h
        obtain ⟨rfl, -⟩ : matched = false ∧ _ := by simpa using hb.symm
        obtain ⟨h, hd⟩ := h.undone
        exact ⟨h, fun _ => hd⟩
      next =>
        obtain ⟨h, hd⟩ := h.undone
        exact ⟨h, fun _ => hd⟩
    | either branches =>
      obtain ⟨h, hd⟩ := EitherRun.undone h
      exact ⟨h, fun _ => hd⟩
    | shortcut sc => cases h.2

end Synopsis
