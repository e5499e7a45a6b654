import Synopsis.Proofs.Matcher.Run

/-! # Answers of steps

When a step comes to an answer, and a step of a match in which state.
-/

namespace Synopsis

theorem Except.bind_eq_ok {ε α β : Type} {x : Except ε α} {f : α → Except ε β} {b : β} :
    x >>= f = .ok b ↔ ∃ a, x = .ok a ∧ f a = .ok b := by
  cases x with
  | error e => exact ⟨nofun, by rintro ⟨a, ⟨⟩, -⟩⟩
  | ok a =>
    constructor
    · intro h
      exact ⟨a, rfl, h⟩
    · rintro ⟨a, ⟨⟩, h⟩
      exact h

theorem Except.bind_eq_error {ε α β : Type} {x : Except ε α} {f : α → Except ε β} {e : ε} :
    x >>= f = .error e ↔ x = .error e ∨ ∃ a, x = .ok a ∧ f a = .error e := by
  cases x <;> simp [bind, Except.bind]

namespace MatchM

variable {α β : Type} {s s' : Attempt}

theorem bind_eq_ok {m : MatchM α} {f : α → MatchM β} {b : β} :
    (m >>= f) s = .ok b s' ↔ ∃ a t, m s = .ok a t ∧ f a t = .ok b s' := by
  change EStateM.bind m f s = _ ↔ _
  unfold EStateM.bind
  cases hm : m s with
  | ok a t => simp [and_assoc]
  | error e t => simp

@[simp] theorem map_eq_ok {m : MatchM α} {f : α → β} {b : β} :
    (f <$> m) s = .ok b s' ↔ ∃ a, m s = .ok a s' ∧ f a = b := by
  change EStateM.map f m s = _ ↔ _
  unfold EStateM.map
  cases hm : m s with
  | ok a t =>
    simp only [EStateM.Result.ok.injEq]
    constructor
    · rintro ⟨hb, ht⟩
      exact ⟨a, ⟨rfl, ht⟩, hb⟩
    · rintro ⟨_, ⟨rfl, ht⟩, hb⟩
      exact ⟨hb, ht⟩
  | error e t => simp

@[simp] theorem pure_eq_ok {a b : α} : (pure a : MatchM α) s = .ok b s' ↔ a = b ∧ s = s' := by
  change EStateM.Result.ok a s = _ ↔ _
  simp

@[simp] theorem throw_eq_ok {e : Stop} {a : α} : ¬ (throw e : MatchM α) s = .ok a s' := by
  change ¬ EStateM.Result.error e s = _
  simp

@[simp] theorem fail_eq_ok {e : MatchError} {a : α} : ¬ (fail e : MatchM α) s = .ok a s' :=
  throw_eq_ok

@[simp] theorem get_eq_ok {a : Attempt} : (get : MatchM Attempt) s = .ok a s' ↔ s = a ∧ s = s' := by
  change EStateM.Result.ok s s = _ ↔ _
  simp

@[simp] theorem argv_eq_ok {a : Argv} : argv s = .ok a s' ↔ s.argv = a ∧ s = s' := by
  change EStateM.Result.ok s.argv s = _ ↔ _
  simp

@[simp] theorem setArgv_eq_ok {a : Argv} {x : Unit} :
    setArgv a s = .ok x s' ↔ { s with argv := a } = s' := by
  change EStateM.Result.ok () { s with argv := a } = _ ↔ _
  simp

@[simp] theorem slots_eq_ok {a : Slots} : slots s = .ok a s' ↔ s.slots = a ∧ s = s' := by
  change EStateM.Result.ok s.slots s = _ ↔ _
  simp

@[simp] theorem setSlots_eq_ok {a : Slots} {x : Unit} :
    setSlots a s = .ok x s' ↔ { s with slots := a } = s' := by
  change EStateM.Result.ok () { s with slots := a } = _ ↔ _
  simp

@[simp] theorem modifySlot_eq_ok {i : Nat} {f : Slot → Slot} {x : Unit} :
    modifySlot i f s = .ok x s' ↔ { s with slots := s.slots.modify i f } = s' := by
  change EStateM.Result.ok () { s with slots := s.slots.modify i f } = _ ↔ _
  simp

@[simp] theorem restore_eq_ok {saved : Attempt} {x : Unit} :
    restore saved s = .ok x s' ↔ saved.restored s = s' := by
  change EStateM.Result.ok () (saved.restored s) = _ ↔ _
  simp

/-- Either the step matched, or it did not and left no trace. -/
theorem restoring_eq_ok {m : MatchM Bool} {b : Bool} :
    restoring m s = .ok b s' ↔
      (b = true ∧ m s = .ok true s') ∨
        (b = false ∧ ∃ t, m s = .ok false t ∧ s.restored t = s') := by
  simp only [restoring, bind_eq_ok, get_eq_ok]
  constructor
  · rintro ⟨_, _, ⟨rfl, rfl⟩, c, t, hm, h⟩
    cases c with
    | true =>
      simp only [if_true, pure_eq_ok] at h
      obtain ⟨rfl, rfl⟩ := h
      exact .inl ⟨rfl, hm⟩
    | false =>
      simp only [Bool.false_eq_true, if_false, bind_eq_ok, restore_eq_ok, pure_eq_ok] at h
      obtain ⟨_, _, ht, rfl, rfl⟩ := h
      exact .inr ⟨rfl, t, hm, ht⟩
  · rintro (⟨rfl, h⟩ | ⟨rfl, t, hm, rfl⟩)
    · exact ⟨_, _, ⟨rfl, rfl⟩, true, _, h, by simp⟩
    · exact ⟨_, _, ⟨rfl, rfl⟩, false, _, hm, by simp⟩

theorem onStream_eq_ok {stream : Argv} {m : MatchM α} {r : α × Argv} :
    onStream stream m s = .ok r s' ↔
      ∃ t, m { s with argv := stream } = .ok r.1 t ∧ r.2 = t.argv ∧ s' = ⟨t.slots, s.argv⟩ := by
  simp only [onStream, bind_eq_ok, argv_eq_ok, setArgv_eq_ok]
  constructor
  · rintro ⟨_, _, ⟨rfl, rfl⟩, _, _, rfl, a, t, hm, _, _, ⟨rfl, rfl⟩, _, _, rfl, h⟩
    simp only [pure_eq_ok] at h
    obtain ⟨rfl, rfl⟩ := h
    exact ⟨t, hm, rfl, rfl⟩
  · rintro ⟨t, hm, hr, rfl⟩
    refine ⟨_, _, ⟨rfl, rfl⟩, (), _, rfl, r.1, t, hm, _, _, ⟨rfl, rfl⟩, (), _, rfl, ?_⟩
    simp [← hr]

end MatchM

/-! ## Streams -/

/-- Looking for a positional token can only mark the end of the options. -/
theorem Argv.positional_eq (a : Argv) :
    a.positional.1 = { a with dashes := a.positional.1.dashes } := by
  unfold positional checkDash
  repeat' split
  all_goals rfl

theorem Argv.positional_tokens (a : Argv) : a.positional.1.tokens = a.tokens := by
  rw [positional_eq]

end Synopsis
