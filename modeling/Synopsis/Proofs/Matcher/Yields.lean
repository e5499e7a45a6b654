import Synopsis.Proofs.Matcher.Steps

/-! # What steps yield

A step of a match ends in an answer or in a stop, and leaves a state in both cases. What
it yields is put together from what its parts yield, one rule for each way of putting
steps together.
-/

namespace Synopsis

namespace MatchM

variable {α β : Type} {s : Attempt} {ok ok' : α → Attempt → Prop} {stop stop' : Stop → Attempt → Prop}

/-- The answer and its state have one property, a stop and its state have another. -/
def Yields (m : MatchM α) (s : Attempt) (ok : α → Attempt → Prop)
    (stop : Stop → Attempt → Prop) : Prop :=
  match m s with
  | .ok a t => ok a t
  | .error e t => stop e t

namespace Yields

variable {m : MatchM α} {a : α} {t : Attempt}

theorem of_ok (h : m.Yields s ok stop) (hm : m s = .ok a t) : ok a t := by
  unfold Yields at h
  rwa [hm] at h

theorem of_error {e : Stop} (h : m.Yields s ok stop) (hm : m s = .error e t) : stop e t := by
  unfold Yields at h
  rwa [hm] at h

theorem of_eq_ok (hm : m s = .ok a t) (h : ok a t) : m.Yields s ok stop := by
  unfold Yields
  rwa [hm]

theorem of_eq_error {e : Stop} (hm : m s = .error e t) (h : stop e t) : m.Yields s ok stop := by
  unfold Yields
  rwa [hm]

theorem exists_ok (h : m.Yields s ok fun _ _ => False) : ∃ a t, m s = .ok a t ∧ ok a t := by
  cases hm : m s with
  | ok a t => exact ⟨a, t, rfl, h.of_ok hm⟩
  | error e t => exact (h.of_error hm).elim

theorem intro (hok : ∀ a t, m s = .ok a t → ok a t) (hstop : ∀ e t, m s = .error e t → stop e t) :
    m.Yields s ok stop := by
  unfold Yields
  split
  next a t hm => exact hok a t hm
  next e t hm => exact hstop e t hm

theorem mono (h : m.Yields s ok stop) (hok : ∀ a t, ok a t → ok' a t)
    (hstop : ∀ e t, stop e t → stop' e t) : m.Yields s ok' stop' :=
  .intro (fun a t hm => hok a t (h.of_ok hm)) fun e t hm => hstop e t (h.of_error hm)

theorem imp (h : m.Yields s ok stop) (hok : ∀ a t, ok a t → ok' a t) : m.Yields s ok' stop :=
  h.mono hok fun _ _ hstop => hstop

theorem and (h : m.Yields s ok stop) (h' : m.Yields s ok' stop') :
    m.Yields s (fun a t => ok a t ∧ ok' a t) fun e t => stop e t ∧ stop' e t :=
  .intro (fun _ _ hm => ⟨h.of_ok hm, h'.of_ok hm⟩) fun _ _ hm => ⟨h.of_error hm, h'.of_error hm⟩

end Yields

@[simp] theorem yields_bind {m : MatchM α} {f : α → MatchM β} {ok : β → Attempt → Prop} :
    (m >>= f).Yields s ok stop ↔ m.Yields s (fun a t => (f a).Yields t ok stop) stop := by
  change (match EStateM.bind m f s with | .ok a t => ok a t | .error e t => stop e t) ↔ _
  unfold EStateM.bind Yields
  cases m s <;> rfl

@[simp] theorem yields_map {m : MatchM α} {f : α → β} {ok : β → Attempt → Prop} :
    (f <$> m).Yields s ok stop ↔ m.Yields s (fun a t => ok (f a) t) stop := by
  change (match EStateM.map f m s with | .ok a t => ok a t | .error e t => stop e t) ↔ _
  unfold EStateM.map Yields
  cases m s <;> rfl

@[simp] theorem yields_pure {a : α} : (pure a : MatchM α).Yields s ok stop ↔ ok a s := .rfl

@[simp] theorem yields_throw {e : Stop} : (throw e : MatchM α).Yields s ok stop ↔ stop e s := .rfl

@[simp] theorem yields_fail {e : MatchError} :
    (fail e : MatchM α).Yields s ok stop ↔ stop (.error e) s := .rfl

@[simp] theorem yields_get {ok : Attempt → Attempt → Prop} :
    (get : MatchM Attempt).Yields s ok stop ↔ ok s s := .rfl

@[simp] theorem yields_argv {ok : Argv → Attempt → Prop} :
    argv.Yields s ok stop ↔ ok s.argv s := .rfl

@[simp] theorem yields_setArgv {a : Argv} {ok : Unit → Attempt → Prop} :
    (setArgv a).Yields s ok stop ↔ ok () { s with argv := a } := .rfl

@[simp] theorem yields_slots {ok : Slots → Attempt → Prop} :
    slots.Yields s ok stop ↔ ok s.slots s := .rfl

@[simp] theorem yields_setSlots {a : Slots} {ok : Unit → Attempt → Prop} :
    (setSlots a).Yields s ok stop ↔ ok () { s with slots := a } := .rfl

@[simp] theorem yields_modifySlot {i : Nat} {f : Slot → Slot} {ok : Unit → Attempt → Prop} :
    (modifySlot i f).Yields s ok stop ↔ ok () { s with slots := s.slots.modify i f } := .rfl

@[simp] theorem yields_restore {saved : Attempt} {ok : Unit → Attempt → Prop} :
    (restore saved).Yields s ok stop ↔ ok () (saved.restored s) := .rfl

@[simp] theorem yields_restoring {m : MatchM Bool} {ok : Bool → Attempt → Prop} :
    (restoring m).Yields s ok stop ↔
      m.Yields s (fun b t => if b then ok true t else ok false (s.restored t)) stop := by
  simp only [restoring, yields_bind, yields_get]
  unfold Yields
  cases m s with
  | ok b t => cases b <;> rfl
  | error e t => rfl

@[simp] theorem yields_onStream {stream : Argv} {m : MatchM α} {ok : α × Argv → Attempt → Prop} :
    (onStream stream m).Yields s ok stop ↔
      m.Yields { s with argv := stream } (fun a t => ok (a, t.argv) ⟨t.slots, s.argv⟩) stop := by
  simp [onStream]

end MatchM

/-! ## Properties that steps keep -/

/-- A property of the state that does not depend on where the options are said to end. -/
def Blind (J : Attempt → Prop) : Prop :=
  ∀ s a, J s → a.tokens = s.argv.tokens → J { s with argv := a }

theorem Blind.aimed {J : Attempt → Prop} (hJ : Blind J) (s : Attempt) (place : Nat)
    (last : Option Nat) (hs : J s) : J (s.aimed place last) :=
  hJ s _ hs rfl

namespace MatchM

variable {α β : Type} {J : Attempt → Prop} {stop : Stop → Attempt → Prop} {s : Attempt}

/-- A property of the state that a step keeps if it comes to an answer. -/
def Keeps (J : Attempt → Prop) (stop : Stop → Attempt → Prop) (m : MatchM α) : Prop :=
  ∀ s, J s → m.Yields s (fun _ t => J t) stop

end MatchM

open MatchM (Keeps)

variable {run : Pattern → MatchM Bool} {J : Attempt → Prop} {stop : Stop → Attempt → Prop}
  {s : Attempt}

/-- A pass over a line keeps what its patterns keep, and the patterns. -/
theorem yields_scanPass (hJ : ∀ s place last, J s → J (s.aimed place last)) {xs : List Scanned}
    {place : Nat} {last : Option Nat} (hrun : ∀ x ∈ xs, Keeps J stop (run x.pattern)) (hs : J s) :
    (scanPass run place last xs).Yields s
      (fun r t => J t ∧ r.2.map (·.pattern) = xs.map (·.pattern)) stop := by
  induction xs generalizing place last s with
  | nil => exact ⟨hs, rfl⟩
  | cons x xs ih =>
    obtain ⟨hx, hxs⟩ := List.forall_mem_cons.mp hrun
    simp only [scanPass, MatchM.yields_bind, MatchM.yields_argv]
    split
    · exact ⟨hs, rfl⟩
    · simp only [MatchM.yields_bind, MatchM.yields_setArgv]
      refine (hx (s.aimed place last) (hJ s place last hs)).imp fun b t ht => ?_
      cases b with
      | true | false =>
        refine MatchM.yields_bind.mpr ((ih hxs ht).imp fun r u h => ?_)
        exact ⟨h.1, congrArg (x.pattern :: ·) h.2⟩

/-- A scan of a line keeps what its patterns keep. -/
theorem yields_scanLine (hJ : ∀ s place last, J s → J (s.aimed place last))
    (hfuel : ∀ s, J s → stop .outOfFuel s) {line : List Pattern}
    (hrun : ∀ c ∈ line, Keeps J stop (run c)) : Keeps J stop (scanLine run line) := by
  intro s hs
  simp only [scanLine, MatchM.yields_bind, MatchM.yields_argv]
  have hstart : ∀ x ∈ line.map Scanned.start, x.pattern ∈ line := by
    simp [Scanned.start]
  generalize line.map Scanned.start = xs at hstart
  generalize s.argv.size + 1 = n
  generalize none = last
  induction n generalizing last xs s with
  | zero => exact hfuel s hs
  | succ n ih =>
    simp only [scanPasses, MatchM.yields_bind, MatchM.yields_argv]
    split
    · exact hs
    · refine MatchM.yields_bind.mpr ((yields_scanPass hJ (fun x hx => hrun _ (hstart x hx)) hs).imp
        fun r t h => ?_)
      obtain ⟨ht, hpatterns⟩ := h
      simp only [MatchM.yields_bind, MatchM.yields_argv]
      split
      · exact ht
      · refine ih _ ht _ (fun x hx => ?_) _
        have hx := List.mem_map_of_mem (f := Scanned.pattern) hx
        rw [hpatterns] at hx
        obtain ⟨y, hy, he⟩ := List.mem_map.mp hx
        exact he ▸ hstart y hy

/-- Alternatives keep what their branches keep, if that comes back when a branch fails. -/
theorem keeps_matchEither {ps : List Pattern} (hback : ∀ s t, J s → J t → J (s.restored t))
    (hrun : ∀ p ∈ ps, Keeps J stop (run p)) : Keeps J stop (matchEither run ps) := by
  induction ps with
  | nil => exact fun s hs => hs
  | cons p ps ih =>
    obtain ⟨hp, hps⟩ := List.forall_mem_cons.mp hrun
    intro s hs
    simp only [matchEither, MatchM.yields_bind, MatchM.yields_restoring]
    refine (hp s hs).imp fun b t ht => ?_
    cases b with
    | true => exact ht
    | false => exact ih hps _ (hback s t hs ht)

/-- Entries are only tried while there are arguments. -/
theorem keeps_matchEntries {ps : List Pattern}
    (hrun : ∀ p ∈ ps, ∀ s, s.argv.isEmpty = false → J s → (run p).Yields s (fun _ t => J t) stop) :
    Keeps J stop (matchEntries run ps) := by
  induction ps with
  | nil => exact fun s hs => hs
  | cons p ps ih =>
    obtain ⟨hp, hps⟩ := List.forall_mem_cons.mp hrun
    intro s hs
    simp only [matchEntries, MatchM.yields_bind, MatchM.yields_argv]
    split
    · exact hs
    next hne =>
      refine MatchM.yields_bind.mpr ((hp s (by simpa using hne) hs).mono (fun b t ht => ?_) ?_)
      · exact ih hps t ht
      · exact fun _ _ h => h

/-- A command or an argument either leaves its slot and the tokens as they are, or records
one of the tokens and removes it. It never stops a match. -/
theorem Positional.yields_run (hJ : Blind J) {p : Positional} {counting : Bool} (hs : J s)
    (htake : ∀ place token, s.argv.tokens[place]? = some token →
      J ⟨s.slots.modify p.slot (p.record counting token.text), s.argv.remove place⟩) :
    (p.run counting).Yields s (fun _ t => J t) stop := by
  simp only [run, MatchM.yields_bind, MatchM.yields_slots]
  split
  · exact hs
  simp only [MatchM.yields_bind, MatchM.yields_argv]
  split
  · exact hs
  have hmarked : J { s with argv := s.argv.positional.1 } := hJ _ _ hs s.argv.positional_tokens
  simp only [take, MatchM.yields_bind, MatchM.yields_argv, MatchM.yields_setArgv]
  split
  next place hplace =>
    split
    next token htoken =>
      split
      · exact hmarked
      · simp only [MatchM.yields_bind, MatchM.yields_modifySlot, MatchM.yields_setArgv,
          MatchM.yields_pure]
        rw [Argv.positional_tokens] at htoken
        refine hJ _ _ (htake place token htoken) ?_
        simp [Argv.remove, Argv.positional_tokens]
    next => exact hmarked
  next => exact hmarked

end Synopsis
