import Synopsis.Proofs.Matcher.Reach
import Synopsis.Proofs.Matcher.Restore

/-! # What every run keeps

A relation between attempts that holds of the single steps of a match, and of loans
and repetitions whose parts keep it, holds of all runs. `Closed.run` is the one
induction over runs that such results need.
-/

namespace Synopsis

open Pattern (Reaches)

/-- No token ends the options. -/
def Argv.Unmarked (a : Argv) : Prop := ∀ x ∈ a.tokens, x.isDoubleDash = false

theorem Argv.Unmarked.positional_eq {a : Argv} (h : a.Unmarked) : a.positional.1 = a := by
  unfold positional
  cases hhead : a.tokens.head? with
  | none => rfl
  | some x => simp [h x (List.mem_of_mem_head? hhead)]

/-- The spelling rules of a stream never change. That the options have ended is noted only
where a token says so. -/
structure Steady (s t : Attempt) : Prop where
  style_eq : t.argv.style = s.argv.style
  autoDashes_eq : t.argv.autoDashes = s.argv.autoDashes
  unmarked (h : s.argv.Unmarked) : t.argv.Unmarked ∧ t.argv.dashes = s.argv.dashes

namespace Steady

variable {s t u : Attempt}

theorem refl : Steady s s := ⟨rfl, rfl, fun h => ⟨h, rfl⟩⟩

theorem trans (h : Steady s t) (h' : Steady t u) : Steady s u where
  style_eq := h'.style_eq.trans h.style_eq
  autoDashes_eq := h'.autoDashes_eq.trans h.autoDashes_eq
  unmarked hs := by
    obtain ⟨ht, hdashes⟩ := h.unmarked hs
    obtain ⟨hu, hdashes'⟩ := h'.unmarked ht
    exact ⟨hu, hdashes'.trans hdashes⟩

/-- Slots do not matter. -/
theorem with_slots (h : Steady s t) (slots slots' : Slots) :
    Steady ⟨slots, s.argv⟩ ⟨slots', t.argv⟩ := ⟨h.style_eq, h.autoDashes_eq, h.unmarked⟩

theorem restored (h : Steady s t) : Steady s (s.restored t) :=
  ⟨h.style_eq, h.autoDashes_eq, fun hs => ⟨hs, rfl⟩⟩

end Steady

/-- A relation between attempts that follows a scan from one match to the next. -/
structure Chains (C : Attempt → List Move → Attempt → Prop) : Prop where
  refl (s : Attempt) : C s [] s
  trans {s t u : Attempt} {log log' : List Move} (h : C s log t) (h' : C t log' u) :
    C s (log ++ log') u
  aim (s : Attempt) (optionOnly : Bool) : C s [] { s with argv := { s.argv with optionOnly } }

namespace Chains

variable {C : Attempt → List Move → Attempt → Prop} {R : Pattern → Step} {line : List Pattern}
  {s t : Attempt} {log : List Move} (hC : Chains C)
  (hR : ∀ p ∈ line, ∀ s log b t, R p s log b t → C s log t)
include hC

theorem aimed (s : Attempt) (place : Nat) (last : Option Nat) : C s [] (s.aimed place last) :=
  hC.aim s _

include hR

theorem pass {place : Nat} {last last' : Option Nat} {xs ys : List Scanned}
    (h : Pass R place last xs s log last' ys t) (hx : ∀ x ∈ xs, x.pattern ∈ line) :
    C s log t ∧ ∀ y ∈ ys, y.pattern ∈ line := by
  induction h with
  | nil | empty => exact ⟨hC.refl _, hx⟩
  | hit _ run _ ih | miss _ run _ ih =>
    rw [List.forall_mem_cons] at hx
    obtain ⟨hrest, hy⟩ := ih hx.2
    have hrun := hC.trans (hC.aimed _ _ _) (hR _ hx.1 _ _ _ _ run)
    exact ⟨hC.trans hrun hrest, List.forall_mem_cons.mpr ⟨hx.1, hy⟩⟩

theorem passes {last : Option Nat} {xs ys : List Scanned} (h : Passes R last xs s log ys t)
    (hx : ∀ x ∈ xs, x.pattern ∈ line) : C s log t := by
  induction h with
  | empty => exact hC.refl _
  | still _ pass => exact (hC.pass hR pass hx).1
  | again _ pass _ _ ih =>
    obtain ⟨hpass, hy⟩ := hC.pass hR pass hx
    exact hC.trans hpass (ih hy)

theorem scan {xs : List Scanned} (h : Scan R line s log xs t) : C s log t := by
  apply hC.passes hR h
  intro x hx
  obtain ⟨p, hp, rfl⟩ := List.mem_map.mp hx
  exact hp

theorem entries {ps : List Pattern} (h : EntriesRun R ps s log t) (hps : ∀ p ∈ ps, p ∈ line) :
    C s log t := by
  induction h with
  | nil | empty => exact hC.refl _
  | cons _ run _ ih =>
    rw [List.forall_mem_cons] at hps
    exact hC.trans (hR _ hps.1 _ _ _ _ run) (ih hps.2)

end Chains

/-- A relation that holds of the steps of a match of patterns in `L`. -/
structure Closed (scope : Scope) (L : Pattern → Prop)
    (C : Attempt → List Move → Attempt → Prop) : Prop where
  refl (s : Attempt) : C s [] s
  trans {s t u : Attempt} {log log' : List Move} (h : C s log t) (h' : C t log' u) :
    C s (log ++ log') u
  marks (s : Attempt) (dashes optionOnly : Bool) :
    C s [] { s with argv := { s.argv with dashes, optionOnly } }
  take {p : Positional} {counting : Bool} {place : Nat} {token : Token} {s : Attempt}
    (hp : L p.pattern) (hw : (!counting && p.isFilled s.slots) = false)
    (ho : s.argv.optionOnly = false) (hpl : s.argv.positional.2 = some place)
    (ht : s.argv.tokens[place]? = some token)
    (ha : p.accepts place token = true) :
    C s [.take p.slot place] ⟨s.slots.modify p.slot (p.record counting token.text),
      s.argv.positional.1.remove place⟩
  option {o : OptionAtom} {value : Pattern → Step} {counting : Bool} {found : Argv.Found}
    {a : Argv} {s t : Attempt} {log : List Move} (ho : L (.option o))
    (hw : (!counting && (s.slots.get o.slot).isTruthy) = false)
    (hf : s.argv.takeOption? o.names = some (found, a))
    (hv : ∀ v s log t, o.value = some v → value v s log true t → C s log t)
    (hrun : ∃ n, value = Run scope n counting)
    (hc : o.Completes value found ⟨s.slots.modify o.slot (Slot.hit counting), a⟩ log t) :
    C s log t
  lend {line : List Pattern} {repeats : Bool} {s t : Attempt}
    (hl : ∀ q, Reaches scope (.group .required line repeats) q → L q)
    (h : Lending.Lends line s t) : C s [] t
  repeats {once : Step} {leaves : List Recorded} {history : List Slots} {s t : Attempt}
    {log : List Move} (hl : ∀ r ∈ leaves, ∃ q, L q ∧ q.ownRecord? = some r)
    (ho : ∀ s log b t, once s log b t → C s log t)
    (hu : ∀ s log t, once s log false t → Undone s log t)
    (hp : RepeatPasses once leaves [] s log history t) (hh : history ≠ []) :
    C s log ⟨Recorded.mergeAll leaves (s.slots :: history.reverse) t.slots, t.argv⟩

theorem OptionOf.valueSplit_append (a : Argv) (place : Nat) :
    (valueSplit a place).1 ++ (valueSplit a place).2 = a.tokens := by
  unfold valueSplit
  split
  · exact List.append_nil _
  · exact List.take_append_drop _ _

/-- The spelling rules do not depend on what the value pattern does. -/
theorem OptionOf.Completes.rules_eq {o : OptionAtom} {value : Pattern → Step} {found : Argv.Found}
    {s t : Attempt} {log : List Move} (h : o.Completes value found s log t) :
    t.argv.style = s.argv.style ∧ t.argv.autoDashes = s.argv.autoDashes := by
  cases h with
  | plain | stacked | attached => exact ⟨rfl, rfl⟩
  | separate _ _ run | stackedSeparate _ _ _ run =>
    cases run
    exact ⟨rfl, rfl⟩

theorem OptionOf.TakesSeparate.steady {value : Step} {arity : Arity} {place : Nat}
    {s t : Attempt} {log : List Move} (hv : ∀ s log t, value s log true t → Steady s t)
    (h : TakesSeparate value arity place s log t) : Steady s t := by
  cases h with
  | intro _ run =>
    refine ⟨rfl, rfl, fun hs => ⟨?_, rfl⟩⟩
    have hsplit : ∀ x ∈ (valueSplit s.argv place).1 ++ (valueSplit s.argv place).2,
        x.isDoubleDash = false := fun x hx => hs x (valueSplit_append s.argv place ▸ hx)
    obtain ⟨hkept, hgiven⟩ := List.forall_mem_append.mp hsplit
    exact List.forall_mem_append.mpr ⟨hkept, ((hv _ _ _ run).unmarked hgiven).1⟩

theorem OptionOf.Completes.steady {o : OptionAtom} {value : Pattern → Step}
    {found : Argv.Found} {s t : Attempt} {log : List Move}
    (hv : ∀ v s log t, o.value = some v → value v s log true t → Steady s t)
    (h : o.Completes value found s log t) : Steady s t := by
  have hinsert {rest : String} (slots : Slots) :
      Steady s ⟨slots, s.argv.insert found.index (restOfStack rest)⟩ := by
    refine ⟨rfl, rfl, fun hs => ⟨fun x hx => ?_, rfl⟩⟩
    rcases List.mem_append.mp hx with hx | hx
    · exact hs x (List.mem_of_mem_take hx)
    · rcases List.mem_cons.mp hx with rfl | hx
      · rfl
      · exact hs x (List.mem_of_mem_drop hx)
  cases h with
  | plain => exact .refl
  | stacked => exact hinsert _
  | attached => exact Steady.refl.with_slots _ _
  | separate hov _ run => exact run.steady fun s log t => hv _ s log t hov
  | stackedSeparate hov _ _ run =>
    exact (hinsert _).trans (run.steady fun s log t => hv _ s log t hov)

namespace Closed

variable {scope : Scope} {L : Pattern → Prop} {C : Attempt → List Move → Attempt → Prop}
  {s t : Attempt} {log : List Move}

theorem toChains (hC : Closed scope L C) : Chains C where
  refl := hC.refl
  trans := hC.trans
  aim s optionOnly := hC.marks s s.argv.dashes optionOnly

section Lines

variable {R : Pattern → Step} {line : List Pattern}
  (hC : Closed scope L C)
  (hR : ∀ p ∈ line, ∀ s log b t, R p s log b t → C s log t ∧ Steady s t)
include hC

theorem untouched (h : Steady s t) (ht : t.argv.tokens = s.argv.tokens) :
    C s [] ⟨s.slots, t.argv⟩ := by
  have he : t.argv =
      { s.argv with dashes := t.argv.dashes, optionOnly := t.argv.optionOnly } := by
    simp only [← ht, ← h.style_eq, ← h.autoDashes_eq]
  rw [he]
  exact hC.marks s t.argv.dashes t.argv.optionOnly

theorem restored (h : Steady s t) : C s [] (s.restored t) :=
  hC.untouched h.restored rfl

theorem steadyChains : Chains fun s log t => C s log t ∧ Steady s t where
  refl s := ⟨hC.refl s, .refl⟩
  trans h h' := ⟨hC.trans h.1 h'.1, h.2.trans h'.2⟩
  aim s optionOnly := ⟨hC.toChains.aim s optionOnly, ⟨rfl, rfl, fun h => ⟨h, rfl⟩⟩⟩

include hR

theorem scan {xs : List Scanned} (h : Scan R line s log xs t) : C s log t ∧ Steady s t :=
  hC.steadyChains.scan hR h

theorem lineRun {repeats b : Bool}
    (hL : ∀ q, Reaches scope (.group .required line repeats) q → L q)
    (h : LineRun R line s log b t) : C s log t ∧ Steady s t := by
  cases h with
  | matched scan => exact hC.scan hR scan
  | lent scan _ hl =>
    obtain ⟨hs, hst⟩ := hC.scan hR scan
    refine ⟨by simpa using hC.trans hs (hC.lend hL hl), hst.trans ?_⟩
    cases hl
    exact Steady.refl.with_slots _ _
  | failed scan =>
    obtain ⟨-, hst⟩ := hC.scan hR scan
    exact ⟨hC.restored hst, hst.restored⟩

theorem onceRun {kind : GroupKind} {repeats b : Bool}
    (hL : ∀ q, Reaches scope (.group kind line repeats) q → L q)
    (h : OnceRun R line kind s log b t) : C s log t ∧ Steady s t := by
  cases h with
  | required run => exact hC.lineRun hR hL run
  | optional scan => exact hC.scan hR scan

theorem eitherRun {ps : List Pattern} {b : Bool} (h : EitherRun R ps s log b t)
    (hps : ∀ p ∈ ps, p ∈ line) : C s log t ∧ Steady s t := by
  induction h with
  | nil => exact ⟨hC.refl _, .refl⟩
  | hit run => exact hR _ (hps _ List.mem_cons_self) _ _ _ _ run
  | miss run _ ih =>
    rw [List.forall_mem_cons] at hps
    obtain ⟨-, hs⟩ := hR _ hps.1 _ _ _ _ run
    obtain ⟨hrest, hs'⟩ := ih hps.2
    exact ⟨by simpa using hC.trans (hC.restored hs) hrest, hs.restored.trans hs'⟩

theorem entriesRun {ps : List Pattern} (h : EntriesRun R ps s log t)
    (hps : ∀ p ∈ ps, p ∈ line) : C s log t ∧ Steady s t :=
  hC.steadyChains.entries hR h hps

end Lines

section Repetition

variable {once : Step} {leaves : List Recorded} (hC : Closed scope L C)
  (hl : ∀ r ∈ leaves, ∃ q, L q ∧ q.ownRecord? = some r)

theorem steady_of_repeatPasses (ho : ∀ s log b t, once s log b t → C s log t ∧ Steady s t)
    {history history' : List Slots} (h : RepeatPasses once leaves history s log history' t) :
    Steady s t := by
  have step {s t log b} (run : once (s.cleared leaves) log b t) : Steady s t :=
    (ho _ _ _ _ run).2.with_slots _ _
  induction h with
  | empty => exact .refl
  | failed _ run | still _ run => exact step run
  | again _ run _ _ ih => exact (step run).trans ih

include hC hl

theorem repeatRun {R : Pattern → Step} {line : List Pattern} {kind : GroupKind} {b : Bool}
    (ho : ∀ s log b t, OnceRun R line kind s log b t → C s log t ∧ Steady s t)
    (h : RepeatRun (OnceRun R line kind) leaves s log b t) : C s log t ∧ Steady s t := by
  cases h with
  | none passes =>
    have hs := steady_of_repeatPasses ho passes
    obtain ⟨hu, -⟩ := (RepeatRun.none passes).undone
    rw [hu.log_eq]
    exact ⟨hC.untouched hs hu.tokens_eq, hs.with_slots _ _⟩
  | some passes hh =>
    have hs := steady_of_repeatPasses ho passes
    refine ⟨hC.repeats hl (fun _ _ _ _ h => (ho _ _ _ _ h).1) ?_ passes hh, hs.with_slots _ _⟩
    intro _ _ _ h
    exact h.undone.1

end Repetition

theorem positionalRuns {p : Positional} {counting b : Bool} (hC : Closed scope L C)
    (hp : L p.pattern) (h : p.Runs counting s log b t) : C s log t ∧ Steady s t := by
  have hs : Steady s { s with argv := s.argv.positional.1 } := by
    refine ⟨?_, ?_, fun hs => ?_⟩
    · rw [Argv.positional_eq]
    · rw [Argv.positional_eq]
    · rw [hs.positional_eq]
      exact ⟨hs, rfl⟩
  cases h with
  | filled | barred => exact ⟨hC.refl _, .refl⟩
  | refused => exact ⟨hC.untouched hs s.argv.positional_tokens, hs⟩
  | taken hw ho hpl ht ha =>
    refine ⟨hC.take hp hw ho hpl ht ha, hs.trans ⟨rfl, rfl, fun hu => ⟨fun x hx => ?_, rfl⟩⟩⟩
    exact hu x (List.mem_of_mem_eraseIdx hx)

theorem optionRuns {o : OptionAtom} {value : Pattern → Step} {counting b : Bool}
    (hC : Closed scope L C) (ho : L (.option o))
    (hv : ∀ v s log t, o.value = some v → value v s log true t → C s log t ∧ Steady s t)
    (hrun : ∃ n, value = Run scope n counting) (h : o.Runs value counting s log b t) :
    C s log t ∧ Steady s t := by
  cases h with
  | filled | absent => exact ⟨hC.refl _, .refl⟩
  | found hw hf hc =>
    refine ⟨hC.option ho hw hf (fun v s log t hov run => (hv v s log t hov run).1) hrun hc, ?_⟩
    have hsteady := hc.steady fun v s log t hov run => (hv v s log t hov run).2
    obtain ⟨found, -, he⟩ := Option.map_eq_some_iff.mp hf
    obtain ⟨-, rfl⟩ := Prod.mk.inj he
    have hleft : Steady s ⟨s.slots.modify o.slot (Slot.hit counting), s.argv.remove found.index⟩ :=
      ⟨rfl, rfl, fun hu => ⟨fun x hx => hu x (List.mem_of_mem_eraseIdx hx), rfl⟩⟩
    exact hleft.trans hsteady

/-- What holds of the steps that fill the leaves in reach of a pattern holds of its
runs. -/
theorem run_steady (hC : Closed scope L C) {n : Nat} {counting b : Bool} {p : Pattern}
    (hL : ∀ q, Reaches scope p q → L q) (h : Run scope n counting p s log b t) :
    C s log t ∧ Steady s t := by
  induction n generalizing counting p s log b t with
  | zero => exact h.elim
  | succ n ih =>
    cases p with
    | option o =>
      exact hC.optionRuns (hL _ .refl)
        (fun v _ _ _ hv run => ih (fun q hq => hL q (.value hv hq)) run) ⟨n, rfl⟩ h
    | command leaf => exact hC.positionalRuns (hL _ .refl) h
    | argument leaf => exact hC.positionalRuns (hL _ .refl) h
    | group kind children repeats =>
      have hline : ∀ c ∈ children, ∀ q, Reaches scope c q → L q :=
        fun c hc q hq => hL q (.child hc hq)
      have once {s log b t} (h : OnceRun (Run scope n false) children kind s log b t) :
          C s log t ∧ Steady s t :=
        hC.onceRun (fun c hc _ _ _ _ run => ih (hline c hc) run) hL h
      simp only [Run] at h
      split at h
      next =>
        obtain ⟨leaves, matched, hl, h, -⟩ := h
        refine hC.repeatRun ?_ (fun _ _ _ _ => once) h
        intro r hr
        obtain ⟨q, hq, hr⟩ := (Pattern.mem_recorded_iff hl).mp hr
        exact ⟨q, hL q hq, hr⟩
      next => exact once h
    | either branches =>
      exact hC.eitherRun (fun c hc _ _ _ _ run => ih (fun q hq => hL q (.branch hc hq)) run) h
        fun _ => id
    | shortcut sc =>
      exact hC.entriesRun (fun c hc _ _ _ _ run => ih (fun q hq => hL q (.entry hc hq)) run) h.1
        fun _ => id

theorem run (hC : Closed scope L C) {n : Nat} {counting b : Bool} {p : Pattern}
    (hL : ∀ q, Reaches scope p q → L q) (h : Run scope n counting p s log b t) : C s log t :=
  (hC.run_steady hL h).1

end Closed

end Synopsis
