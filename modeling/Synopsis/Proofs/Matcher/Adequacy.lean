import Synopsis.Proofs.Matcher.Steps

/-! # Every answer has a run

`run_of_matchPattern`: whatever a match answers, there is a `Run` to that answer
and to the state that the match leaves. What holds of all runs holds of all
matches that come to an answer.
-/

namespace Synopsis

variable {s s' : Attempt} {b : Bool}

theorem Positional.runs_of_take {p : Positional} {counting : Bool}
    (hw : (!counting && p.isFilled s.slots) = false) (ho : s.argv.optionOnly = false)
    (h : p.take counting s = .ok b s') : ∃ log, p.Runs counting s log b s' := by
  simp only [take, MatchM.bind_eq_ok, MatchM.argv_eq_ok, MatchM.setArgv_eq_ok,
    Argv.positional_tokens] at h
  obtain ⟨_, _, ⟨rfl, rfl⟩, _, _, rfl, h⟩ := h
  cases hp : s.argv.positional.2 with
  | none =>
    obtain ⟨rfl, rfl⟩ := by simpa only [hp, MatchM.pure_eq_ok] using h
    exact ⟨[], .refused hw ho fun _ h => by simp [hp] at h⟩
  | some place =>
    simp only [hp] at h
    cases ht : s.argv.tokens[place]? with
    | none =>
      obtain ⟨rfl, rfl⟩ := by simpa only [ht, MatchM.pure_eq_ok] using h
      refine ⟨[], .refused hw ho ?_⟩
      intro _ h₁ _ h₂
      cases hp.symm.trans h₁
      cases ht.symm.trans h₂
    | some token =>
      simp only [ht] at h
      split at h
      next ha =>
        obtain ⟨rfl, rfl⟩ := MatchM.pure_eq_ok.mp h
        refine ⟨[], .refused hw ho ?_⟩
        intro _ h₁ _ h₂
        cases hp.symm.trans h₁
        cases ht.symm.trans h₂
        simpa using ha
      next ha =>
        simp only [MatchM.bind_eq_ok, MatchM.modifySlot_eq_ok, MatchM.setArgv_eq_ok,
          MatchM.pure_eq_ok] at h
        obtain ⟨_, _, rfl, _, _, rfl, rfl, rfl⟩ := h
        exact ⟨_, .taken hw ho hp ht (by simpa using ha)⟩

theorem Positional.runs_of_run {p : Positional} {counting : Bool}
    (h : p.run counting s = .ok b s') : ∃ log, p.Runs counting s log b s' := by
  simp only [run, MatchM.bind_eq_ok, MatchM.slots_eq_ok] at h
  obtain ⟨_, _, ⟨rfl, rfl⟩, h⟩ := h
  split at h
  next hf =>
    obtain ⟨rfl, rfl⟩ := MatchM.pure_eq_ok.mp h
    exact ⟨[], .filled hf⟩
  next hw =>
    simp only [MatchM.bind_eq_ok, MatchM.argv_eq_ok] at h
    obtain ⟨_, _, ⟨rfl, rfl⟩, h⟩ := h
    split at h
    next ho =>
      obtain ⟨rfl, rfl⟩ := MatchM.pure_eq_ok.mp h
      exact ⟨[], .barred (by simpa using hw) ho⟩
    next ho => exact runs_of_take (by simpa using hw) (by simpa using ho) h

theorem Lending.borrows_of_allM {ps : List Positional}
    (h : ps.allM (·.run false) s = .ok true s') : Borrows ps s s' := by
  induction ps generalizing s with
  | nil =>
    obtain ⟨-, rfl⟩ := MatchM.pure_eq_ok.mp h
    exact .nil
  | cons p ps ih =>
    simp only [List.allM, MatchM.bind_eq_ok] at h
    obtain ⟨c, t, hp, h⟩ := h
    cases c with
    | false => simp at h
    | true =>
      obtain ⟨log, hr⟩ := Positional.runs_of_run hp
      exact .cons hr (ih h)

/-- A line that cannot lend is left as it was. -/
theorem Lending.lends_of_lend {line : List Pattern} (h : lend line s = .ok b s') :
    (b = true ∧ Lends line s s') ∨ (b = false ∧ s' = s) := by
  simp only [lend, MatchM.bind_eq_ok, MatchM.slots_eq_ok] at h
  obtain ⟨_, _, ⟨rfl, rfl⟩, h⟩ := h
  cases hl : loan? s.slots line with
  | none => 
    simp only [hl, MatchM.pure_eq_ok] at h
    exact .inr ⟨h.1.symm, h.2.symm⟩
  | some loan =>
    simp only [hl] at h
    cases ht : loan.texts? s.slots with
    | none =>
      simp only [ht, MatchM.pure_eq_ok] at h
      exact .inr ⟨h.1.symm, h.2.symm⟩
    | some given =>
      obtain ⟨texts, left⟩ := given
      simp only [ht, MatchM.bind_eq_ok, MatchM.setSlots_eq_ok, MatchM.argv_eq_ok,
        MatchM.onStream_eq_ok] at h
      obtain ⟨_, _, rfl, _, _, ⟨rfl, rfl⟩, ⟨c, _⟩, _, ⟨t, hb, rfl, rfl⟩, h⟩ := h
      cases c with
      | false =>
        simp at h
        exact .inr ⟨h.2, h.1.symm⟩
      | true =>
        simp at h
        obtain ⟨rfl, rfl⟩ := h
        exact .inl ⟨rfl, .intro hl ht (borrows_of_allM hb)⟩


section Lines

variable {run : Pattern → MatchM Bool} {R : Pattern → Step}
  (hR : ∀ p s b s', run p s = .ok b s' → ∃ log, R p s log b s')
include hR

theorem pass_of_scanPass {place : Nat} {last last' : Option Nat} {xs ys : List Scanned}
    (h : scanPass run place last xs s = .ok (last', ys) s') :
    ∃ log, Pass R place last xs s log last' ys s' := by
  induction xs generalizing place last s last' ys with
  | nil =>
    simp only [scanPass, MatchM.pure_eq_ok, Prod.mk.injEq] at h
    obtain ⟨⟨rfl, rfl⟩, rfl⟩ := h
    exact ⟨_, .nil⟩
  | cons x xs ih =>
    simp only [scanPass, MatchM.bind_eq_ok, MatchM.argv_eq_ok] at h
    obtain ⟨_, _, ⟨rfl, rfl⟩, h⟩ := h
    split at h
    next he =>
      simp only [MatchM.pure_eq_ok, Prod.mk.injEq] at h
      obtain ⟨⟨rfl, rfl⟩, rfl⟩ := h
      exact ⟨_, .empty he⟩
    next hn =>
      simp only [MatchM.bind_eq_ok, MatchM.setArgv_eq_ok] at h
      obtain ⟨_, _, rfl, c, t, hp, h⟩ := h
      obtain ⟨log, hp⟩ := hR _ _ _ _ hp
      simp only [Bool.not_eq_true] at hn
      cases c with
      | true =>
        simp only [if_true, MatchM.bind_eq_ok, MatchM.pure_eq_ok, Prod.mk.injEq] at h
        obtain ⟨⟨_, zs⟩, _, hrest, ⟨rfl, rfl⟩, rfl⟩ := h
        obtain ⟨log', hrest⟩ := ih hrest
        exact ⟨_, .hit hn hp hrest⟩
      | false =>
        simp only [Bool.false_eq_true, if_false, MatchM.bind_eq_ok, MatchM.pure_eq_ok,
          Prod.mk.injEq] at h
        obtain ⟨⟨_, zs⟩, _, hrest, ⟨rfl, rfl⟩, rfl⟩ := h
        obtain ⟨log', hrest⟩ := ih hrest
        exact ⟨_, .miss hn hp hrest⟩

theorem passes_of_scanPasses {n : Nat} {last : Option Nat} {xs ys : List Scanned}
    (h : scanPasses run n last xs s = .ok ys s') : ∃ log, Passes R last xs s log ys s' := by
  induction n generalizing last xs s with
  | zero => simp [scanPasses] at h
  | succ n ih =>
    simp only [scanPasses, MatchM.bind_eq_ok, MatchM.argv_eq_ok] at h
    obtain ⟨_, _, ⟨rfl, rfl⟩, h⟩ := h
    split at h
    next he =>
      obtain ⟨rfl, rfl⟩ := MatchM.pure_eq_ok.mp h
      exact ⟨_, .empty he⟩
    next hn =>
      simp only [MatchM.bind_eq_ok, MatchM.argv_eq_ok] at h
      obtain ⟨⟨last', zs⟩, t, hpass, _, _, ⟨rfl, rfl⟩, h⟩ := h
      obtain ⟨log, hpass⟩ := pass_of_scanPass hR hpass
      simp only [Bool.not_eq_true] at hn
      split at h
      next heq =>
        obtain ⟨rfl, rfl⟩ := MatchM.pure_eq_ok.mp h
        exact ⟨_, .still hn hpass heq⟩
      next hne =>
        obtain ⟨log', hrest⟩ := ih h
        exact ⟨_, .again hn hpass hne hrest⟩

theorem scan_of_scanLine {line : List Pattern} {xs : List Scanned}
    (h : scanLine run line s = .ok xs s') : ∃ log, Scan R line s log xs s' := by
  simp only [scanLine, MatchM.bind_eq_ok, MatchM.argv_eq_ok] at h
  obtain ⟨_, _, ⟨rfl, rfl⟩, h⟩ := h
  exact passes_of_scanPasses hR h

theorem lineRun_of_matchLine {line : List Pattern} (h : matchLine run line s = .ok b s') :
    ∃ log, LineRun R line s log b s' := by
  -- A scan that took everything, or else a loan.
  have inner {c t} (h : (do
      if (← scanLine run line).all (·.matched) then return true
      Lending.lend line : MatchM Bool) s = .ok c t) :
      (c = true ∧ ∃ log, LineRun R line s log true t) ∨
        (c = false ∧ LineRun R line s [] false (s.restored t)) := by
    simp only [MatchM.bind_eq_ok] at h
    obtain ⟨xs, u, hscan, h⟩ := h
    obtain ⟨log, hscan⟩ := scan_of_scanLine hR hscan
    split at h
    next ha =>
      obtain ⟨rfl, rfl⟩ := MatchM.pure_eq_ok.mp h
      exact .inl ⟨rfl, _, .matched hscan ha⟩
    next ha =>
      simp only [Bool.not_eq_true] at ha
      rcases Lending.lends_of_lend h with ⟨rfl, hl⟩ | ⟨rfl, rfl⟩
      · exact .inl ⟨rfl, _, .lent hscan ha hl⟩
      · exact .inr ⟨rfl, .failed hscan ha⟩
  rw [matchLine, MatchM.restoring_eq_ok] at h
  rcases h with ⟨rfl, h⟩ | ⟨rfl, t, h, rfl⟩
  · simpa using inner h
  · exact ⟨[], by simpa using inner h⟩

theorem onceRun_of_matchOnce {kind : GroupKind} {line : List Pattern}
    (h : matchOnce run kind line s = .ok b s') : ∃ log, OnceRun R line kind s log b s' := by
  cases kind with
  | required =>
    obtain ⟨log, h⟩ := lineRun_of_matchLine hR h
    exact ⟨_, .required h⟩
  | optional =>
    simp only [matchOnce, MatchM.bind_eq_ok, MatchM.pure_eq_ok] at h
    obtain ⟨xs, _, h, rfl, rfl⟩ := h
    obtain ⟨log, h⟩ := scan_of_scanLine hR h
    exact ⟨_, .optional h⟩

theorem eitherRun_of_matchEither {ps : List Pattern} (h : matchEither run ps s = .ok b s') :
    ∃ log, EitherRun R ps s log b s' := by
  induction ps generalizing s with
  | nil =>
    obtain ⟨rfl, rfl⟩ := MatchM.pure_eq_ok.mp h
    exact ⟨_, .nil⟩
  | cons p ps ih =>
    simp only [matchEither, MatchM.bind_eq_ok, MatchM.restoring_eq_ok] at h
    obtain ⟨c, t, ⟨rfl, hp⟩ | ⟨rfl, u, hp, rfl⟩, h⟩ := h
    · obtain ⟨rfl, rfl⟩ := MatchM.pure_eq_ok.mp h
      obtain ⟨log, hp⟩ := hR _ _ _ _ hp
      exact ⟨_, .hit hp⟩
    · obtain ⟨_, hp⟩ := hR _ _ _ _ hp
      obtain ⟨log, h⟩ := ih h
      exact ⟨_, .miss hp h⟩

theorem entriesRun_of_matchEntries {ps : List Pattern} {x : Unit}
    (h : matchEntries run ps s = .ok x s') : ∃ log, EntriesRun R ps s log s' := by
  induction ps generalizing s with
  | nil =>
    obtain ⟨-, rfl⟩ := MatchM.pure_eq_ok.mp h
    exact ⟨_, .nil⟩
  | cons p ps ih =>
    simp only [matchEntries, MatchM.bind_eq_ok, MatchM.argv_eq_ok] at h
    obtain ⟨_, _, ⟨rfl, rfl⟩, h⟩ := h
    split at h
    next he =>
      obtain ⟨-, rfl⟩ := MatchM.pure_eq_ok.mp h
      exact ⟨_, .empty he⟩
    next hn =>
      simp only [MatchM.bind_eq_ok] at h
      obtain ⟨c, t, hp, h⟩ := h
      obtain ⟨log, hp⟩ := hR _ _ _ _ hp
      obtain ⟨log', h⟩ := ih h
      exact ⟨_, .cons (by simpa using hn) hp h⟩

end Lines

section Repetition

variable {m : MatchM Bool} {once : Step} {leaves : List Recorded}
  (hm : ∀ s b s', m s = .ok b s' → ∃ log, once s log b s')
include hm

theorem repeatPasses_of_ok {n : Nat} {history history' : List Slots}
    (h : Synopsis.repeatPasses m leaves n history s = .ok history' s') :
    ∃ log, RepeatPasses once leaves history s log history' s' := by
  induction n generalizing history s with
  | zero => simp [Synopsis.repeatPasses] at h
  | succ n ih =>
    simp only [Synopsis.repeatPasses, MatchM.bind_eq_ok, MatchM.argv_eq_ok] at h
    obtain ⟨_, _, ⟨rfl, rfl⟩, h⟩ := h
    split at h
    next he =>
      obtain ⟨rfl, rfl⟩ := MatchM.pure_eq_ok.mp h
      exact ⟨_, .empty he⟩
    next hn =>
      simp only [Bool.not_eq_true] at hn
      simp only [MatchM.bind_eq_ok, MatchM.slots_eq_ok, MatchM.setSlots_eq_ok] at h
      obtain ⟨_, _, ⟨rfl, rfl⟩, _, _, rfl, c, t, hp, h⟩ := h
      obtain ⟨log, hp⟩ := hm _ _ _ hp
      split at h
      next hc =>
        obtain ⟨rfl, rfl⟩ := MatchM.pure_eq_ok.mp h
        obtain rfl : c = false := by simpa using hc
        exact ⟨_, .failed hn hp⟩
      next hc =>
        obtain rfl : c = true := by simpa using hc
        simp only [MatchM.bind_eq_ok, MatchM.slots_eq_ok, MatchM.argv_eq_ok] at h
        obtain ⟨_, _, ⟨rfl, rfl⟩, _, _, ⟨rfl, rfl⟩, h⟩ := h
        split at h
        next heq =>
          obtain ⟨rfl, rfl⟩ := MatchM.pure_eq_ok.mp h
          exact ⟨_, .still hn hp heq⟩
        next hne =>
          obtain ⟨log', h⟩ := ih h
          exact ⟨_, .again hn hp hne h⟩

theorem repeatRun_of_matchRepeatedly (h : matchRepeatedly m leaves s = .ok b s') :
    ∃ log, RepeatRun once leaves s log b s' := by
  simp only [matchRepeatedly, MatchM.bind_eq_ok, MatchM.slots_eq_ok, MatchM.argv_eq_ok] at h
  obtain ⟨_, _, ⟨rfl, rfl⟩, _, _, ⟨rfl, rfl⟩, history, t, hp, h⟩ := h
  obtain ⟨log, hp⟩ := repeatPasses_of_ok hm hp
  split at h
  next he =>
    obtain rfl : history = [] := by simpa using he
    simp only [MatchM.bind_eq_ok, MatchM.setSlots_eq_ok, MatchM.pure_eq_ok] at h
    obtain ⟨_, _, rfl, rfl, rfl⟩ := h
    exact ⟨_, .none hp⟩
  next he =>
    simp only [MatchM.bind_eq_ok, MatchM.slots_eq_ok, MatchM.setSlots_eq_ok,
      MatchM.pure_eq_ok] at h
    obtain ⟨_, _, ⟨rfl, rfl⟩, _, _, rfl, rfl, rfl⟩ := h
    exact ⟨_, .some hp (by simpa using he)⟩

end Repetition

section Options

variable {o : OptionAtom} {value : Pattern → MatchM Bool} {R : Pattern → Step}
  (hR : ∀ p s b s', value p s = .ok b s' → ∃ log, R p s log b s')
include hR

namespace OptionOf

theorem takesSeparate_of_ok {p : Pattern} {place : Nat}
    (h : o.takeSeparate p.arity (value p) place s = .ok b s') :
    b = true ∧ ∃ log, TakesSeparate (R p) p.arity place s log s' := by
  simp only [takeSeparate, MatchM.bind_eq_ok, MatchM.argv_eq_ok] at h
  obtain ⟨_, _, ⟨rfl, rfl⟩, h⟩ := h
  split at h
  next => simp [MatchM.bind_eq_ok] at h
  next hg =>
    simp only [MatchM.bind_eq_ok, MatchM.onStream_eq_ok] at h
    obtain ⟨⟨c, left⟩, _, ⟨t, hv, rfl, rfl⟩, h⟩ := h
    cases c with
    | false => simp [MatchM.bind_eq_ok] at h
    | true =>
      simp only [Bool.not_true, Bool.false_eq_true, if_false, MatchM.bind_eq_ok,
        MatchM.setArgv_eq_ok, MatchM.pure_eq_ok] at h
      obtain ⟨_, _, rfl, rfl, rfl⟩ := h
      obtain ⟨log, hv⟩ := hR _ _ _ _ hv
      exact ⟨rfl, _, .intro (by simpa only [Bool.not_eq_true] using hg) hv⟩

theorem completes_of_takeFound {found : Argv.Found} (h : o.takeFound value found s = .ok b s') :
    b = true ∧ ∃ log, Completes o R found s log s' := by
  simp only [takeFound, MatchM.bind_eq_ok, MatchM.argv_eq_ok] at h
  obtain ⟨_, _, ⟨rfl, rfl⟩, h⟩ := h
  cases hv : o.value with
  | none =>
    cases hr : found.attached with
    | none =>
      simp only [hv, hr, MatchM.pure_eq_ok] at h
      obtain ⟨rfl, rfl⟩ := h
      exact ⟨rfl, _, .plain hv hr⟩
    | some rest =>
      simp only [hv, hr] at h
      split at h
      next hs =>
        simp only [MatchM.bind_eq_ok, MatchM.setArgv_eq_ok, MatchM.pure_eq_ok] at h
        obtain ⟨_, _, rfl, rfl, rfl⟩ := h
        exact ⟨rfl, _, .stacked hv hr hs⟩
      next => simp at h
  | some p =>
    cases hr : found.attached with
    | none =>
      simp only [hv, hr] at h
      obtain ⟨rfl, log, h⟩ := takesSeparate_of_ok hR h
      exact ⟨rfl, _, .separate hv hr h⟩
    | some rest =>
      simp only [hv, hr] at h
      split at h
      next hs =>
        split at h
        next => simp [MatchM.bind_eq_ok] at h
        next hc =>
          simp only [MatchM.bind_eq_ok, MatchM.setArgv_eq_ok] at h
          obtain ⟨_, _, rfl, h⟩ := h
          obtain ⟨rfl, log, h⟩ := takesSeparate_of_ok hR h
          refine ⟨rfl, _, .stackedSeparate hv hr ?_ h⟩
          simp_all [isShort]
      next hs =>
        simp only [takeAttached, MatchM.bind_eq_ok, MatchM.argv_eq_ok,
          MatchM.onStream_eq_ok] at h
        obtain ⟨_, _, ⟨rfl, rfl⟩, ⟨c, left⟩, _, ⟨t, hp, rfl, rfl⟩, h⟩ := h
        split at h
        next => simp at h
        next hd =>
          obtain ⟨rfl, rfl⟩ := MatchM.pure_eq_ok.mp h
          obtain ⟨log, hp⟩ := hR _ _ _ _ hp
          obtain ⟨rfl, he⟩ : c = true ∧ t.argv.isEmpty = true := by simpa using hd
          simp only [Bool.not_eq_true] at hs
          exact ⟨rfl, _, .attached hv hr hs hp he⟩

theorem runs_of_run {counting : Bool} (h : o.run value counting s = .ok b s') :
    ∃ log, o.Runs R counting s log b s' := by
  simp only [run, MatchM.bind_eq_ok, MatchM.slots_eq_ok] at h
  obtain ⟨_, _, ⟨rfl, rfl⟩, h⟩ := h
  split at h
  next hf =>
    obtain ⟨rfl, rfl⟩ := MatchM.pure_eq_ok.mp h
    exact ⟨_, .filled hf⟩
  next hw =>
    simp only [Bool.not_eq_true] at hw
    simp only [MatchM.bind_eq_ok, MatchM.argv_eq_ok] at h
    obtain ⟨_, _, ⟨rfl, rfl⟩, h⟩ := h
    cases ht : s.argv.takeOption? o.names with
    | none =>
      simp only [ht, MatchM.pure_eq_ok] at h
      obtain ⟨rfl, rfl⟩ := h
      exact ⟨_, .absent hw ht⟩
    | some given =>
      obtain ⟨found, a⟩ := given
      simp only [ht, MatchM.bind_eq_ok, MatchM.setArgv_eq_ok, MatchM.modifySlot_eq_ok] at h
      obtain ⟨_, _, rfl, _, _, rfl, h⟩ := h
      obtain ⟨rfl, log, hc⟩ := completes_of_takeFound hR h
      exact ⟨_, .found hw ht hc⟩

end OptionOf

end Options

/-- Whatever a match answers, there is a run to that answer. -/
theorem run_of_matchPattern {scope : Scope} {n : Nat} {counting : Bool} {p : Pattern}
    (h : matchPattern scope n counting p s = .ok b s') :
    ∃ log, Run scope n counting p s log b s' := by
  induction n generalizing counting p s b s' with
  | zero => simp [matchPattern] at h
  | succ n ih =>
    cases p with
    | option o => exact OptionOf.runs_of_run (fun _ _ _ _ => ih) h
    | command leaf => exact Positional.runs_of_run h
    | argument leaf => exact Positional.runs_of_run h
    | group kind children repeats =>
      simp only [matchPattern] at h
      split at h
      next hc =>
        simp only [Run, if_pos hc]
        cases hl : (Pattern.group kind children repeats).recorded? scope
            (scope.depth (.group kind children repeats)) with
        | none => simp [hl] at h
        | some leaves =>
          simp only [hl, MatchM.bind_eq_ok, MatchM.pure_eq_ok] at h
          obtain ⟨matched, _, h, rfl, rfl⟩ := h
          obtain ⟨log, h⟩ :=
            repeatRun_of_matchRepeatedly (fun _ _ _ => onceRun_of_matchOnce fun _ _ _ _ => ih) h
          exact ⟨log, leaves, matched, rfl, h, rfl⟩
      next hc =>
        simp only [Run, if_neg hc]
        exact onceRun_of_matchOnce (fun _ _ _ _ => ih) h
    | either branches => exact eitherRun_of_matchEither (fun _ _ _ _ => ih) h
    | shortcut sc =>
      simp only [matchPattern, MatchM.bind_eq_ok, MatchM.pure_eq_ok] at h
      obtain ⟨_, _, h, rfl, rfl⟩ := h
      obtain ⟨log, h⟩ := entriesRun_of_matchEntries (fun _ _ _ _ => ih) h
      exact ⟨log, h, rfl⟩

end Synopsis
