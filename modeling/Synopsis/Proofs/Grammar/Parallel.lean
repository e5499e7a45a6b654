import Synopsis.Grammar.Match
import Synopsis.Proofs.Matcher.ParallelPatterns

/-! # Results in step

Two streams from which each usage gets the same have the same result, or none. So do
streams that each usage matches in step.
-/

namespace Synopsis

variable {σ : OptionStyle} {E : List Token → List Token → Prop} {I : Slots → Prop} {a b : Argv}

namespace Argv.Twin

theorem isExhausted_eq (hE : Akin E) (h : a.Twin σ E b) : b.isExhausted = a.isExhausted := by
  have hfronts := hE.fronts h.tokens
  unfold isExhausted
  rw [h.autoDashes]
  generalize a.tokens = ts, b.tokens = us at hfronts
  cases hfronts with
  | same => rfl
  | @token t ts us ht hrest =>
    have hempty := hE.emptyTogether ts us hrest
    cases ts <;> cases us <;> simp_all
  | @option t u ts us ht hu =>
    cases ts <;> cases us <;> simp [ht.isDoubleDash_eq, hu.isDoubleDash_eq]

theorem checkDash_dashes_eq (hE : Akin E) (h : a.Twin σ E b) : b.checkDash.dashes = a.checkDash.dashes := by
  unfold checkDash
  rw [(hE.fronts h.tokens).dashes_eq]
  split
  · rfl
  · exact h.dashes

end Argv.Twin

theorem Pattern.isSome_recorded?_fuel {scope : Scope} (hg : scope.Grounded) (p : Pattern) (a : Argv) :
    (p.recorded? scope (scope.fuel p a)).isSome := by
  obtain ⟨rs, hrs⟩ := Option.isSome_iff_exists.mp (recorded?_isSome hg p)
  have hfuel : scope.depth p ≤ scope.fuel p a := Nat.le_mul_of_pos_right _ (Nat.succ_pos _)
  rw [recorded?_mono hrs hfuel]
  rfl

/-- The slots that a match leaves if it takes all arguments, and whether the end of the options was met. -/
def verdict? : EStateM.Result Stop Attempt Bool → Option (Slots × Bool)
  | .ok true t => if t.argv.isExhausted then some (t.slots, t.argv.checkDash.dashes) else none
  | _ => none

theorem verdict?_eq_some_iff {r : EStateM.Result Stop Attempt Bool} {v : Slots × Bool} :
    verdict? r = some v ↔
      ∃ t, r = .ok true t ∧ t.argv.isExhausted = true ∧ (t.slots, t.argv.checkDash.dashes) = v := by
  cases r with
  | error => simp [verdict?]
  | ok b t => cases b <;> simp [verdict?]

/-- Matches that do not run out of fuel, with the same verdict. -/
structure Concurs (r r' : EStateM.Result Stop Attempt Bool) : Prop where
  verdict : verdict? r' = verdict? r
  left : ∀ t, r ≠ .error .outOfFuel t
  right : ∀ t, r' ≠ .error .outOfFuel t

namespace Concurs

theorem ok {x y : Bool} {s t : Attempt} (h : verdict? (.ok y t) = verdict? (.ok x s)) :
    Concurs (.ok x s) (.ok y t) :=
  ⟨h, by simp, by simp⟩

theorem of_parallel {s t : Attempt} {r r' : EStateM.Result Stop Attempt Bool} (hE : Akin E)
    (h : Meets BothFail (Abreast σ E I s t) r r') : Concurs r r' := by
  cases h with
  | @ok x y s t hst =>
    obtain ⟨rfl, hu, -⟩ := hst
    refine .ok ?_
    cases y with
    | false => rfl
    | true => simp only [verdict?, hu.argv.isExhausted_eq hE, hu.argv.checkDash_dashes_eq hE, hu.slots]
  | stop hstop =>
    refine ⟨rfl, fun t h => ?_, fun t h => ?_⟩
    · exact hstop.1 (EStateM.Result.error.inj h).1
    · exact hstop.2 (EStateM.Result.error.inj h).1

end Concurs

namespace Grammar

variable {g : Grammar} {us : List Pattern} {i : Nat} {e : MatchError}

/-- The first usage with a verdict is reported. -/
theorem exists_matchFrom_cons (u : Pattern) (us : List Pattern) (e : MatchError)
    (h : ∀ t, g.matchAlternative i ⟨.blank g.slotCount, a⟩ ≠ .error .outOfFuel t) :
    ∃ e', (g.matchFrom a e i (u :: us)).toOption =
      (verdict? (g.matchAlternative i ⟨.blank g.slotCount, a⟩)).elim (g.matchFrom a e' (i + 1) us).toOption
        fun v => some (g.assemble i v.1 v.2) := by
  simp only [matchFrom]
  cases hr : g.matchAlternative i ⟨.blank g.slotCount, a⟩ with
  | ok b t =>
    refine ⟨e, ?_⟩
    cases b with
    | false => rfl
    | true =>
      simp only [Bool.true_and, verdict?]
      split <;> rfl
  | error d t =>
    cases d with
    | outOfFuel => exact absurd hr (h t)
    | error d => exact ⟨d, rfl⟩

/-- Errors may differ, since they quote the arguments. -/
theorem matchFrom_congr (h : ∀ i, Concurs (g.matchAlternative i ⟨.blank g.slotCount, a⟩)
    (g.matchAlternative i ⟨.blank g.slotCount, b⟩)) (us : List Pattern) (i : Nat) (e e' : MatchError) :
    (g.matchFrom b e' i us).toOption = (g.matchFrom a e i us).toOption := by
  induction us generalizing i e e' with
  | nil => rfl
  | cons u us ih =>
    obtain ⟨hverdict, hleft, hright⟩ := h i
    obtain ⟨d, hd⟩ := exists_matchFrom_cons u us e hleft
    obtain ⟨d', hd'⟩ := exists_matchFrom_cons u us e' hright
    rw [hd, hd', hverdict, ih (i + 1) d d']

variable (hE : Akin E) (hI : I (.blank g.slotCount)) (hg : g.scope.Grounded)
include hE hI hg

theorem concurs_of_follows (hf : ∀ u ∈ g.usages[i]?, ∀ n, Follows g.scope σ E I n u) (h : a.Twin σ E b) :
    Concurs (g.matchAlternative i ⟨.blank g.slotCount, a⟩)
      (g.matchAlternative i ⟨.blank g.slotCount, b⟩) := by
  have hs : Twins σ E I ⟨.blank g.slotCount, a⟩ ⟨.blank g.slotCount, b⟩ := ⟨rfl, hI, h⟩
  unfold matchAlternative
  cases hu : g.usages[i]? with
  | none => exact .ok rfl
  | some u =>
    exact .of_parallel hE ((hf u hu _).parallel hE (Pattern.isSome_recorded?_fuel hg u a)
      (Pattern.isSome_recorded?_fuel hg u b) _ _ hs)

theorem matchFrom_parallel (hf : ∀ u ∈ g.usages, ∀ n, Follows g.scope σ E I n u) (h : a.Twin σ E b)
    (us : List Pattern) (i : Nat) (e e' : MatchError) :
    (g.matchFrom b e' i us).toOption = (g.matchFrom a e i us).toOption :=
  matchFrom_congr (fun _ => concurs_of_follows hE hI hg (fun u hu => hf u (List.mem_of_getElem? hu)) h) us i e e'

end Grammar

end Synopsis
