import Mathlib.Data.List.Forall2
import Mathlib.Order.Monotone.Basic
import Synopsis.Proofs.Matcher.Coupling

/-! # Lines side by side

A line against the same line with patterns in between that always match and leave the
stream alone. Places shift, but whether a pattern may take a positional does not.
-/

namespace Synopsis

variable {K : Argv.Trait} {exact : Prop} {H : Set Nat} {s s' : Attempt} {run run' : Pattern → MatchM Bool}
  {f : Nat → Nat} {place place' : Nat} {last : Option Nat} {xs xs' : List Scanned} {m m' : MatchM Bool}

/-- A match that always succeeds, and on streams of a kind fills some slots at most. -/
def Idles (K : Argv.Trait) (H : Set Nat) (m : MatchM Bool) : Prop :=
  ∀ s, K.Holds s.argv → ∃ t, m s = .ok true t ∧ Alike K False H s t

/-- The patterns of a line at their places, against those of a line with idle ones in
between. The function says where a place is found in the other line. -/
inductive Aligned (K : Argv.Trait) (exact : Prop) (H : Set Nat) (run run' : Pattern → MatchM Bool) (f : Nat → Nat) :
    Nat → Nat → List Scanned → List Scanned → Prop
  | nil {place place' : Nat} : Aligned K exact H run run' f place place' [] []
  | both {place place' : Nat} {x : Scanned} {xs xs' : List Scanned} (hf : f place = place')
      (hx : Couples K True H (run x.pattern) (run' x.pattern))
      (rest : Aligned K exact H run run' f (place + 1) (place' + 1) xs xs') :
      Aligned K exact H run run' f place place' (x :: xs) (x :: xs')
  | idle {place place' : Nat} {x : Scanned} {xs xs' : List Scanned} (he : ¬ exact)
      (hx : Idles K H (run' x.pattern)) (hm : x.matched = true)
      (rest : Aligned K exact H run run' f place (place' + 1) xs xs') :
      Aligned K exact H run run' f place place' xs (x :: xs')

namespace Aligned

theorem all_matched (h : Aligned K exact H run run' f place place' xs xs') :
    xs'.all (·.matched) = xs.all (·.matched) := by
  induction h with
  | nil => rfl
  | both _ _ _ ih => rw [List.all_cons, List.all_cons, ih]
  | idle _ _ hm _ ih => rw [List.all_cons, hm, Bool.true_and, ih]

end Aligned

theorem scanPass_of_isEmpty (he : s.argv.isEmpty = true) :
    scanPass run place last xs s = .ok (last, xs) s := by
  cases xs with
  | nil => rfl
  | cons x xs =>
    simp only [scanPass, MatchM.argv_bind, he, if_true]
    rfl

/-- What a pass over a line comes to. -/
def SamePass (K : Argv.Trait) (exact : Prop) (H : Set Nat) (run run' : Pattern → MatchM Bool) (f : Nat → Nat)
    (place place' : Nat) (x : Option Nat × List Scanned) (s : Attempt)
    (y : Option Nat × List Scanned) (s' : Attempt) : Prop :=
  y.1 = x.1.map f ∧ Aligned K exact H run run' f place place' x.2 y.2 ∧ Alike K exact H s s'

theorem scanPass_meets (hf : StrictMono f) (hx : Aligned K exact H run run' f place place' xs xs')
    (h : Alike K exact H s s') :
    Meets Eq (SamePass K exact H run run' f place place') (scanPass run place last xs s)
      (scanPass run' place' (last.map f) xs' s') := by
  induction hx generalizing last s s' with
  | nil => exact .ok ⟨rfl, .nil, h⟩
  | @both place place' x xs xs' hplace hx hrest ih =>
    by_cases he : s.argv.isEmpty
    · rw [scanPass_of_isEmpty he, scanPass_of_isEmpty (h.near.isEmpty_eq.trans he)]
      exact .ok ⟨rfl, .both hplace hx hrest, h⟩
    · have haim : (last.map f).any (place' ≤ ·) = last.any (place ≤ ·) := by
        cases last with
        | none => rfl
        | some l => simp [← hplace, hf.le_iff_le]
      simp only [scanPass, MatchM.argv_bind, h.near.isEmpty_eq, he, Bool.false_eq_true, if_false,
        MatchM.setArgv_bind]
      refine (hx _ _ (h.aimed haim)).bind ?_
      rintro b t _ t' ⟨rfl, ht⟩
      have hlast : (if !x.matched && x.pattern.positional?.isSome then some place' else last.map f) =
          (if !x.matched && x.pattern.positional?.isSome then some place else last).map f := by
        split
        · rw [Option.map_some, hplace]
        · rfl
      split
      · rw [hlast]
        refine (ih ht.weaken).bind ?_
        rintro ⟨l, ys⟩ u ⟨_, ys'⟩ u' ⟨rfl, hys, hu⟩
        exact .ok ⟨rfl, .both hplace hx hys, hu⟩
      · refine (ih ht.weaken).bind ?_
        rintro ⟨l, ys⟩ u ⟨_, ys'⟩ u' ⟨rfl, hys, hu⟩
        exact .ok ⟨rfl, .both hplace hx hys, hu⟩
  | @idle place place' x xs xs' hexact hx hm hrest ih =>
    by_cases he : s.argv.isEmpty
    · rw [scanPass_of_isEmpty he, scanPass_of_isEmpty (h.near.isEmpty_eq.trans he)]
      exact .ok ⟨rfl, .idle hexact hx hm hrest, h⟩
    · have hknown : K.Holds (s'.aimed place' (last.map f)).argv :=
        K.of_subset h.known_right (List.Subset.refl _)
      obtain ⟨t, hrun, ht⟩ := hx _ hknown
      have hst : Alike K exact H s t := ⟨h.known, (h.near.trans (.optionOnly _ _)).trans ht.near,
        fun he => absurd he hexact, h.slots.trans ht.slots⟩
      simp only [scanPass, MatchM.argv_bind, h.near.isEmpty_eq, he, Bool.false_eq_true, if_false,
        MatchM.setArgv_bind]
      rw [Attempt.aimed] at hrun
      rw [MatchM.bind_apply_of_ok hrun]
      simp only [if_true, hm, Bool.not_true, Bool.false_and, Bool.false_eq_true, if_false]
      refine (ih hst).bind_right ?_
      rintro ⟨l, ys⟩ u ⟨_, ys'⟩ u' ⟨rfl, hys, hu⟩
      exact .ok ⟨rfl, .idle hexact hx rfl hys, hu⟩

/-- What a scan of a line comes to. -/
def SameScan (K : Argv.Trait) (exact : Prop) (H : Set Nat) (run run' : Pattern → MatchM Bool) (f : Nat → Nat)
    (xs : List Scanned) (s : Attempt) (xs' : List Scanned) (s' : Attempt) : Prop :=
  Aligned K exact H run run' f 0 0 xs xs' ∧ Alike K exact H s s'

theorem scanPasses_meets (hf : StrictMono f) (n : Nat) (hx : Aligned K exact H run run' f 0 0 xs xs')
    (h : Alike K exact H s s') :
    Meets Eq (SameScan K exact H run run' f) (scanPasses run n last xs s)
      (scanPasses run' n (last.map f) xs' s') := by
  induction n generalizing last xs xs' s s' with
  | zero => exact .stop rfl
  | succ n ih =>
    simp only [scanPasses, MatchM.argv_bind, h.near.isEmpty_eq]
    split
    · exact .ok ⟨hx, h⟩
    refine (scanPass_meets hf hx h).bind ?_
    rintro ⟨l, ys⟩ t ⟨_, ys'⟩ t' ⟨rfl, hys, ht⟩
    simp only [MatchM.argv_bind, h.near.tokens, ht.near.tokens]
    split
    · exact .ok ⟨hys, ht⟩
    · exact ih hys ht

theorem scanLine_meets (hf : StrictMono f) {line line' : List Pattern}
    (hx : Aligned K exact H run run' f 0 0 (line.map .start) (line'.map .start))
    (h : Alike K exact H s s') :
    Meets Eq (SameScan K exact H run run' f) (scanLine run line s) (scanLine run' line' s') := by
  simp only [scanLine, MatchM.argv_bind, h.near.size_eq]
  exact scanPasses_meets hf _ hx h

/-! ## Groups -/

/-- A line as `matchLine` has it, with a loan that is made in another way. -/
def matchLineWith (lend : MatchM Bool) (run : Pattern → MatchM Bool) (line : List Pattern) :
    MatchM Bool :=
  MatchM.restoring do
    if (← scanLine run line).all (·.matched) then return true
    lend

theorem matchLine_eq (line : List Pattern) :
    matchLine run line = matchLineWith (Lending.lend line) run line := rfl

theorem matchLineWith_couples (hf : StrictMono f) {line line' : List Pattern} {lend lend' : MatchM Bool}
    (hx : Aligned K exact H run run' f 0 0 (line.map .start) (line'.map .start))
    (hl : Couples K exact H lend lend') :
    Couples K exact H (matchLineWith lend run line) (matchLineWith lend' run' line') := by
  intro s s' h
  refine .restoring h ((scanLine_meets hf hx h).bind ?_)
  rintro ys t ys' t' ⟨hys, ht⟩
  rw [hys.all_matched]
  split
  · exact .ok ⟨rfl, ht⟩
  · exact hl _ _ ht

/-! ## Repetition -/

namespace Recorded

variable {rs rs' : List Recorded} {history history' : List Slots} {slots slots' : Slots}

theorem get_clearAll_eq (rs : List Recorded) (slots : Slots) (i : Nat) : (clearAll rs slots).get i =
    (rs.filter (·.slot = i)).foldl (fun v r => r.cleared v) (slots.get i) := by
  induction rs generalizing slots with
  | nil => rfl
  | cons r rs ih =>
    rw [clearAll, List.foldl_cons]
    refine (ih _).trans ?_
    rw [Slots.get_modify]
    by_cases hr : r.slot = i
    · simp [hr]
    · simp [hr, Ne.symm hr]

theorem get_mergeAll_eq (rs : List Recorded) (history : List Slots) (slots : Slots) (i : Nat) :
    (mergeAll rs history slots).get i =
      (rs.filter (·.slot = i)).foldl (fun _ r => r.merged (history.map (·.get i))) (slots.get i) := by
  induction rs generalizing slots with
  | nil => rfl
  | cons r rs ih =>
    rw [mergeAll, List.foldl_cons]
    refine (ih _).trans ?_
    rw [Slots.get_set]
    by_cases hr : r.slot = i
    · simp [hr]
    · simp [hr, Ne.symm hr]

theorem clearAll_agree (hrs : ∀ i ∉ H, rs'.filter (·.slot = i) = rs.filter (·.slot = i))
    (h : slots.Agree H slots') : (clearAll rs slots).Agree H (clearAll rs' slots') := by
  intro i hi
  rw [get_clearAll_eq, get_clearAll_eq, hrs i hi, h i hi]

theorem mergeAll_agree (hrs : ∀ i ∉ H, rs'.filter (·.slot = i) = rs.filter (·.slot = i))
    (hh : List.Forall₂ (Slots.Agree H) history history') (h : slots.Agree H slots') :
    (mergeAll rs history slots).Agree H (mergeAll rs' history' slots') := by
  intro i hi
  have hget : history'.map (·.get i) = history.map (·.get i) := by
    induction hh with
    | nil => rfl
    | cons hs _ ih => rw [List.map_cons, List.map_cons, ih, hs i hi]
  rw [get_mergeAll_eq, get_mergeAll_eq, hrs i hi, h i hi, hget]

end Recorded

section Repetition

variable {leaves leaves' : List Recorded} {once once' : MatchM Bool}
  (hl : ∀ i ∉ H, leaves'.filter (·.slot = i) = leaves.filter (·.slot = i))
  (ho : Couples K exact H once once')

include hl ho

theorem repeatPasses_meets (n : Nat) {history history' : List Slots}
    (hh : List.Forall₂ (Slots.Agree H) history history') (h : Alike K exact H s s') :
    Meets Eq (fun hs t hs' t' => List.Forall₂ (Slots.Agree H) hs hs' ∧ Alike K exact H t t')
      (repeatPasses once leaves n history s) (repeatPasses once' leaves' n history' s') := by
  induction n generalizing history history' s s' with
  | zero => exact .stop rfl
  | succ n ih =>
    simp only [repeatPasses, MatchM.argv_bind, h.near.isEmpty_eq]
    split
    · exact .ok ⟨hh, h⟩
    simp only [MatchM.slots_bind, MatchM.setSlots_bind]
    refine (ho _ _ (h.withSlots (Recorded.clearAll_agree hl h.slots))).bind ?_
    rintro b t _ t' ⟨rfl, ht⟩
    split
    · exact .ok ⟨hh, ht⟩
    simp only [MatchM.slots_bind, MatchM.argv_bind, ht.near.tokens, h.near.tokens]
    split
    · exact .ok ⟨.cons ht.slots hh, ht⟩
    · exact ih (.cons ht.slots hh) ht

theorem matchRepeatedly_couples : Couples K exact H (matchRepeatedly once leaves) (matchRepeatedly once' leaves') := by
  intro s s' h
  simp only [matchRepeatedly, MatchM.slots_bind, MatchM.argv_bind, h.near.size_eq]
  refine (repeatPasses_meets hl ho _ .nil h).bind ?_
  rintro history t history' t' ⟨hh, ht⟩
  have hempty : history'.isEmpty = history.isEmpty := by cases hh <;> rfl
  rw [hempty]
  split
  · exact .ok ⟨rfl, ht.withSlots h.slots⟩
  · simp only [MatchM.slots_bind, MatchM.setSlots_bind]
    exact .ok ⟨rfl, ht.withSlots (Recorded.mergeAll_agree hl (.cons h.slots (List.forall₂_reverse_iff.mpr hh)) ht.slots)⟩

end Repetition

end Synopsis
