import Synopsis.Proofs.Matcher.Depth
import Synopsis.Proofs.Matcher.ParallelOptions

/-! # Patterns in step

A pattern matches in step if its options do, and if what is known of the slots is kept by
its leaves, by its loans, and by the passes of its repeating groups.
-/

namespace Synopsis

variable {scope : Scope} {σ : OptionStyle} {E : List Token → List Token → Prop} {I : Slots → Prop} {n n' : Nat}
  {p q c : Pattern}

namespace Pattern

/-- The patterns that a match enters, except in the values of options. -/
inductive Visits (scope : Scope) : Pattern → Pattern → Prop
  | refl {p : Pattern} : Visits scope p p
  | child {kind : GroupKind} {children : List Pattern} {repeats : Bool} {c q : Pattern}
      (hc : c ∈ children) (h : Visits scope c q) : Visits scope (.group kind children repeats) q
  | branch {branches : List Pattern} {c q : Pattern} (hc : c ∈ branches) (h : Visits scope c q) :
      Visits scope (.either branches) q
  | entry {sc : Shortcut} {c q : Pattern} (hc : c ∈ scope.visible sc) (h : Visits scope c q) :
      Visits scope (.shortcut sc) q

theorem Visits.reaches (h : Visits scope p q) : Reaches scope p q := by
  induction h with
  | refl => exact .refl
  | child hc _ ih => exact .child hc ih
  | branch hc _ ih => exact .branch hc ih
  | entry hc _ ih => exact .entry hc ih

/-- Deep enough for a pattern is deep enough for its parts. -/
theorem isSome_recorded?_of_mem {ps : List Pattern} (hc : c ∈ ps)
    (h : ((ps.mapM (recorded? scope n)).map List.flatten).isSome) : (c.recorded? scope n).isSome := by
  obtain ⟨rs, hrs⟩ := Option.isSome_iff_exists.mp h
  exact (mapM_flatten_some hrs).1 c hc

theorem isSome_recorded?_of_value {o : OptionAtom} {w : Pattern} (hw : o.value = some w)
    (h : ((Pattern.option o).recorded? scope (n + 1)).isSome) : (w.recorded? scope n).isSome := by
  obtain ⟨rs, hrs⟩ := Option.isSome_iff_exists.mp h
  simp only [recorded?, hw, Option.bind_eq_bind, Option.bind_eq_some_iff] at hrs
  obtain ⟨inner, hinner, -⟩ := hrs
  exact (mapM_flatten_some hinner).1 w (List.mem_singleton_self w)

end Pattern

open Pattern (Visits)

/-- All that a pattern visits keeps matches in step, down to some depth. -/
structure Follows (scope : Scope) (σ : OptionStyle) (E : List Token → List Token → Prop)
    (I : Slots → Prop) (depth : Nat) (p : Pattern) : Prop where
  positional : ∀ q : Positional, Visits scope p q.pattern → ∀ slots text, I slots →
    I (slots.modify q.slot (q.record false text))
  option : ∀ o : OptionAtom, Visits scope p (.option o) → ∀ n < depth, ∀ n',
    (∀ w, o.value = some w → (w.recorded? scope n).isSome ∧ (w.recorded? scope n').isSome) →
    Parallel σ E I (o.run (matchPattern scope n false) false) (o.run (matchPattern scope n' false) false)
  lend : ∀ kind line repeats, Visits scope p (.group kind line repeats) → ∀ s t,
    Lending.Lends line s t → I s.slots → I t.slots
  repeats : ∀ kind line, Visits scope p (.group kind line true) → ∃ leaves,
    (Pattern.group kind line true).recorded? scope (scope.depth (.group kind line true)) = some leaves ∧
      (∀ slots, I slots → I (Recorded.clearAll leaves slots)) ∧
      ∀ history slots, (∀ h ∈ history, I h) → I slots → I (Recorded.mergeAll leaves history slots)

namespace Follows

theorem of_visits {m : Nat} (h : Follows scope σ E I n p) (hm : m ≤ n)
    (hq : ∀ r, Visits scope q r → Visits scope p r) : Follows scope σ E I m q where
  positional r hr := h.positional r (hq _ hr)
  option o ho k hk := h.option o (hq _ ho) k (Nat.lt_of_lt_of_le hk hm)
  lend kind line repeats hg := h.lend kind line repeats (hq _ hg)
  repeats kind line hg := h.repeats kind line (hq _ hg)

/-- The bounds of the two matches may differ, as long as both are deep enough. -/
theorem parallel (hE : Akin E) (h : Follows scope σ E I n p) (hn : (p.recorded? scope n).isSome)
    (hn' : (p.recorded? scope n').isSome) :
    Parallel σ E I (matchPattern scope n false p) (matchPattern scope n' false p) := by
  induction n generalizing p n' with
  | zero => cases hn
  | succ n ih =>
    cases n' with
    | zero => cases hn'
    | succ n' =>
      -- What holds of the parts of a pattern.
      have parts {ps : List Pattern} (hs : ((ps.mapM (Pattern.recorded? scope n)).map List.flatten).isSome)
          (hs' : ((ps.mapM (Pattern.recorded? scope n')).map List.flatten).isSome)
          (hps : ∀ c ∈ ps, ∀ r, Visits scope c r → Visits scope p r) :
          ∀ c ∈ ps, Parallel σ E I (matchPattern scope n false c) (matchPattern scope n' false c) :=
        fun c hc => ih (h.of_visits (Nat.le_succ n) (hps c hc)) (Pattern.isSome_recorded?_of_mem hc hs)
          (Pattern.isSome_recorded?_of_mem hc hs')
      cases p with
      | option o =>
        simp only [matchPattern]
        exact h.option o .refl n (Nat.lt_succ_self n) n' fun w hw =>
          ⟨Pattern.isSome_recorded?_of_value hw hn, Pattern.isSome_recorded?_of_value hw hn'⟩
      | command leaf => exact Positional.run_parallel hE (h.positional (.command leaf) .refl)
      | argument leaf => exact Positional.run_parallel hE (h.positional (.argument leaf) .refl)
      | group kind children repeats =>
        have hparts := parts hn hn' fun c hc r hr => .child hc hr
        have honce : Parallel σ E I (matchOnce (matchPattern scope n false) kind children)
            (matchOnce (matchPattern scope n' false) kind children) :=
          matchOnce_parallel hE.emptyTogether hparts (h.lend kind children repeats .refl)
        cases repeats with
        | false => simpa [matchPattern] using honce
        | true =>
          obtain ⟨leaves, hleaves, hclear, hmerge⟩ := h.repeats kind children .refl
          simp only [matchPattern, Bool.or_true, if_true, hleaves]
          intro s t hs
          refine (matchRepeatedly_parallel hE.emptyTogether honce hclear hmerge s t hs).andThen ?_
          exact fun _ _ _ hu => .ok ⟨rfl, hu, .refl⟩
      | either branches =>
        simp only [matchPattern]
        exact matchEither_parallel (parts hn hn' fun c hc r hr => .branch hc hr)
      | shortcut sc =>
        simp only [matchPattern]
        intro s t hs
        refine (matchEntries_parallel hE.emptyTogether
          (parts hn hn' fun c hc r hr => .entry hc hr) s t hs).andThen ?_
        exact fun _ _ _ hu => .ok ⟨rfl, hu, .refl⟩

/-- If nothing is known of the slots, only the options in reach matter. -/
theorem of_options (hE : Akin E) (hg : scope.Grounded)
    (ho : ∀ o : OptionAtom, Pattern.Reaches scope p (.option o) → ∀ n n', (∀ w, o.value = some w →
      (w.recorded? scope n).isSome ∧ (w.recorded? scope n').isSome ∧
        Parallel σ E (fun _ => True) (matchPattern scope n false w) (matchPattern scope n' false w)) →
      Parallel σ E (fun _ => True) (o.run (matchPattern scope n false) false)
        (o.run (matchPattern scope n' false) false)) :
    Follows scope σ E (fun _ => True) n p := by
  induction n using Nat.strong_induction_on generalizing p with
  | h n ih =>
    refine ⟨fun _ _ _ _ _ => trivial, fun o hv m hm n' hdeep => ?_, fun _ _ _ _ _ _ _ _ => trivial, ?_⟩
    · refine ho o hv.reaches m n' fun w hw => ⟨(hdeep w hw).1, (hdeep w hw).2, ?_⟩
      refine (ih m hm fun o' ho' => ho o' ?_).parallel hE (hdeep w hw).1 (hdeep w hw).2
      exact hv.reaches.trans (.value hw ho')
    · intro kind line _
      obtain ⟨rs, hrs⟩ := Option.isSome_iff_exists.mp
        (Pattern.recorded?_isSome hg (.group kind line true))
      exact ⟨rs, hrs, fun _ _ => trivial, fun _ _ _ _ => trivial⟩

end Follows

end Synopsis
