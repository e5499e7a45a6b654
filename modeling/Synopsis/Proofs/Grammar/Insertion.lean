import Mathlib
import Synopsis.Proofs.Grammar.Options
import Synopsis.Proofs.Matcher.Insertion
import Synopsis.Proofs.Outcomes

/-! # Options beside positionals

Whether a usage takes arguments without options does not depend on optional patterns of
options in its line, as long as these do not repeat. With one that repeats, the line
makes no loan.
-/

namespace Synopsis

open Pattern (Reaches slots)

variable {scope : Scope} {before after : List Pattern} {o : Pattern}
  {argv : Argv}

theorem fuel_eq_succ (scope : Scope) (p : Pattern) (a : Argv) :
    scope.fuel p a = scope.fuel p a - 1 + 1 := by
  have hpos : 0 < scope.fuel p a := Nat.mul_pos (Nat.succ_pos _) (Nat.succ_pos _)
  omega

/-- A pattern of options that always matches, put into the line of a required group. Without
options among the arguments, the group takes what it took before, and fills its leaves with the
same values; if the pattern repeats, it takes what it took without a loan on its line. -/
theorem required_passes_over_options (repeats : Bool) (table : Slots)
    (he : ∀ e ∈ scope.registry.entries, e.IsEntry)
    (hg : scope.Grounded) (ho : o.IsOptional) (hp : o.OptionsOnly)
    (hline : ∀ p ∈ before ++ after, p.Avoids scope (o.reach scope)) (hq : argv.Quiet) :
    (o.isRepeatingGroup = false → SameMatches scope (before ++ after)
      (TakesAll scope (.group .required (before ++ after) repeats) ⟨table, argv⟩)
      (TakesAll scope (.group .required (before ++ o :: after) repeats) ⟨table, argv⟩)) ∧
    (o.isRepeatingGroup = true → SameMatches scope (before ++ after)
      (TakesAllUnaided scope (before ++ after) repeats ⟨table, argv⟩)
      (TakesAll scope (.group .required (before ++ o :: after) repeats) ⟨table, argv⟩)) := by
  have hfuel (line : List Pattern) := fuel_eq_succ scope (.group .required line repeats) argv
  have hdeep (line : List Pattern) : ∀ p ∈ line,
      Suffices scope (scope.fuel (.group .required line repeats) argv - 1) p := by
    have h := suffices_fuel scope (.group .required line repeats) argv
    rw [hfuel line] at h
    exact h
  obtain ⟨hbefore, ho', hafter⟩ : (∀ p ∈ before, Suffices scope _ p) ∧ Suffices scope _ o ∧
      ∀ p ∈ after, Suffices scope _ p := by
    simpa only [List.forall_mem_append, List.forall_mem_cons] using hdeep (before ++ o :: after)
  have hidle : Idles .quiet (o.reach scope)
      (matchPattern scope (scope.fuel (.group .required (before ++ o :: after) repeats) argv - 1) false o) :=
    idle_matchPattern he hg hp ho ho' fun q hr i hi => ⟨q, hr, hi⟩
  have hmeets {lend lend' : MatchM Bool} (hl : Couples .quiet False (o.reach scope) lend lend') :
      Meets Eq (Same .quiet False (o.reach scope))
        (matchGroupWith lend scope (scope.fuel (.group .required (before ++ after) repeats) argv - 1)
          (before ++ after) repeats ⟨table, argv⟩)
        (matchGroupWith lend' scope (scope.fuel (.group .required (before ++ o :: after) repeats) argv - 1)
          (before ++ o :: after) repeats ⟨table, argv⟩) :=
    matchGroupWith_couples hl hg hline (hdeep (before ++ after))
      (List.forall_mem_append.mpr ⟨hbefore, hafter⟩) hidle ho (fun q hr i hi => ⟨q, hr, hi⟩)
      ⟨table, argv⟩ ⟨table, argv⟩ (.refl hq)
  constructor
  · intro hr
    have hloan (s s' : Slots) (hs : s.Agree (o.reach scope) s') :
        Lending.loan? s' (before ++ o :: after) = Lending.loan? s (before ++ after) :=
      (Lending.loan?_insert ho hr).trans (Lending.loan?_congr hs hline)
    have h := hmeets (Lending.lend_couples hline hloan)
    rw [← matchPattern_required, ← matchPattern_required, ← hfuel, ← hfuel] at h
    exact sameMatches_of_meets h hline
  · intro hr
    have hbarred : Couples .quiet False (o.reach scope) (pure false) (Lending.lend (before ++ o :: after)) := by
      intro s s' hs
      have hnone : Lending.loan? s'.slots (before ++ o :: after) = none :=
        Lending.loan?_eq_none_of_mem (by simp) hr hp
      simp only [Lending.lend, MatchM.slots_bind, hnone]
      exact .ok ⟨rfl, hs⟩
    have h := hmeets hbarred
    rw [← matchPattern_required, ← hfuel] at h
    exact sameMatches_of_meets h hline

namespace Grammar

instance decidableTakesAll (scope : Scope) (p : Pattern) (s : Attempt) :
    Decidable (∃ t, TakesAll scope p s t) :=
  decidableOkState _ true _

theorem flag_usage : ∃ g argv o x y, compile {} "Usage: prog [-v] <x>... <y>" = .ok g ∧
    g.tokenize ["1", "2"] = .ok argv ∧ argv.tokens = [⟨"1", .word⟩, ⟨"2", .word⟩] ∧
    g.registry.entries = [] ∧
    g.usages = [.required [.optional [.option o], .group .required [.argument x] true, .argument y]] ∧
    slots [.optional [.option o]] = [0] ∧
    slots [.group .required [.argument x] true, .argument y] = [1, 2] ∧
    ∃ t, TakesAll g.scope (.required [.group .required [.argument x] true, .argument y])
      ⟨.blank g.slotCount, argv⟩ t := by
  obtain ⟨g, hg, hentries, husages, argv, ht, htokens, t, htakes⟩ :
      ∃ g, compile {} "Usage: prog [-v] <x>... <y>" = .ok g ∧ g.registry.entries = [] ∧
        g.usages = [.required [.optional [.option ⟨.singleton "-v", none, none, 0⟩],
          .group .required [.argument ⟨.singleton "<x>", 1⟩] true,
          .argument ⟨.singleton "<y>", 2⟩]] ∧
        ∃ argv, g.tokenize ["1", "2"] = .ok argv ∧
          argv.tokens = [⟨"1", .word⟩, ⟨"2", .word⟩] ∧
          ∃ t, TakesAll g.scope (.required [.group .required [.argument ⟨.singleton "<x>", 1⟩] true,
            .argument ⟨.singleton "<y>", 2⟩]) ⟨.blank g.slotCount, argv⟩ t := by decide +kernel
  exact ⟨g, argv, _, _, _, hg, ht, htokens, hentries, husages, rfl, rfl, t, htakes⟩

/-- `[-v]` in front of `<x>... <y>` does not keep the line from lending to `<y>`. -/
theorem flag_before_lender_is_passed_over : ∃ g argv o line,
    compile {} "Usage: prog [-v] <x>... <y>" = .ok g ∧ g.tokenize ["1", "2"] = .ok argv ∧
      g.usages = [.required ([] ++ o :: line)] ∧ o.IsOptional ∧ o.OptionsOnly ∧
      o.isRepeatingGroup = false ∧ argv.Quiet ∧
      (∃ t, TakesAll g.scope (.required line) ⟨.blank g.slotCount, argv⟩ t) ∧
      ∃ t, TakesAll g.scope (.required ([] ++ o :: line)) ⟨.blank g.slotCount, argv⟩ t := by
  obtain ⟨g, argv, o, x, y, hg, ht, htokens, hentries, husages, hown, hothers, htakes⟩ := flag_usage
  have hquiet : argv.Quiet := by simp [Argv.Quiet, htokens]
  have honly : (Pattern.optional [.option o]).OptionsOnly := by
    simp [Pattern.OptionsOnly, Pattern.optional, Pattern.leaves, Pattern.positional?]
  have hreach {p q : Pattern} {i : Nat} (hq : Reaches g.scope p q) (hi : q.slot? = some i) :
      i ∈ slots [p] := by
    have h := hq.mem_slots hi
    rwa [show g.scope.registry.entries = [] from hentries, List.nil_append] at h
  have hout : ∀ p ∈ [] ++ [Pattern.group .required [.argument x] true, .argument y],
      p.Avoids g.scope ((Pattern.optional [.option o]).reach g.scope) := by
    rintro p hp q hq i hi ⟨q', hq', hi'⟩
    have hzero := hreach hq' hi'
    have hother := Pattern.mem_slots_of_mem hp (hreach hq hi)
    rw [hown] at hzero
    rw [List.nil_append, hothers] at hother
    simp_all
  have hoptional : (Pattern.optional [.option o]).IsOptional := trivial
  have h := required_passes_over_options false (.blank g.slotCount) (by simp [Grammar.scope, hentries])
    (by simp [Scope.Grounded, Grammar.scope, hentries]) hoptional honly hout hquiet
  exact ⟨g, argv, _, _, hg, ht, husages, hoptional, honly, rfl, hquiet, htakes,
    (h.1 rfl).iff.mpr htakes⟩

/-- `[-v]...` in front of it does. -/
theorem repeating_flag_bars_loan : ∃ g argv o line,
    compile {} "Usage: prog [-v]... <x>... <y>" = .ok g ∧ g.tokenize ["1", "2"] = .ok argv ∧
      argv.tokens = [⟨"1", .word⟩, ⟨"2", .word⟩] ∧
      g.usages = [.required (.group .optional [.option o] true :: line)] ∧ o.value = none ∧
      o.slot ∉ slots line ∧
      (∃ t, TakesAll g.scope (.required line) ⟨.blank g.slotCount, argv⟩ t) ∧
      ¬ ∃ t, TakesAll g.scope (.required (.group .optional [.option o] true :: line))
        ⟨.blank g.slotCount, argv⟩ t := by
  let v : OptionAtom := ⟨.singleton "-v", none, none, 0⟩
  let line : List Pattern :=
    [.group .required [.argument ⟨.singleton "<x>", 1⟩] true, .argument ⟨.singleton "<y>", 2⟩]
  obtain ⟨g, hg, husages, argv, ht, htokens, htakes, hfails⟩ :
      ∃ g, compile {} "Usage: prog [-v]... <x>... <y>" = .ok g ∧
        g.usages = [.required (.group .optional [.option v] true :: line)] ∧
        ∃ argv, g.tokenize ["1", "2"] = .ok argv ∧
          argv.tokens = [⟨"1", .word⟩, ⟨"2", .word⟩] ∧
          (∃ t, TakesAll g.scope (.required line) ⟨.blank g.slotCount, argv⟩ t) ∧
          ¬ ∃ t, TakesAll g.scope (.required (.group .optional [.option v] true :: line))
            ⟨.blank g.slotCount, argv⟩ t := by decide +kernel
  exact ⟨g, argv, v, line, hg, ht, htokens, husages, rfl, by decide, htakes, hfails⟩

end Grammar

end Synopsis
