import Synopsis.Grammar.Match
import Synopsis.Proofs.Help.Grounded
import Synopsis.Proofs.Help.Values
import Synopsis.Proofs.Matcher.Loans
import Synopsis.Proofs.Matcher.Yields
import Synopsis.Proofs.Outcomes

/-! # No arguments

Without arguments, no pattern of a line is tried. What need not match may stay away, and
so a line is matched if it holds only such patterns. A required group inside it, or one
that repeats, is not matched, even if nothing in it is required.
-/

namespace Synopsis

open Pattern (Plain)

/-! ## Patterns that nothing matches -/

namespace Pattern

variable {p : Pattern} {ps : List Pattern} {kind : GroupKind} {repeats : Bool}

/-- A pattern that may stay away. -/
def isOptional (p : Pattern) : Bool := (Scanned.start p).matched

/-- A usage that is matched without arguments. -/
def acceptsNothing : Pattern → Bool
  | .group .required children repeats => !repeats && children.all isOptional
  | p => p.isOptional

/-- A required group that repeats, or that holds another one. -/
def Buries (p : Pattern) : Prop :=
  ∃ children repeats, p = .group .required children repeats ∧
    (repeats = true ∨ ∃ ps r, .group .required ps r ∈ children)

theorem zero_mem_arityOfChildren {counts : Arity} :
    .exactly 0 ∈ (arityOfChildren counts ps).toList ↔
      .exactly 0 ∈ counts.toList ∧ ∀ p ∈ ps, .exactly 0 ∈ p.arity.toList := by
  induction ps generalizing counts with
  | nil => simp [arityOfChildren]
  | cons p ps ih =>
    rw [arityOfChildren, ih, Arity.mem_sum, List.forall_mem_cons, ← and_assoc]
    refine and_congr_left fun _ => ⟨?_, fun h => ⟨_, h.1, _, h.2, rfl⟩⟩
    rintro ⟨m, hm, n, hn, h⟩
    obtain ⟨rfl, rfl⟩ := Arity.plus_eq_zero h
    exact ⟨hm, hn⟩

theorem zero_mem_arity_group : .exactly 0 ∈ (group kind ps repeats).arity.toList ↔
    kind = .optional ∨ ∀ p ∈ ps, .exactly 0 ∈ p.arity.toList := by
  have hcounts : .exactly 0 ∈ (if (repeats && !ps.isEmpty) = true then
      (arityOfChildren Arity.flag ps).insert .unbounded
      else arityOfChildren Arity.flag ps).toList ↔ ∀ p ∈ ps, .exactly 0 ∈ p.arity.toList := by
    split
    · simp [OrderedSet.mem_insert, zero_mem_arityOfChildren, Arity.flag]
    · simp [zero_mem_arityOfChildren, Arity.flag]
  cases kind with
  | required => simpa [arity] using hcounts
  | optional => simp [arity, OrderedSet.mem_insert]

theorem Plain.arity_ne_nil (h : Plain p) : p.arity.toList ≠ [] := by
  have children {counts : Arity} {ps : List Pattern} (hc : counts.toList ≠ [])
      (hps : ∀ p ∈ ps, p.arity.toList ≠ []) : (arityOfChildren counts ps).toList ≠ [] := by
    induction ps generalizing counts with
    | nil => exact hc
    | cons p ps ih =>
      obtain ⟨hp, hps⟩ := List.forall_mem_cons.mp hps
      exact ih (Arity.sum_ne_nil hc hp) hps
  induction h with
  | option | command | argument | shortcut => exact List.cons_ne_nil _ _
  | group _ ih =>
    exact Arity.ite_insert_ne_nil (Arity.ite_insert_ne_nil (children (List.cons_ne_nil _ _) ih))

end Pattern

/-- Nothing comes before zero. -/
theorem Arity.least_eq_zero_iff {a : Arity} (ha : a.toList ≠ []) :
    a.least = .exactly 0 ↔ .exactly 0 ∈ a.toList := by
  obtain ⟨toList, sorted⟩ := a
  obtain ⟨c, cs, rfl⟩ := List.exists_cons_of_ne_nil ha
  change c = .exactly 0 ↔ .exactly 0 ∈ c :: cs
  rw [List.mem_cons]
  refine ⟨fun h => .inl h.symm, ?_⟩
  rintro (h | h)
  · exact h.symm
  · have hlt := List.rel_of_pairwise_cons sorted h
    cases c with
    | exactly n => simp [Nat.compare_eq_lt] at hlt
    | unbounded => cases hlt

namespace Pattern

variable {p : Pattern}

theorem isOptional_iff (h : Plain p) : p.isOptional = true ↔
    .exactly 0 ∈ p.arity.toList ∧ ∀ ps r, p ≠ .group .required ps r := by
  cases h with
  | option | command | argument => simp [isOptional, Scanned.start, arity]
  | shortcut => simp [isOptional, Scanned.start, arity, Arity.flag]
  | @group kind children repeats _ =>
    cases kind with
    | required => simp [isOptional, Scanned.start]
    | optional => simp [isOptional, Scanned.start, zero_mem_arity_group]

/-- Only required groups that are not on their own make a difference to the arity. -/
theorem acceptsNothing_iff (h : Plain p) :
    p.acceptsNothing = true ↔ p.arity.least = .exactly 0 ∧ ¬ p.Buries := by
  rw [Arity.least_eq_zero_iff h.arity_ne_nil]
  have single (hb : ¬ p.Buries) (hp : ∀ ps r, p ≠ .group .required ps r) :
      p.isOptional = true ↔ .exactly 0 ∈ p.arity.toList ∧ ¬ p.Buries := by
    rw [isOptional_iff h]
    exact ⟨fun hz => ⟨hz.1, hb⟩, fun hz => ⟨hz.1, hp⟩⟩
  cases h with
  | option | command | argument | shortcut => exact single (by simp [Buries]) (by simp)
  | @group kind children repeats hchildren =>
    cases kind with
    | optional => exact single (by simp [Buries]) (by simp)
    | required =>
      have hall : (∀ c ∈ children, c.isOptional = true) ↔
          (∀ c ∈ children, .exactly 0 ∈ c.arity.toList) ∧
            ¬ ∃ ps r, Pattern.group .required ps r ∈ children := by
        constructor
        · intro hopt
          refine ⟨fun c hc => ((isOptional_iff (hchildren c hc)).mp (hopt c hc)).1, ?_⟩
          rintro ⟨ps, r, hc⟩
          exact ((isOptional_iff (hchildren _ hc)).mp (hopt _ hc)).2 ps r rfl
        · rintro ⟨hz, hnot⟩ c hc
          refine (isOptional_iff (hchildren c hc)).mpr ⟨hz c hc, ?_⟩
          rintro ps r rfl
          exact hnot ⟨ps, r, hc⟩
      simp only [acceptsNothing, Bool.and_eq_true, Bool.not_eq_true', List.all_eq_true, hall,
        zero_mem_arity_group, reduceCtorEq, false_or, Buries, group.injEq, true_and]
      grind

end Pattern

/-! ## Matching nothing -/

section

variable {scope : Scope} {p : Pattern} {line : List Pattern} {run : Pattern → MatchM Bool}
  {s : Attempt} {n : Nat} {stop : Stop → Attempt → Prop}

/-- Without texts, there is nothing to lend. -/
theorem Lending.Loan.texts?_eq_none {slots : Slots} (hblank : ∀ i, slots.get i = .unset)
    {loan : Loan} (hd : loan.lenders.Nodup) (hb : loan.borrowers ≠ []) :
    loan.texts? slots = none := by
  refine Option.eq_none_iff_forall_not_mem.mpr fun (texts, left) h => ?_
  have hlen := length_texts? hd hb h
  obtain ⟨new, hpops, hperm⟩ := texts?_pops h
  cases hpops with
  | nil =>
    rw [← hperm.length_eq] at hlen
    exact hb (List.eq_nil_of_length_eq_zero hlen.symm)
  | @cons _ _ _ i _ _ _ hpop => simp [popText?, hblank i, Slot.popText?] at hpop

theorem yields_scanLine_nil (hs : s.argv.tokens = []) :
    (scanLine run line).Yields s (fun xs t => xs = line.map .start ∧ t = s) stop := by
  simp [scanLine, scanPasses, Argv.isEmpty, hs]

/-- A line is matched without arguments if all of it may stay away. -/
theorem yields_matchLine_nil (hs : s.argv.tokens = []) (hblank : ∀ i, s.slots.get i = .unset)
    (hd : (Pattern.slots line).Nodup) : (matchLine run line).Yields s
      (fun b t => b = line.all Pattern.isOptional ∧ t.argv.tokens = []) stop := by
  simp only [matchLine, MatchM.yields_restoring, MatchM.yields_bind]
  refine (yields_scanLine_nil hs).imp fun xs t h => ?_
  obtain ⟨rfl, rfl⟩ := h
  rw [List.all_map]
  change MatchM.Yields (if line.all Pattern.isOptional then _ else _) _ _ _
  split
  next hall => exact ⟨hall.symm, hs⟩
  next hnot =>
    rw [Bool.not_eq_true] at hnot
    simp only [Lending.lend, MatchM.yields_bind, MatchM.yields_slots]
    split
    next loan hloan =>
      obtain ⟨before, children, rest, hsplit⟩ := Lending.splits_of_loan? hloan
      rw [hsplit.slots_line, List.append_assoc, List.nodup_append'] at hd
      rw [Lending.Loan.texts?_eq_none hblank (List.nodup_append'.mp hd.2.1).1 hsplit.borrowers_ne]
      exact ⟨hnot.symm, hs⟩
    next => exact ⟨hnot.symm, hs⟩

/-- Nothing is recorded, and the answer only depends on the pattern. -/
theorem yields_matchPattern_nil (hp : Plain p) (hg : scope.Grounded)
    (hd : (Pattern.slots [p]).Nodup) (hs : s.argv.tokens = [])
    (hblank : ∀ i, s.slots.get i = .unset) : (matchPattern scope (n + 1) false p).Yields s
      (fun b t => b = p.acceptsNothing ∧ t.argv.tokens = []) stop := by
  have hempty : s.argv.isEmpty = true := by
    simp [Argv.isEmpty, hs]
  cases hp with
  | option =>
    simp [matchPattern, OptionOf.run, Argv.takeOption?, Argv.findOption?, hs, hblank, Slot.isTruthy,
      Pattern.acceptsNothing, Pattern.isOptional, Scanned.start]
  | command | argument =>
    have hplace : s.argv.positional = (s.argv, none) := by
      simp [Argv.positional, hs]
    simp only [matchPattern, Positional.run, Positional.isFilled, hblank, Slot.isTruthy,
      Slot.hasText, Bool.and_false, MatchM.yields_bind, MatchM.yields_slots, Bool.false_eq_true,
      if_false, MatchM.yields_argv]
    split
    · exact ⟨rfl, hs⟩
    · simp [Positional.take, hplace, hs, Pattern.acceptsNothing, Pattern.isOptional, Scanned.start]
  | shortcut =>
    have hentries (ps : List Pattern) : (matchEntries (matchPattern scope n false) ps).Yields s
        (fun _ t => t = s) stop := by
      cases ps with
      | nil => rfl
      | cons p ps => simp [matchEntries, hempty]
    refine MatchM.yields_bind.mpr ((hentries _).imp fun _ t ht => ?_)
    exact ⟨rfl, ht ▸ hs⟩
  | @group kind children repeats _ =>
    simp only [matchPattern, Bool.false_or]
    split
    next hrepeats =>
      obtain ⟨leaves, hleaves⟩ := Option.isSome_iff_exists.mp
        (Pattern.recorded?_isSome hg (.group kind children repeats))
      simp only [hleaves, matchRepeatedly, repeatPasses, MatchM.yields_bind, MatchM.yields_slots,
        MatchM.yields_argv, hempty, if_true, MatchM.yields_pure, List.isEmpty_nil,
        MatchM.yields_setSlots, Bool.false_or]
      refine ⟨?_, hs⟩
      cases kind with
      | required => simp [Pattern.acceptsNothing, hrepeats]
      | optional => rfl
    next honce =>
      rw [Bool.not_eq_true] at honce
      cases kind with
      | required =>
        rw [Pattern.slots_group] at hd
        have hline : (matchLine (matchPattern scope n false) children).Yields s
            (fun b t => b = children.all Pattern.isOptional ∧ t.argv.tokens = []) stop :=
          yields_matchLine_nil hs hblank hd
        simpa [matchOnce, Pattern.acceptsNothing, honce] using hline
      | optional =>
        refine MatchM.yields_bind.mpr ((yields_scanLine_nil hs).imp fun _ t h => ?_)
        exact ⟨rfl, h.2 ▸ hs⟩

end

/-! ## Usages without arguments -/

namespace Grammar

variable {g : Grammar} {config : Config} {doc : String} {argv : Argv} {us : List Pattern} {i : Nat}

theorem matchAlternative_nil (hg : compile config doc = .ok g) {u : Pattern}
    (hu : g.usages[i]? = some u) (hargv : argv.tokens = []) :
    ∃ t, g.matchAlternative i ⟨.blank g.slotCount, argv⟩ = .ok u.acceptsNothing t ∧
      t.argv.tokens = [] := by
  have hmem := List.mem_of_getElem? hu
  obtain ⟨n, hn⟩ : ∃ n, g.scope.fuel u argv = n + 1 :=
    Nat.exists_eq_succ_of_ne_zero (Nat.mul_ne_zero (Nat.succ_ne_zero _) (Nat.succ_ne_zero _))
  have hyields : (matchPattern g.scope (n + 1) false u).Yields ⟨.blank g.slotCount, argv⟩
      (fun b t => b = u.acceptsNothing ∧ t.argv.tokens = []) fun _ _ => False :=
    yields_matchPattern_nil (plain_of_compile hg u hmem) (grounded_of_compile hg)
      ((distinct_of_compile hg).singleton hmem).slots_nodup hargv fun _ => Slots.get_blank _ _
  have hrun : g.matchAlternative i ⟨.blank g.slotCount, argv⟩ =
      matchPattern g.scope (n + 1) false u ⟨.blank g.slotCount, argv⟩ := by
    unfold matchAlternative
    simp only [hu, ← hn]
    rfl
  rw [hrun]
  obtain ⟨b, t, hm, rfl, ht⟩ := hyields.exists_ok
  exact ⟨t, hm, ht⟩

/-- The usages are tried in order, and only an answer can end the search. -/
theorem matchFrom_nil (hg : compile config doc = .ok g) (hargv : argv.tokens = [])
    (hus : us = g.usages.drop i) (e : MatchError) :
    ((∃ u ∈ us, u.acceptsNothing = true) → ∃ m, g.matchFrom argv e i us = .ok m) ∧
      ((∀ u ∈ us, u.acceptsNothing = false) → g.matchFrom argv e i us = .error (.error e)) := by
  induction us generalizing i with
  | nil => exact ⟨nofun, fun _ => rfl⟩
  | cons u us ih =>
    have hu : g.usages[i]? = some u := by
      rw [← List.head?_drop, ← hus]
      rfl
    have hrest : us = g.usages.drop (i + 1) := by
      rw [← List.tail_drop, ← hus]
      rfl
    obtain ⟨t, ht, htokens⟩ := matchAlternative_nil hg hu hargv
    have hexhausted : t.argv.isExhausted = true := by
      simp [Argv.isExhausted, htokens]
    unfold matchFrom
    rw [ht]
    cases haccepts : u.acceptsNothing with
    | true =>
      simp only [hexhausted, Bool.and_self, if_true]
      exact ⟨fun _ => ⟨_, rfl⟩, fun h => by simp [haccepts] at h⟩
    | false =>
      simp only [Bool.false_and, Bool.false_eq_true, if_false]
      simpa [haccepts] using ih hrest

/-- Without arguments, a match succeeds exactly if some usage requires nothing and is no
required group that repeats or holds another one. Otherwise, no usage matches. -/
theorem matchArgs_nil (hg : compile config doc = .ok g) :
    ((∃ m, g.matchArgs [] = .ok m) ↔
        ∃ u ∈ g.usages, u.arity.least = .exactly 0 ∧ ¬ u.Buries) ∧
      ((∀ m, g.matchArgs [] ≠ .ok m) → g.matchArgs [] = .error (.error .noUsageMatched)) := by
  obtain ⟨argv, ht, hargv⟩ : ∃ argv, g.tokenize [] = .ok argv ∧ argv.tokens = [] := ⟨_, rfl, rfl⟩
  have hargs : g.matchArgs [] = g.matchFrom argv .noUsageMatched 0 g.usages := by
    unfold matchArgs
    rw [ht]
  have haccepts : (∃ u ∈ g.usages, u.arity.least = .exactly 0 ∧ ¬ u.Buries) ↔
      ∃ u ∈ g.usages, u.acceptsNothing = true :=
    exists_congr fun u => and_congr_right fun hu =>
      (Pattern.acceptsNothing_iff (plain_of_compile hg u hu)).symm
  obtain ⟨hsome, hnone⟩ := matchFrom_nil hg hargv (List.drop_zero).symm .noUsageMatched
  rw [hargs, haccepts]
  by_cases h : ∃ u ∈ g.usages, u.acceptsNothing = true
  · exact ⟨iff_of_true (hsome h) h, fun hno => absurd (hsome h) (by simpa using hno)⟩
  · have herror := hnone (by simpa using h)
    exact ⟨iff_of_false (by simp [herror]) h, fun _ => herror⟩

/-- Options in brackets of their own may all stay away. -/
theorem optional_flags_stay_away : ∃ g,
    compile {} "Usage: prog [-a] [-b]..." = .ok g ∧ ∃ m, g.matchArgs [] = .ok m := by
  obtain ⟨g, hg, husages⟩ : ∃ g, compile {} "Usage: prog [-a] [-b]..." = .ok g ∧
      g.usages = [.required [.optional [.option ⟨.singleton "-a", none, none, 0⟩],
        .group .optional [.option ⟨.singleton "-b", none, none, 1⟩] true]] := by decide +kernel
  refine ⟨g, hg, (matchArgs_nil hg).1.mpr ⟨_, husages ▸ List.mem_singleton_self _, ?_, ?_⟩⟩
  · decide +kernel
  · rintro ⟨children, repeats, he, h⟩
    obtain ⟨-, rfl, rfl⟩ := Pattern.group.inj he
    simp [Pattern.optional] at h

/-- In `([-a] [-b]) [-c]` nothing is required, but the parentheses are. -/
theorem buried_flags_are_missed : ∃ g,
    compile {} "Usage: prog ([-a] [-b]) [-c]" = .ok g ∧
      (∀ u ∈ g.usages, u.arity.least = .exactly 0) ∧
      g.matchArgs [] = .error (.error .noUsageMatched) := by
  decide +kernel

end Grammar

end Synopsis
