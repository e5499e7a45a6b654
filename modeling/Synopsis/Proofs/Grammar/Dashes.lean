import Synopsis.Help.Compile
import Synopsis.Proofs.Matcher.Dashes
import Synopsis.Proofs.Outcomes

/-! # Nothing behind `--` is an option

Wherever the match of a usage has come to, the `--` that ends the options is still
there, and the literals that are left are the last ones.
-/

namespace Synopsis

/-- Arguments that come with an end of the options are tokenized up to it. -/
theorem ReadAs.exists_ended {config : Config} {ts : List Token} (h : ReadAs config ts)
    (hd : ∃ d ∈ ts, d.isDoubleDash = true) : ∃ d lits, Ended d lits ts := by
  induction h with
  | nil => simp at hd
  | ended => exact ⟨_, _, .here rfl⟩
  | value _ _ ih | flag _ _ ih | word _ _ ih =>
    obtain ⟨d, lits, he⟩ := ih (by simpa [Token.isDoubleDash] using hd)
    exact ⟨d, lits, .ahead ⟨by simp, by simp⟩ he⟩

namespace Grammar

variable {g : Grammar} {i : Nat} {s : Attempt}

/-- The call that a match of a usage starts with. -/
def call? (g : Grammar) (i : Nat) (s : Attempt) : Option Call :=
  g.usages[i]?.map fun usage => ⟨g.scope.fuel usage s.argv, false, usage, .arguments, s⟩

theorem matchAlternative_eq (g : Grammar) (i : Nat) (s : Attempt) :
    g.matchAlternative i s = (g.call? i s).elim (.ok false s) (·.answer g.scope) := by
  unfold matchAlternative call?
  cases g.usages[i]? <;> rfl

/-- A match of a usage comes to a call. -/
def ComesTo (g : Grammar) (i : Nat) (s : Attempt) (c : Call) : Prop :=
  ∃ start ∈ g.call? i s, start.LeadsTo g.scope c

theorem held_of_comesTo {raw : List String} {argv : Argv} {slots : Slots} {c : Call}
    (hr : g.tokenize raw = .ok argv) (hd : argv.marks ≠ [])
    (hc : g.ComesTo i ⟨slots, argv⟩ c) :
    ∃ d, argv.marks = [d] ∧ c.Held d argv.literals := by
  obtain ⟨ts, hts, hr⟩ := Except.bind_eq_ok.mp hr
  obtain rfl := Except.ok.inj hr
  have hs := tokenized_of_tokensOf hts
  obtain ⟨d, lits, he⟩ := (readAs_of_tokensOf hts).exists_ended (by simpa [Argv.marks] using hd)
  obtain ⟨start, hstart, hl⟩ := hc
  obtain ⟨usage, -, rfl⟩ := Option.map_eq_some_iff.mp hstart
  refine ⟨d, he.marks_eq hs, Call.Held.leadsTo ⟨hs, fun _ => ?_, fun h => absurd rfl h⟩ hl⟩
  rw [he.literals_eq hs]
  exact ⟨lits, List.suffix_rfl, he⟩

/-- Wherever the match of a usage has come to, the end of the options is still there, and
the literals that are left are the last ones. Only commands and arguments outside of
values use any of them: options and value patterns leave the stream as it is from the end
of the options on. -/
theorem matchAlternative_guards_ending {raw : List String} {argv : Argv} {slots : Slots} {c : Call}
    (hr : g.tokenize raw = .ok argv) (hd : argv.marks ≠ [])
    (hc : g.ComesTo i ⟨slots, argv⟩ c) :
    (c.stream = .arguments →
      c.state.argv.marks = argv.marks ∧ c.state.argv.literals <:+ argv.literals) ∧
    ∀ b t, c.answer g.scope = .ok b t →
      (c.stream = .arguments →
        t.argv.marks = argv.marks ∧ t.argv.literals <:+ c.state.argv.literals) ∧
      (c.stream ≠ .arguments ∨ c.pattern.option?.isSome →
        t.argv.ending = c.state.argv.ending) ∧
      (t.argv.literals ≠ c.state.argv.literals → c.pattern.isAtom →
        c.stream = .arguments ∧ c.pattern.positional?.isSome) := by
  obtain ⟨d, hmarks, hheld⟩ := held_of_comesTo hr hd hc
  refine ⟨fun hown => ?_, fun b t hanswer => ?_⟩
  · obtain ⟨left, hleft, he⟩ := hheld.own hown
    rw [he.marks_eq hheld.tokenized, he.literals_eq hheld.tokenized, hmarks]
    exact ⟨rfl, hleft⟩
  · obtain ⟨_, run⟩ := run_of_matchPattern hanswer
    have hg := Call.Held.guards run
    have hending : c.stream ≠ .arguments ∨ c.pattern.option?.isSome →
        t.argv.ending = c.state.argv.ending := by
      rintro (hk | ho)
      · exact hheld.ending_eq_of_apart hk run
      · obtain ⟨o, ho⟩ := Option.isSome_iff_exists.mp ho
        refine hheld.ending_eq_of_option (o := o) ?_ run
        unfold Pattern.option? at ho
        split at ho <;> simp_all
    refine ⟨fun hown => ?_, hending, fun hne hatom => ?_⟩
    · obtain ⟨left, -, he⟩ := hheld.own hown
      obtain ⟨left', hleft', -, he'⟩ := hg.ended hheld.tokenized he
      have hs := hg.tokenized hheld.tokenized
      rw [he'.marks_eq hs, he'.literals_eq hs, he.literals_eq hheld.tokenized, hmarks]
      exact ⟨rfl, hleft'⟩
    · -- What uses a literal changes the stream from the end of the options on.
      have hnot : ¬ (c.stream ≠ .arguments ∨ c.pattern.option?.isSome) := fun h =>
        hne (hheld.literals_eq_of_ending_eq run (hending h))
      rw [not_or, not_not] at hnot
      refine ⟨hnot.1, ?_⟩
      cases hp : c.pattern <;> simp_all [Pattern.isAtom, Pattern.option?, Pattern.positional?]

/-- In `--out 1 -- -b 2`, the value of the option ends at the `--`, and the arguments leave
the `--` alone. -/
theorem literals_go_to_arguments :
    ∃ g argv start t, compile {} "Usage: prog [--out=<f>] <x>..." = .ok g ∧
      g.tokenize ["--out", "1", "--", "-b", "2"] = .ok argv ∧
      argv.literals = [⟨"-b", .literal⟩, ⟨"2", .literal⟩] ∧
      g.call? 0 ⟨.blank g.slotCount, argv⟩ = some start ∧ start.answer g.scope = .ok true t ∧
      t.argv.tokens = argv.marks ∧ t.argv.literals <:+ start.state.argv.literals := by
  obtain ⟨g, hg, argv, hr, hl, hd, start, hs, hk, t, ha, ht⟩ :
      ∃ g, compile {} "Usage: prog [--out=<f>] <x>..." = .ok g ∧
        ∃ argv, g.tokenize ["--out", "1", "--", "-b", "2"] = .ok argv ∧
          argv.literals = [⟨"-b", .literal⟩, ⟨"2", .literal⟩] ∧ argv.marks ≠ [] ∧
          ∃ start, g.call? 0 ⟨.blank g.slotCount, argv⟩ = some start ∧ start.stream = .arguments ∧
            ∃ t, start.answer g.scope = .ok true t ∧ t.argv.tokens = argv.marks := by
    decide +kernel
  obtain ⟨-, hanswer⟩ := matchAlternative_guards_ending hr hd ⟨start, hs, .refl⟩
  exact ⟨g, argv, start, t, hg, hr, hl, hs, ha, ht, ((hanswer true t ha).1 hk).2⟩

end Grammar

end Synopsis
