import Synopsis.Proofs.Grammar.Soundness
import Synopsis.Proofs.Matcher.Conservation
import Synopsis.Proofs.Outcomes

/-! # What a usage makes of its arguments

A usage that matches leaves a part of the stream, in order. Its leaves hold the texts
that left the stream, and one `--` more for each stack of options that left as such.
-/

namespace Synopsis.Grammar

open Argv (Fate Spent)
open Pattern (Reaches)

variable {g : Grammar} {config : Config} {source : SourceText} {registry : Registry}
  {usages : List Pattern} {usage : Pattern} {raw : List String} {argv : Argv} {i : Nat}
  {t : Attempt}

/-- No command of the grammar goes by several names. -/
def SingleNamed (g : Grammar) : Prop :=
  ∀ leaf, .command leaf ∈ g.atoms → ∃ name, leaf.names = .singleton name

theorem nodup_atoms (h : Pattern.Distinct g.scope g.usages) :
    (g.atoms.filterMap Pattern.slot?).Nodup := h

theorem sole_of_reaches (h : Pattern.Distinct g.scope g.usages) (hn : g.SingleNamed)
    (hu : usage ∈ g.usages) {q : Pattern} (hq : Reaches g.scope usage q) : Sole g.atoms q := by
  have hmem : ∀ i, q.slot? = some i → q ∈ g.atoms := fun i hi =>
    List.mem_flatMap.mpr (owns_of_reaches hu hq i hi)
  refine ⟨hmem, h.slots_nodup_of_reaches hu hq, ?_⟩
  rintro leaf rfl
  exact hn leaf (hmem leaf.slot rfl)

theorem tokenized_of_tokenize (h : g.tokenize raw = .ok argv) : Tokenized argv.tokens := by
  obtain ⟨ts, hts, h⟩ := Except.bind_eq_ok.mp h
  obtain rfl := Except.ok.inj h
  exact tokenized_of_tokensOf hts

/-- What a match takes off the stream is held by the leaves, except that they also hold
the stacks that were reduced to `--`. There is none if no stack ends in a hyphen. -/
theorem matchAlternative_conserves (hg : build config source registry usages = .ok g)
    (hn : g.SingleNamed) (ht : g.tokenize raw = .ok argv)
    (h : g.matchAlternative i ⟨.blank g.slotCount, argv⟩ = .ok true t) :
    ∃ used strays, Spent g.atoms argv.style argv.tokens t.argv.tokens used strays ∧
      holdings g.atoms t.slots = used + Multiset.replicate strays "--" ∧
      (holdings g.atoms t.slots = used ↔ strays = 0) ∧
      ((∀ token ∈ argv.tokens, token.kind = .flag → token.text.toList.getLast? ≠ some '-') →
        strays = 0) := by
  rcases run_of_matchAlternative h with ⟨-, hb, -⟩ | ⟨usage, n, log, hu, run⟩
  · cases hb
  · have hdistinct := distinct_of_build hg
    have hsole (q : Pattern) (hq : Reaches g.scope usage q) : Sole g.atoms q :=
      sole_of_reaches hdistinct hn (List.mem_of_getElem? hu) hq
    have hrun := (Conserves.closed (nodup_atoms hdistinct)).run hsole run
    obtain ⟨used, strays, hspent, hheld⟩ := hrun.spent (tokenized_of_tokenize ht)
    rw [holdings_blank, zero_add] at hheld
    refine ⟨used, strays, hspent, hheld, ?_, hspent.strays_eq_zero⟩
    rw [hheld, add_eq_left, ← Multiset.card_eq_zero, Multiset.card_replicate]

/-- Of the stack `-a-` only `--` is left, which the argument takes. -/
theorem reduced_stack :
    ∃ g argv t a x c d, compile {} "Usage:\n  prog -a <x>\n  prog -c-" = .ok g ∧
      g.tokenize ["-a-"] = .ok argv ∧
      g.matchAlternative 0 ⟨.blank g.slotCount, argv⟩ = .ok true t ∧
      g.atoms = [.option a, .argument x, .option c, .option d] ∧
      argv.tokens = [⟨"-a-", .flag⟩] ∧ t.argv.tokens = [] ∧
      holdings g.atoms t.slots = {"--"} := by
  obtain ⟨g, hg, hatoms, argv, ht, htokens, t, hm, hleft, hheld⟩ :
      ∃ g, compile {} "Usage:\n  prog -a <x>\n  prog -c-" = .ok g ∧
        g.atoms = [.option ⟨.singleton "-a", none, none, 0⟩, .argument ⟨.singleton "<x>", 1⟩,
          .option ⟨.singleton "-c", none, none, 2⟩, .option ⟨.singleton "--", none, none, 3⟩] ∧
        ∃ argv, g.tokenize ["-a-"] = .ok argv ∧ argv.tokens = [⟨"-a-", .flag⟩] ∧
          ∃ t, g.matchAlternative 0 ⟨.blank g.slotCount, argv⟩ = .ok true t ∧
            t.argv.tokens = [] ∧ holdings g.atoms t.slots = {"--"} := by decide +kernel
  exact ⟨g, argv, t, _, _, _, _, hg, ht, hm, hatoms, htokens, hleft, hheld⟩

theorem singleNamed_of_atoms {a c d : OptionAtom} {x : Leaf}
    (h : g.atoms = [.option a, .argument x, .option c, .option d]) : g.SingleNamed := by
  intro leaf hleaf
  simp [h] at hleaf

/-- The account of that match needs the `--`. -/
theorem reduced_stack_conserves :
    ∃ g argv t used strays, compile {} "Usage:\n  prog -a <x>\n  prog -c-" = .ok g ∧
      g.tokenize ["-a-"] = .ok argv ∧
      g.matchAlternative 0 ⟨.blank g.slotCount, argv⟩ = .ok true t ∧
      Spent g.atoms argv.style argv.tokens t.argv.tokens used strays ∧
      holdings g.atoms t.slots = used + Multiset.replicate strays "--" := by
  obtain ⟨g, argv, t, a, x, c, d, hg, htok, hm, hatoms, -⟩ := reduced_stack
  obtain ⟨source, registry, usages, hb, -⟩ := build_of_compile hg
  obtain ⟨used, strays, hspent, hheld, -⟩ :=
    matchAlternative_conserves hb (singleNamed_of_atoms hatoms) htok hm
  exact ⟨g, argv, t, used, strays, hg, htok, hm, hspent, hheld⟩

/-- The texts that leave the stream as such are never what the leaves hold. -/
theorem reduced_stack_is_not_given :
    ∃ g argv t, compile {} "Usage:\n  prog -a <x>\n  prog -c-" = .ok g ∧ g.SingleNamed ∧
      g.tokenize ["-a-"] = .ok argv ∧
      g.matchAlternative 0 ⟨.blank g.slotCount, argv⟩ = .ok true t ∧
      ∀ used, Spent g.atoms argv.style argv.tokens t.argv.tokens used 0 →
        holdings g.atoms t.slots ≠ used := by
  obtain ⟨g, argv, t, a, x, c, d, hg, htok, hm, hatoms, htokens, hleft, hheld⟩ := reduced_stack
  refine ⟨g, argv, t, hg, singleNamed_of_atoms hatoms, htok, hm, ?_⟩
  intro used hspent he
  rw [htokens, hleft] at hspent
  have hmem : "--" ∈ used := by
    rw [← he, hheld]
    exact Multiset.mem_singleton_self _
  exact absurd (hspent.length_of_flag rfl ⟨'a', ['-'], rfl⟩ hmem) (by decide)

end Synopsis.Grammar
