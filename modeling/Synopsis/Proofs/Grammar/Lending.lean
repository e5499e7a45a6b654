import Synopsis.Proofs.Grammar.Ellipsis

/-! # Groups that lend their last words

A repeating group of several arguments deals the words out in rounds. What it lends are the last
words, in their order, if the rounds are complete, or if it stands in brackets and can end a round
after any of its arguments. A group without brackets does not know which of its arguments were
served last.
-/

namespace Synopsis

namespace Grammar

open Pattern (slots)
open Lending (column CanLend)

variable {g : Grammar} {config : Config} {source : SourceText} {registry : Registry}
  {usages : List Pattern} {kind : GroupKind} {children : List Pattern} {bs : List Leaf}
  {lenders : List Nat} {raw : List String} {i : Nat}

theorem fitAll_arguments (bs : List Leaf) (ws : List String) : FitAll (bs.map .argument) ws := by
  intro j p w hp _
  rw [List.getElem?_map, Option.map_eq_some_iff] at hp
  obtain ⟨leaf, -, rfl⟩ := hp
  simp [Positional.fits, Positional.accepts]

/-- The arguments behind the group hold the last words, and those of the group hold the others, as
they were dealt out. -/
theorem lending_keeps_order (hb : build config source registry usages = .ok g)
    (hu : g.usages[i]? = some (.required (.group kind children true :: bs.map .argument)))
    (hlenders : Lending.argumentSlotsAll? children = some lenders) (hne : lenders ≠ []) (hbs : bs ≠ [])
    (hfull : (Pattern.group kind children false).Nest (0 < ·)) (hplain : ∀ w ∈ raw, PlainWord w)
    (hrounds : lenders.length ∣ raw.length ∨ kind = .optional ∧ ∀ c ∈ children, c.Nest (· = 1)) :
    ∃ argv, g.tokenize raw = .ok argv ∧
      ((∃ t, g.matchAlternative i ⟨.blank g.slotCount, argv⟩ = .ok true t ∧ t.argv.isExhausted = true) ↔
        CanLend lenders.length raw.length bs.length kind) ∧
      ∀ t, g.matchAlternative i ⟨.blank g.slotCount, argv⟩ = .ok true t →
        (∀ (j : Nat) (b : Leaf), bs[j]? = some b →
          ∃ w, raw[raw.length - bs.length + j]? = some w ∧ t.slots.get b.slot = .text w) ∧
        ∀ (j k : Nat), lenders[j]? = some k →
          t.slots.get k = .list (column lenders.length j (raw.take (raw.length - bs.length))) := by
  obtain ⟨rfl, -⟩ := Lending.slots_of_argumentSlotsAll? hlenders
  have hmap : bs.map Pattern.argument = (bs.map Positional.argument).map (·.pattern) := by
    rw [List.map_map]
    rfl
  rw [hmap] at hu
  have h := ellipsis_of_usage hb hu hfull hne (by simpa using hbs)
  have hpays : Ellipsis.Pays kind children (bs.map .argument) raw ↔
      CanLend (slots children).length raw.length bs.length kind := by
    rw [Ellipsis.Pays, List.length_map]
    exact and_iff_left (fitAll_arguments bs _)
  obtain ⟨argv, htokenize, hmatches, hpaid⟩ := matchAlternative_words h hu hplain hrounds
  refine ⟨argv, htokenize, hmatches.trans hpays, fun t hm => ?_⟩
  obtain ⟨hpaid, hlent, hborrowed⟩ := hpaid t hm
  have hle := Lending.CanLend.le (hpays.mp hpaid)
  rw [List.length_map] at hlent hborrowed
  constructor
  · intro j b hj
    obtain ⟨hlt, -⟩ := List.getElem?_eq_some_iff.mp hj
    have hw : raw[raw.length - bs.length + j]? = some _ := List.getElem?_eq_getElem (by omega)
    refine ⟨_, hw, hborrowed j (.argument b) _ ?_ hw⟩
    rw [List.getElem?_map, hj]
    rfl
  · exact hlent

/-- In `[<x> <y>]... <p> <q>`, the last round of five words is not complete. -/
theorem last_words_in_order : ∃ g argv t, compile {} "Usage: prog [<x> <y>]... <p> <q>" = .ok g ∧
    g.tokenize ["1", "2", "3", "4", "5"] = .ok argv ∧
    g.matchAlternative 0 ⟨.blank g.slotCount, argv⟩ = .ok true t ∧
    t.slots.get 0 = .list ["1", "3"] ∧ t.slots.get 1 = .list ["2"] ∧ t.slots.get 2 = .text "4" ∧
    t.slots.get 3 = .text "5" := by
  obtain ⟨g, hg, hu⟩ : ∃ g, compile {} "Usage: prog [<x> <y>]... <p> <q>" = .ok g ∧
      g.usages[0]? = some (.required (.group .optional [.argument ⟨.singleton "<x>", 0⟩,
        .argument ⟨.singleton "<y>", 1⟩] true ::
          [⟨.singleton "<p>", 2⟩, ⟨.singleton "<q>", 3⟩].map .argument)) := by decide +kernel
  obtain ⟨_, _, _, hb, -⟩ := build_of_compile hg
  have hnest {P : Nat → Prop} : ∀ c ∈ [Pattern.argument ⟨.singleton "<x>", 0⟩,
      .argument ⟨.singleton "<y>", 1⟩], c.Nest P :=
    List.forall_mem_cons.mpr ⟨.argument, List.forall_mem_singleton.mpr .argument⟩
  have hplain : ∀ w ∈ ["1", "2", "3", "4", "5"], PlainWord w := by
    unfold PlainWord
    decide +kernel
  have hlenders : Lending.argumentSlotsAll? [.argument ⟨.singleton "<x>", 0⟩,
      .argument ⟨.singleton "<y>", 1⟩] = some [0, 1] := rfl
  obtain ⟨argv, ht, hmatches, hholds⟩ := lending_keeps_order hb hu hlenders (by decide) (by decide)
    (.optional hnest) hplain (.inr ⟨rfl, hnest⟩)
  obtain ⟨t, hm, -⟩ := hmatches.mpr (show 2 ≤ 5 by decide)
  obtain ⟨hbs, hlenders⟩ := hholds t hm
  obtain ⟨p, hp, hgetp⟩ := hbs 0 ⟨.singleton "<p>", 2⟩ rfl
  obtain ⟨q, hq, hgetq⟩ := hbs 1 ⟨.singleton "<q>", 3⟩ rfl
  obtain rfl := Option.some.inj hp
  obtain rfl := Option.some.inj hq
  exact ⟨g, argv, t, hg, ht, hm, hlenders 0 0 rfl, hlenders 1 1 rfl, hgetp, hgetq⟩

/-- In `(<x> [<y>])... <p> <q>`, the group has to match, and its last round may not be complete.
The words it lends come back in the order of its arguments. -/
theorem incomplete_round_is_swapped : ∃ g, compile {} "Usage: prog (<x> [<y>])... <p> <q>" = .ok g ∧
    g.usages[0]? = some (.required [.group .required [.argument ⟨.singleton "<x>", 0⟩,
      .optional [.argument ⟨.singleton "<y>", 1⟩]] true, .argument ⟨.singleton "<p>", 2⟩,
      .argument ⟨.singleton "<q>", 3⟩]) ∧
    ∃ argv, g.tokenize ["1", "2", "3", "4", "5"] = .ok argv ∧
      ∃ t, g.matchAlternative 0 ⟨.blank g.slotCount, argv⟩ = .ok true t ∧
        t.argv.isExhausted = true ∧ t.slots.get 0 = .list ["1", "3"] ∧ t.slots.get 1 = .list ["2"] ∧
        t.slots.get 2 = .text "5" ∧ t.slots.get 3 = .text "4" := by decide +kernel

end Grammar

end Synopsis
