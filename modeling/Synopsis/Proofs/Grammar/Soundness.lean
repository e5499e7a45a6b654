import Mathlib
import Synopsis.Proofs.Matcher.Adequacy
import Synopsis.Proofs.Matcher.Required
import Synopsis.Proofs.Outcomes

/-! # What an accepted usage guarantees

The usages of a compiled grammar have no alternations, and no two of its leaves share
a slot. Hence what holds of runs of regular patterns holds of all its usages.
-/

namespace Synopsis.Grammar

open Pattern (Plain Regular Reaches Owes Assures)

variable {g : Grammar} {config : Config} {doc : String} {usage q : Pattern} {i : Nat}
  {s t : Attempt}

/-- What records something, among some patterns, is a leaf of the grammar. -/
def Owns (g : Grammar) (q : Pattern) : Prop :=
  ∀ i, q.slot? = some i → ∃ p ∈ g.registry.entries ++ g.usages, q ∈ p.atoms

theorem apart_of_distinct (h : Pattern.Distinct g.scope g.usages) : Apart g.Owns := by
  intro q q' hq hq' i hi hi'
  obtain ⟨p, hp, hq⟩ := hq i hi
  obtain ⟨p', hp', hq'⟩ := hq' i hi'
  exact Pattern.eq_of_slot?_eq h (List.mem_flatMap.mpr ⟨p, hp, hq⟩)
    (List.mem_flatMap.mpr ⟨p', hp', hq'⟩) hi hi'

theorem owns_of_reaches (hu : usage ∈ g.usages) (h : Reaches g.scope usage q) : g.Owns q := by
  intro i hi
  rcases h.mem_atoms hi with hq | ⟨e, he, hq⟩
  · exact ⟨usage, List.mem_append_right _ hu, hq⟩
  · exact ⟨e, List.mem_append_left _ he, hq⟩

theorem regular_of_compile (h : compile config doc = .ok g) (hu : usage ∈ g.usages) :
    usage.Regular g.scope g.Owns where
  plain := plain_of_compile h usage hu
  distinct := (distinct_of_compile h).singleton hu
  reach _ := owns_of_reaches hu

/-- A usage that was matched exists, and was run. -/
theorem run_of_matchAlternative {b : Bool} (h : g.matchAlternative i s = .ok b t) :
    (g.usages[i]? = none ∧ b = false ∧ t = s) ∨
      ∃ usage n log, g.usages[i]? = some usage ∧ Run g.scope n false usage s log b t := by
  unfold matchAlternative at h
  cases hu : g.usages[i]? with
  | none =>
    simp only [hu] at h
    cases h
    exact .inl ⟨rfl, rfl, rfl⟩
  | some usage =>
    simp only [hu, MatchM.bind_eq_ok, MatchM.argv_eq_ok] at h
    obtain ⟨_, _, ⟨rfl, rfl⟩, h⟩ := h
    obtain ⟨log, h⟩ := run_of_matchPattern h
    exact .inr ⟨usage, _, log, rfl, h⟩

/-- A usage that matches an empty table has all its required commands and arguments
filled, and so are the required options that no loan can do without. -/
theorem matchAlternative_fills_required {argv : Argv} (hg : compile config doc = .ok g)
    (h : g.matchAlternative i ⟨.blank g.slotCount, argv⟩ = .ok true t) :
    ∃ usage, g.usages[i]? = some usage ∧
      (∀ leaf, Owes usage (.command leaf) → (t.slots.get leaf.slot).isTruthy = true) ∧
      (∀ leaf, Owes usage (.argument leaf) → (t.slots.get leaf.slot).texts ≠ []) ∧
      ∀ o, Assures usage (.option o) → (t.slots.get o.slot).isTruthy = true := by
  rcases run_of_matchAlternative h with ⟨-, hb, -⟩ | ⟨usage, n, log, hu, run⟩
  · cases hb
  · have hp := regular_of_compile hg (List.mem_of_getElem? hu)
    have hL := apart_of_distinct (distinct_of_compile hg)
    have hty : Typed g.Owns (Slots.blank g.slotCount) := Typed.blank _
    have hfill (b : Positional) (hb : Owes usage b.pattern) : b.isFilled t.slots = true :=
      run.isFilled hp hL hty hb
    refine ⟨usage, hu, fun leaf hl => hfill (.command leaf) hl, ?_, ?_⟩
    · intro leaf hl
      have hf : (t.slots.get leaf.slot).hasText = true := hfill (.argument leaf) hl
      intro he
      cases hs : t.slots.get leaf.slot <;> simp_all [Slot.hasText, Slot.texts]
    · refine run.assured hp hL hty (Pattern.settled_of_not_filled ?_)
      intro b _
      cases b <;> simp [Positional.isFilled, Slot.isTruthy, Slot.hasText]

/-- In `-a (-b go) <x>... <y>`, the arguments `go 1 2 -b` need a loan. -/
theorem lending_usage :
    ∃ g argv t a b go x y, compile {} "Usage: prog -a (-b go) <x>... <y>" = .ok g ∧
      g.tokenize ["go", "1", "2", "-b"] = .ok argv ∧
      g.matchAlternative 0 ⟨.blank g.slotCount, argv⟩ = .ok true t ∧
      g.usages[0]? = some (.required [.option a, .required [.option b, .command go],
        .group .required [.argument x] true, .argument y]) ∧
      (t.slots.get a.slot).isTruthy = false := by
  obtain ⟨g, hg, husage, argv, ht, t, hm, hunmet⟩ :
      ∃ g, compile {} "Usage: prog -a (-b go) <x>... <y>" = .ok g ∧
        g.usages[0]? = some (.required [.option ⟨.singleton "-a", none, none, 0⟩,
          .required [.option ⟨.singleton "-b", none, none, 1⟩, .command ⟨.singleton "go", 2⟩],
          .group .required [.argument ⟨.singleton "<x>", 3⟩] true,
          .argument ⟨.singleton "<y>", 4⟩]) ∧
        ∃ argv, g.tokenize ["go", "1", "2", "-b"] = .ok argv ∧
          ∃ t, g.matchAlternative 0 ⟨.blank g.slotCount, argv⟩ = .ok true t ∧
            (t.slots.get 0).isTruthy = false := by decide +kernel
  exact ⟨g, argv, t, _, _, _, _, _, hg, ht, hm, husage, hunmet⟩

/-- The group in front of the lender has all that it requires. -/
theorem group_before_lender_fills_required :
    ∃ g argv t b go y, compile {} "Usage: prog -a (-b go) <x>... <y>" = .ok g ∧
      g.matchAlternative 0 ⟨.blank g.slotCount, argv⟩ = .ok true t ∧
      (t.slots.get b).isTruthy = true ∧ (t.slots.get go).isTruthy = true ∧
      (t.slots.get y).texts ≠ [] := by
  obtain ⟨g, argv, t, a, b, go, x, y, hg, -, hm, hu, -⟩ := lending_usage
  obtain ⟨usage, hu', hcommand, hargument, hoption⟩ := matchAlternative_fills_required hg hm
  obtain rfl := Option.some.inj (hu.symm.trans hu')
  have hgo : Owes (.required [.option b, .command go]) (.command go) :=
    .child (List.mem_cons_of_mem _ List.mem_cons_self) (.leaf rfl)
  have hgroup : Pattern.Secured ([.option a, .required [.option b, .command go]] ++
      [.group .required [.argument x] true, .argument y]) (.required [.option b, .command go]) :=
    Pattern.secured_of_before (b := .command go) (by simp; exact ⟨rfl, rfl⟩) (by simp) hgo
  have hb : Pattern.Secured [.option b, .command go] (.option b) :=
    Pattern.secured_of_no_lender (by simp; exact ⟨rfl, rfl⟩) List.mem_cons_self
  exact ⟨g, argv, t, b.slot, go.slot, y.slot, hg, hm, hoption b (.child hgroup (.child hb .refl)),
    hcommand go (.child (List.mem_cons_of_mem _ List.mem_cons_self) hgo),
    hargument y (.child (by simp) (.leaf rfl))⟩

/-- The option in front of it is required, too, and never appeared. -/
theorem option_beside_lender_is_not_met :
    ∃ g argv t usage o, compile {} "Usage: prog -a (-b go) <x>... <y>" = .ok g ∧
      g.tokenize ["go", "1", "2", "-b"] = .ok argv ∧
      g.matchAlternative 0 ⟨.blank g.slotCount, argv⟩ = .ok true t ∧
      g.usages[0]? = some usage ∧ Owes usage (.option o) ∧
      (t.slots.get o.slot).isTruthy = false := by
  obtain ⟨g, argv, t, a, b, go, x, y, hg, htok, hm, hu, ha⟩ := lending_usage
  exact ⟨g, argv, t, _, a, hg, htok, hm, hu, .child List.mem_cons_self (.leaf rfl), ha⟩

end Synopsis.Grammar
