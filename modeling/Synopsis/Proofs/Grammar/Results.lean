import Synopsis.Proofs.Grammar.Reporting
import Synopsis.Proofs.Grammar.Values

/-! # Results of a match

A result is the report of a usage that took all arguments. In a compiled grammar, the
mentions of an option go by the same names, and no argument goes by one of them.
-/

namespace Synopsis.Grammar

variable {g : Grammar} {raw : List String} {m : Mapping} {o p : OptionAtom}
  {A : OptionAtom → Prop}

/-- A result is that of a usage that took all arguments. -/
theorem exists_of_matchArgs (h : g.matchArgs raw = .ok m) :
    ∃ argv i t, g.tokenize raw = .ok argv ∧
      g.matchAlternative i ⟨.blank g.slotCount, argv⟩ = .ok true t ∧
      t.argv.isExhausted = true ∧ m = g.assemble i t.slots t.argv.checkDash.dashes := by
  have from_ {argv : Argv} {us : List Pattern} {e : MatchError} {i : Nat}
      (h : g.matchFrom argv e i us = .ok m) : ∃ i t,
        g.matchAlternative i ⟨.blank g.slotCount, argv⟩ = .ok true t ∧
        t.argv.isExhausted = true ∧ m = g.assemble i t.slots t.argv.checkDash.dashes := by
    induction us generalizing e i with
    | nil => cases h
    | cons u us ih =>
      unfold matchFrom at h
      split at h
      next b t ha =>
        split at h
        next hb =>
          obtain ⟨rfl, hex⟩ := Bool.and_eq_true_iff.mp hb
          exact ⟨i, t, ha, hex, (Except.ok.inj h).symm⟩
        next => exact ih h
      next => exact ih h
      next => cases h
  unfold matchArgs at h
  split at h
  next => cases h
  next argv ht =>
    obtain ⟨i, t, ha, hex, hm⟩ := from_ h
    exact ⟨argv, i, t, ht, ha, hex, hm⟩

/-! ## Mentions of an option -/

namespace Coherent

variable (hc : g.Coherent) (ho : o ∈ g.options)
include hc ho

theorem apt (hA : ∀ p ∈ g.options, p.names = o.names → A p) (hp : p ∈ g.options) :
    Apt A o.names p := by
  by_cases hn : p.names = o.names
  · exact .inl ⟨hn, hA p hp hn⟩
  · exact .inr fun key hkey hkey' => hn (hc.agree p hp o ho key hkey' hkey).names_eq

theorem aptRegistry (hA : ∀ p ∈ g.options, p.names = o.names → A p) :
    AptRegistry g.registry A o.names :=
  ⟨hc.registry, fun _ hx => hc.apt ho hA (mem_options_of_registry hx)⟩

/-- Commands may have the names of options, though. -/
theorem aptLeaf_of_usage (hA : ∀ p ∈ g.options, p.names = o.names → A p) {u : Pattern}
    (hu : u ∈ g.usages) (hcommand : ∀ leaf, .command leaf ∈ u.leaves →
      ∀ name ∈ leaf.names.toList, name ∉ o.names.toList) : u.Leafwise (AptLeaf A o.names) := by
  intro q hq
  cases q with
  | option p => exact hc.apt ho hA (mem_options_of_usage hu hq)
  | command leaf => exact fun key hkey hname => hcommand leaf hq key hname hkey
  | argument leaf =>
    exact fun key hkey hname => hc.argument u hu leaf hq key hname (hc.optionName o ho key hkey).hyphenated
  | shortcut | group | either => trivial

theorem aptLeaf (hA : ∀ p ∈ g.options, p.names = o.names → A p)
    (hcommand : ∀ u ∈ g.usages, ∀ leaf, .command leaf ∈ u.leaves →
      ∀ name ∈ leaf.names.toList, name ∉ o.names.toList) :
    ∀ u ∈ g.usages, u.Leafwise (AptLeaf A o.names) :=
  fun u hu => hc.aptLeaf_of_usage ho hA hu (hcommand u hu)

end Coherent

end Synopsis.Grammar
