import Synopsis.Matcher.Lending
import Synopsis.Matcher.Recorded

/-! # What a match can reach

The patterns that lie in a pattern, in the value patterns of its options, or behind
its shortcuts, and the leaves among them.
-/

namespace Synopsis

namespace Pattern

/-- What an option, a command or an argument records by itself. -/
def ownRecord? : Pattern → Option Recorded
  | .option o => some ⟨.hits, o.slot⟩
  | .command leaf => some ⟨.hits, leaf.slot⟩
  | .argument leaf => some ⟨.texts, leaf.slot⟩
  | _ => none

def slot? (p : Pattern) : Option Nat := p.ownRecord?.map (·.slot)

end Pattern

namespace Positional

def pattern : Positional → Pattern
  | .command leaf => .command leaf
  | .argument leaf => .argument leaf

@[simp] theorem slot?_pattern (p : Positional) : p.pattern.slot? = some p.slot := by
  cases p <;> rfl

theorem pattern_injective {p q : Positional} (h : p.pattern = q.pattern) : p = q := by
  cases p <;> cases q <;> simp_all [pattern]

end Positional

namespace Pattern

inductive Reaches (scope : Scope) : Pattern → Pattern → Prop
  | refl {p : Pattern} : Reaches scope p p
  | value {o : OptionAtom} {v q : Pattern} (hv : o.value = some v) (h : Reaches scope v q) :
      Reaches scope (.option o) q
  | child {kind : GroupKind} {children : List Pattern} {repeats : Bool} {c q : Pattern}
      (hc : c ∈ children) (h : Reaches scope c q) :
      Reaches scope (.group kind children repeats) q
  | branch {branches : List Pattern} {c q : Pattern} (hc : c ∈ branches)
      (h : Reaches scope c q) : Reaches scope (.either branches) q
  | entry {sc : Shortcut} {c q : Pattern} (hc : c ∈ scope.visible sc) (h : Reaches scope c q) :
      Reaches scope (.shortcut sc) q

variable {scope : Scope} {n : Nat} {p q r : Pattern} {leaves : List Recorded}

theorem mem_entries_of_visible {sc : Shortcut} (h : p ∈ scope.visible sc) :
    p ∈ scope.registry.entries := by
  obtain ⟨g, hg, hp⟩ := List.mem_flatMap.mp (List.mem_filter.mp h).1
  exact List.mem_flatMap.mpr ⟨g, (List.mem_filter.mp hg).1, hp⟩

theorem Reaches.trans (h : Reaches scope p q) (h' : Reaches scope q r) : Reaches scope p r := by
  induction h with
  | refl => exact h'
  | value hv _ ih => exact .value hv (ih h')
  | child hc _ ih => exact .child hc (ih h')
  | branch hc _ ih => exact .branch hc (ih h')
  | entry hc _ ih => exact .entry hc (ih h')

theorem mapM_flatten_some {f : Pattern → Option (List Recorded)} {ps : List Pattern}
    (h : (ps.mapM f).map List.flatten = some leaves) :
    (∀ p ∈ ps, (f p).isSome) ∧ ∀ r, r ∈ leaves ↔ ∃ p ∈ ps, ∃ rs, f p = some rs ∧ r ∈ rs := by
  obtain ⟨rss, hm, rfl⟩ := Option.map_eq_some_iff.mp h
  clear h
  induction ps generalizing rss with
  | nil =>
    obtain rfl : [] = rss := by simpa using hm
    simp
  | cons p ps ih =>
    simp only [List.mapM_cons, Option.pure_def, Option.bind_eq_bind,
      Option.bind_eq_some_iff, Option.some.injEq] at hm
    obtain ⟨rs, hp, rss, hm, rfl⟩ := hm
    obtain ⟨hs, hr⟩ := ih _ hm
    simpa [hr, hp] using hs

/-- `recorded?` lists what the leaves in reach record. -/
theorem mem_recorded_iff (h : p.recorded? scope n = some leaves) {r : Recorded} :
    r ∈ leaves ↔ ∃ q, Reaches scope p q ∧ q.ownRecord? = some r := by
  induction n generalizing p leaves r with
  | zero => simp [recorded?] at h
  | succ n ih =>
    -- The leaves of some parts of the pattern together.
    have all {ps : List Pattern} {rs : List Recorded}
        (hps : (ps.mapM (recorded? scope n)).map List.flatten = some rs) :
        r ∈ rs ↔ ∃ p ∈ ps, ∃ q, Reaches scope p q ∧ q.ownRecord? = some r := by
      obtain ⟨hs, hr⟩ := mapM_flatten_some hps
      rw [hr]
      refine exists_congr fun p => and_congr_right ?_
      intro hp
      obtain ⟨rs, hrs⟩ := Option.isSome_iff_exists.mp (hs p hp)
      simp [hrs, ih hrs]
    cases p with
    | option o =>
      simp only [recorded?, Option.bind_eq_bind, Option.bind_eq_some_iff, Option.some.injEq] at h
      obtain ⟨rs, hrs, rfl⟩ := h
      rw [List.mem_cons, all hrs]
      constructor
      · rintro (rfl | ⟨v, hv, q, hq, hr⟩)
        · exact ⟨_, .refl, rfl⟩
        · exact ⟨q, .value (by simpa using hv) hq, hr⟩
      · rintro ⟨q, hq, hr⟩
        cases hq with
        | refl => exact .inl (by simpa [ownRecord?] using hr.symm)
        | value hv hq => exact .inr ⟨_, by simp [hv], q, hq, hr⟩
    | command leaf | argument leaf =>
      obtain rfl := Option.some.inj h
      constructor
      · intro hr
        obtain rfl := List.mem_singleton.mp hr
        exact ⟨_, .refl, rfl⟩
      · rintro ⟨q, hq, hr⟩
        cases hq
        simpa [ownRecord?] using hr.symm
    | group kind children repeats =>
      rw [all h]
      constructor
      · rintro ⟨c, hc, q, hq, hr⟩
        exact ⟨q, .child hc hq, hr⟩
      · rintro ⟨q, hq, hr⟩
        cases hq with
        | refl => cases hr
        | child hc hq => exact ⟨_, hc, q, hq, hr⟩
    | either branches =>
      rw [all h]
      constructor
      · rintro ⟨c, hc, q, hq, hr⟩
        exact ⟨q, .branch hc hq, hr⟩
      · rintro ⟨q, hq, hr⟩
        cases hq with
        | refl => cases hr
        | branch hc hq => exact ⟨_, hc, q, hq, hr⟩
    | shortcut sc =>
      rw [all h]
      constructor
      · rintro ⟨c, hc, q, hq, hr⟩
        exact ⟨q, .entry hc hq, hr⟩
      · rintro ⟨q, hq, hr⟩
        cases hq with
        | refl => cases hr
        | entry hc hq => exact ⟨_, hc, q, hq, hr⟩

end Pattern

end Synopsis
