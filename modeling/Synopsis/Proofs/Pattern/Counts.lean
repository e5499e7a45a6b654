import Synopsis.Grammar.Match
import Synopsis.Proofs.Outcomes
import Synopsis.Proofs.Pattern.NormalForm

/-! # Simplification and arity

A simplified pattern can take the same numbers of values, as long as nothing that counts
disappears: a branch that lets an alternation take nothing, or a group that repeats.
-/

namespace Synopsis

namespace Arity

variable {a b : Arity} {c : Count}

theorem mem_flag : c ∈ flag.toList ↔ c = .exactly 0 := List.mem_singleton

theorem sum_flag (a : Arity) : a.sum flag = a := by
  have hzero (m : Count) : m.plus (.exactly 0) = m := by cases m <;> rfl
  apply OrderedSet.ext
  simp [mem_sum, mem_flag, hzero]

theorem flag_sum (a : Arity) : flag.sum a = a := by
  have hzero (m : Count) : (Count.exactly 0).plus m = m := by
    cases m with
    | exactly n => exact congrArg Count.exactly (Nat.zero_add n)
    | unbounded => rfl
  apply OrderedSet.ext
  simp [mem_sum, mem_flag, hzero]

end Arity

namespace Pattern

/-- The numbers of values that what is left of a pattern can take. -/
def countsOf (r : Option Pattern) : Arity := r.elim Arity.flag arity

/-- No leaf is kept. -/
def Vanishes (keep : Shortcut → Bool) (p : Pattern) : Prop :=
  ∀ l ∈ p.leaves, isKept keep l = false

/-- Nothing that counts disappears. A group that repeats keeps something, unless it is
empty. If a branch of an alternation goes, another one stays that can take nothing, or all
of them go. -/
inductive Sparing (keep : Shortcut → Bool) : Pattern → Prop
  | leaf {p : Pattern} (h : p.isInner = false) : Sparing keep p
  | group {kind : GroupKind} {ps : List Pattern} {repeats : Bool} (h : ∀ p ∈ ps, Sparing keep p)
      (hr : repeats = true → ps ≠ [] → ∃ p ∈ ps, ¬ Vanishes keep p) :
      Sparing keep (.group kind ps repeats)
  | either {ps : List Pattern} (hne : ps ≠ []) (h : ∀ p ∈ ps, Sparing keep p)
      (hz : (∃ p ∈ ps, Vanishes keep p) → (∃ p ∈ ps, ¬ Vanishes keep p) →
        ∃ p ∈ ps, ¬ Vanishes keep p ∧ .exactly 0 ∈ p.arity.toList) :
      Sparing keep (.either ps)

/-- The patterns that stand directly in a group or an alternation. -/
def inside : Pattern → List Pattern
  | .group _ ps _ | .either ps => ps
  | _ => []

variable {keep : Shortcut → Bool} {p q : Pattern} {ps qs : List Pattern} {kind inner : GroupKind}
  {repeats again : Bool} {c : Count}

theorem vanishes_iff : Vanishes keep p ↔ p.simplifyWith keep = none :=
  simplifyWith_eq_none_iff.symm

theorem simplifyAll_eq_nil_iff : simplifyAll keep ps = [] ↔ ∀ p ∈ ps, Vanishes keep p := by
  simp only [simplifyAll_eq_filterMap, List.filterMap_eq_nil_iff, vanishes_iff]

theorem simplifyAll_ne_nil_iff : simplifyAll keep ps ≠ [] ↔ ∃ p ∈ ps, ¬ Vanishes keep p := by
  rw [ne_eq, simplifyAll_eq_nil_iff]
  push Not
  rfl

/-! ## Groups -/

theorem mem_arity_group : c ∈ (group kind ps repeats).arity.toList ↔
    c ∈ (arityOfChildren Arity.flag ps).toList ∨ (repeats = true ∧ ps ≠ []) ∧ c = .unbounded ∨
      kind = .optional ∧ c = .exactly 0 := by
  have insert {P : Prop} [Decidable P] {a : Arity} {d : Count} :
      c ∈ (if P then a.insert d else a).toList ↔ c ∈ a.toList ∨ P ∧ c = d := by
    split
    next hP => simp [OrderedSet.mem_insert, hP, or_comm]
    next hP => simp [hP]
  rw [arity, insert, insert, or_assoc]
  simp

theorem mem_arity_only : c ∈ (group kind [p] repeats).arity.toList ↔
    c ∈ p.arity.toList ∨ repeats = true ∧ c = .unbounded ∨ kind = .optional ∧ c = .exactly 0 := by
  rw [mem_arity_group, arityOfChildren, arityOfChildren, Arity.flag_sum]
  simp

theorem merge_eq_optional_iff :
    kind.merge inner = .optional ↔ kind = .optional ∨ inner = .optional := by
  cases kind <;> cases inner <;> decide

/-- Two nested groups have the counts of the one that they become. -/
theorem arity_absorb (h : Normal p) :
    (absorb kind repeats p).arity = (group kind [p] repeats).arity := by
  have plain (hp : p.isGroup = false) : (absorb kind repeats p).arity =
      (group kind [p] repeats).arity := by rw [absorb_of_not_group hp]
  have single {inner : GroupKind} {p : Pattern} {again : Bool} :
      (group (kind.merge inner) [p] (repeats || again)).arity =
        (group kind [group inner [p] again] repeats).arity := by
    apply OrderedSet.ext
    intro c
    rw [mem_arity_only, mem_arity_only, mem_arity_only, merge_eq_optional_iff, Bool.or_eq_true]
    tauto
  cases h with
  | leaf hp => exact plain (isGroup_eq_false hp)
  | only | parenthesized => exact single
  | @several inner p q ps again =>
    rw [Normal.absorb_of_length (by simp)]
    split
    next hkinds => rw [hkinds.1]
    next hkinds =>
      apply OrderedSet.ext
      intro c
      rw [mem_arity_only, mem_arity_group, mem_arity_group, Bool.or_eq_true]
      cases kind <;> cases inner <;> simp at hkinds ⊢ <;> tauto
  | either => exact plain rfl

theorem countsOf_collapse (h : ∀ p ∈ ps, Normal p) (hne : ps ≠ []) :
    countsOf (collapse kind repeats ps) = (group kind ps repeats).arity := by
  match ps with
  | [] => exact absurd rfl hne
  | [p] => exact arity_absorb (h p (List.mem_singleton_self p))
  | _ :: _ :: _ => rfl

/-- What disappears from a group takes nothing. -/
theorem arityOfChildren_simplifyAll
    (h : ∀ p ∈ ps, countsOf (p.simplifyWith keep) = p.arity) (counts : Arity) :
    arityOfChildren counts (simplifyAll keep ps) = arityOfChildren counts ps := by
  induction ps generalizing counts with
  | nil => rfl
  | cons p ps ih =>
    obtain ⟨hp, hps⟩ := List.forall_mem_cons.mp h
    rw [simplifyAll, arityOfChildren, ← hp]
    cases p.simplifyWith keep with
    | none =>
      rw [countsOf, Option.elim_none, Arity.sum_flag]
      exact ih hps counts
    | some q => exact ih hps _

theorem countsOf_group (h : ∀ p ∈ ps, countsOf (p.simplifyWith keep) = p.arity) :
    countsOf ((group kind ps repeats).simplifyWith keep) = (group kind ps repeats).arity ↔
      (repeats = true → ps ≠ [] → ∃ p ∈ ps, ¬ Vanishes keep p) := by
  have hcounts := arityOfChildren_simplifyAll h Arity.flag
  rw [simplifyWith]
  by_cases hnil : simplifyAll keep ps = []
  · rw [hnil] at hcounts ⊢
    have hgone : ¬ ∃ p ∈ ps, ¬ Vanishes keep p := fun h => simplifyAll_ne_nil_iff.mpr h hnil
    constructor
    · intro he hr hne
      have hmem : Count.unbounded ∈ (group kind ps repeats).arity.toList :=
        mem_arity_group.mpr (.inr (.inl ⟨⟨hr, hne⟩, rfl⟩))
      rw [← he] at hmem
      cases Arity.mem_flag.mp hmem
    · intro hr
      apply OrderedSet.ext
      intro c
      rw [mem_arity_group, ← hcounts]
      have hrepeats : ¬(repeats = true ∧ ps ≠ []) := fun ⟨hrep, hne⟩ => hgone (hr hrep hne)
      change c ∈ Arity.flag.toList ↔ c ∈ Arity.flag.toList ∨ _
      rw [Arity.mem_flag]
      tauto
  · have hleft := simplifyAll_ne_nil_iff.mp hnil
    have hne : ps ≠ [] := by
      rintro rfl
      exact hnil rfl
    apply iff_of_true _ fun _ _ => hleft
    rw [countsOf_collapse (forall_mem_simplifyAll fun _ _ _ => normal_of_simplifyWith) hnil]
    apply OrderedSet.ext
    intro c
    rw [mem_arity_group, mem_arity_group, hcounts]
    simp only [ne_eq, hnil, hne, not_false_eq_true, and_true]

/-! ## Alternations -/

theorem countsOf_alternation (hne : ps ≠ []) : countsOf (alternation ps) = arityOfBranches ps := by
  obtain ⟨p, ps, rfl⟩ := List.exists_cons_of_ne_nil hne
  cases hm : mergeArguments? (p :: ps) with
  | none => simp [alternation, hm, countsOf, arity]
  | some q =>
    obtain ⟨kind, ls, hls, hps, rfl⟩ := eq_map_of_mergeArguments? hm
    simp only [alternation, hm, countsOf, Option.getD_some, Option.elim_some]
    rw [hps]
    apply OrderedSet.ext
    intro c
    obtain ⟨l, ls, rfl⟩ := List.exists_cons_of_ne_nil hls
    rw [mem_arityOfBranches]
    constructor
    · intro hc
      exact ⟨_, List.mem_map_of_mem List.mem_cons_self, hc⟩
    · rintro ⟨p, hp, hc⟩
      obtain ⟨l, -, rfl⟩ := List.mem_map.mp hp
      exact hc

/-- What goes takes nothing. -/
theorem arity_of_vanishes (h : countsOf (p.simplifyWith keep) = p.arity) (hv : Vanishes keep p) :
    p.arity = Arity.flag := by
  rw [← h, vanishes_iff.mp hv]
  rfl

/-- Of the branches of an alternation, those that stay keep their counts. -/
theorem mem_arityOfBranches_simplifyAll (h : ∀ p ∈ ps, countsOf (p.simplifyWith keep) = p.arity) :
    c ∈ (arityOfBranches (simplifyAll keep ps)).toList ↔
      ∃ p ∈ ps, ¬ Vanishes keep p ∧ c ∈ p.arity.toList := by
  rw [mem_arityOfBranches]
  constructor
  · rintro ⟨q, hq, hc⟩
    obtain ⟨p, hp, hpq⟩ := Plain.mem_simplifyAll.mp hq
    refine ⟨p, hp, fun hv => ?_, ?_⟩
    · cases hpq.symm.trans (vanishes_iff.mp hv)
    · rwa [← h p hp, hpq]
  · rintro ⟨p, hp, hv, hc⟩
    obtain ⟨q, hpq⟩ := Option.ne_none_iff_exists'.mp (mt vanishes_iff.mpr hv)
    rw [← h p hp, hpq] at hc
    exact ⟨q, Plain.mem_simplifyAll.mpr ⟨p, hp, hpq⟩, hc⟩

theorem countsOf_either (h : ∀ p ∈ ps, countsOf (p.simplifyWith keep) = p.arity) :
    countsOf ((either ps).simplifyWith keep) = (either ps).arity ↔
      ps ≠ [] ∧ ((∃ p ∈ ps, Vanishes keep p) → (∃ p ∈ ps, ¬ Vanishes keep p) →
        ∃ p ∈ ps, ¬ Vanishes keep p ∧ .exactly 0 ∈ p.arity.toList) := by
  rw [simplifyWith, arity]
  by_cases hnil : simplifyAll keep ps = []
  · have hall := simplifyAll_eq_nil_iff.mp hnil
    rw [hnil]
    constructor
    · intro he
      constructor
      · rintro rfl
        cases he
      · rintro - ⟨p, hp, hv⟩
        exact absurd (hall p hp) hv
    · rintro ⟨hne, -⟩
      apply OrderedSet.ext
      intro c
      rw [mem_arityOfBranches]
      constructor
      · intro hc
        obtain ⟨p, hp⟩ := List.exists_mem_of_ne_nil _ hne
        exact ⟨p, hp, arity_of_vanishes (h p hp) (hall p hp) ▸ hc⟩
      · rintro ⟨p, hp, hc⟩
        rwa [arity_of_vanishes (h p hp) (hall p hp)] at hc
  · rw [countsOf_alternation hnil]
    have hleft := simplifyAll_ne_nil_iff.mp hnil
    have hne : ps ≠ [] := by
      rintro rfl
      exact hnil rfl
    constructor
    · intro he
      refine ⟨hne, ?_⟩
      rintro ⟨p, hp, hv⟩ -
      rw [← mem_arityOfBranches_simplifyAll h, he, mem_arityOfBranches]
      exact ⟨p, hp, arity_of_vanishes (h p hp) hv ▸ Arity.mem_flag.mpr rfl⟩
    · rintro ⟨-, hz⟩
      apply OrderedSet.ext
      intro c
      rw [mem_arityOfBranches_simplifyAll h, mem_arityOfBranches]
      constructor
      · rintro ⟨p, hp, -, hc⟩
        exact ⟨p, hp, hc⟩
      · rintro ⟨p, hp, hc⟩
        by_cases hv : Vanishes keep p
        · rw [arity_of_vanishes (h p hp) hv, Arity.mem_flag] at hc
          exact hc ▸ hz ⟨p, hp, hv⟩ hleft
        · exact ⟨p, hp, hv, hc⟩

/-! ## Whole patterns -/

theorem countsOf_leaf (h : p.isInner = false) : countsOf (p.simplifyWith keep) = p.arity := by
  rw [simplifyWith_leaf h]
  cases p with
  | option | command | argument => rfl
  | shortcut => split <;> rfl
  | group | either => cases h

theorem Sparing.countsOf_eq (h : Sparing keep p) : countsOf (p.simplifyWith keep) = p.arity := by
  induction h with
  | leaf h => exact countsOf_leaf h
  | group _ hr ih => exact (countsOf_group ih).mpr hr
  | either hne _ hz ih => exact (countsOf_either ih).mpr ⟨hne, hz⟩

/-- Simplification keeps the numbers of values that a pattern can take if nothing that counts
disappears, and it does not if that fails for the pattern but for none of its parts. -/
theorem countsOf_simplifyWith (h : ∀ q ∈ p.inside, Sparing keep q) :
    countsOf (p.simplifyWith keep) = p.arity ↔ Sparing keep p := by
  refine ⟨fun he => ?_, Sparing.countsOf_eq⟩
  cases p with
  | option | command | argument | shortcut => exact .leaf rfl
  | group kind ps repeats =>
    exact .group h ((countsOf_group fun q hq => (h q hq).countsOf_eq).mp he)
  | either ps =>
    obtain ⟨hne, hz⟩ := (countsOf_either fun q hq => (h q hq).countsOf_eq).mp he
    exact .either hne h hz

/-- A shortcut that goes beside an argument that may be missing. -/
theorem counts_without_shortcut :
    ∃ keep p, p = either [.optional [.shortcut ⟨"", {}⟩], .optional [argumentNamed "<a>"]] ∧
      (∀ q ∈ p.inside, Sparing keep q) ∧ Sparing keep p ∧ countsOf (p.simplifyWith keep) = p.arity := by
  let keep : Shortcut → Bool := fun _ => false
  let p := either [.optional [.shortcut ⟨"", {}⟩], .optional [argumentNamed "<a>"]]
  have around {q : Pattern} (hq : q.isInner = false) : Sparing keep (.optional [q]) :=
    .group (List.forall_mem_singleton.mpr (.leaf hq)) nofun
  have inside : ∀ q ∈ p.inside, Sparing keep q := by
    intro q hq
    rcases List.mem_pair.mp hq with rfl | rfl
    · exact around rfl
    · exact around rfl
  have stays : ¬ Vanishes keep (.optional [argumentNamed "<a>"]) := by
    rw [vanishes_iff]
    decide
  have whole : Sparing keep p :=
    .either nofun inside fun _ _ => ⟨_, List.mem_pair.mpr (.inr rfl), stays, by decide⟩
  exact ⟨keep, p, rfl, inside, whole, (countsOf_simplifyWith inside).mpr whole⟩

/-- Without the branch that goes, the argument beside it must be given. -/
theorem counts_lose_zero :
    (∃ keep p, p = either [.required [.shortcut ⟨"", {}⟩], .required [argumentNamed "<a>"]] ∧
      p.arity = .ofList [.exactly 0, .exactly 1] ∧
      countsOf (p.simplifyWith keep) = .ofList [.exactly 1]) ∧
    ∃ g, Grammar.compile {} "Usage: prog ([options] | <a>)" = .ok g ∧
      g.matchArgs [] = .error (.error .noUsageMatched) :=
  ⟨⟨fun _ => false, _, rfl, by decide, by decide⟩, by decide +kernel⟩

end Pattern

end Synopsis
