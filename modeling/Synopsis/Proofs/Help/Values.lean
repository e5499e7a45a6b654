import Synopsis.Matcher.Lending
import Synopsis.Pattern.Arity
import Synopsis.Pattern.Simplify
import Synopsis.Proofs.Collections
import Synopsis.Proofs.Record.Pattern

/-! # What the arity of a value says

Every alternation that was read has a branch. A value of commands and arguments can then
take something, unless it is made of empty brackets.
-/

namespace Synopsis

/-! ## Arities -/

/-- Nothing but zero is counted. -/
def Arity.Vanishes (a : Arity) : Prop := ∀ c ∈ a.toList, c = .exactly 0

namespace Arity

variable {a b : Arity} {c : Count}

theorem plus_eq_zero {m n : Count} (h : m.plus n = .exactly 0) : m = .exactly 0 ∧ n = .exactly 0 := by
  cases m <;> cases n <;> simp_all [Count.plus]

theorem mem_sum : c ∈ (a.sum b).toList ↔ ∃ m ∈ a.toList, ∃ n ∈ b.toList, m.plus n = c := by
  rw [sum, OrderedSet.mem_ofList]
  simp

theorem sum_ne_nil (ha : a.toList ≠ []) (hb : b.toList ≠ []) : (a.sum b).toList ≠ [] := by
  obtain ⟨m, hm⟩ := List.exists_mem_of_ne_nil _ ha
  obtain ⟨n, hn⟩ := List.exists_mem_of_ne_nil _ hb
  exact List.ne_nil_of_mem (mem_sum.mpr ⟨m, hm, n, hn, rfl⟩)

theorem vanishes_of_sum (ha : a.toList ≠ []) (hb : b.toList ≠ []) (h : (a.sum b).Vanishes) :
    a.Vanishes ∧ b.Vanishes := by
  obtain ⟨m, hm⟩ := List.exists_mem_of_ne_nil _ ha
  obtain ⟨n, hn⟩ := List.exists_mem_of_ne_nil _ hb
  exact ⟨fun m hm => (plus_eq_zero (h _ (mem_sum.mpr ⟨m, hm, n, hn, rfl⟩))).1,
    fun n hn => (plus_eq_zero (h _ (mem_sum.mpr ⟨m, hm, n, hn, rfl⟩))).2⟩

section

variable {P : Prop} [Decidable P]

theorem ite_insert_ne_nil (ha : a.toList ≠ []) : (if P then a.insert c else a).toList ≠ [] := by
  split
  · exact List.ne_nil_of_mem (OrderedSet.mem_insert.mpr (.inl rfl))
  · exact ha

theorem vanishes_of_ite_insert (h : Vanishes (if P then a.insert c else a)) : a.Vanishes := by
  split at h
  · exact fun d hd => h d (OrderedSet.mem_insert.mpr (.inr hd))
  · exact h

end

theorem vanishes_flag : flag.Vanishes := by
  simp [Vanishes, flag]

end Arity

namespace Pattern

/-! ## Alternations -/

/-- No alternation is without branches, outside the values of options. -/
inductive Branched : Pattern → Prop
  | option {o : OptionAtom} : Branched (.option o)
  | command {leaf : Leaf} : Branched (.command leaf)
  | argument {leaf : Leaf} : Branched (.argument leaf)
  | group {kind : GroupKind} {children : List Pattern} {repeats : Bool}
      (h : ∀ c ∈ children, Branched c) : Branched (.group kind children repeats)
  | either {branches : List Pattern} (hne : branches ≠ []) (h : ∀ c ∈ branches, Branched c) :
      Branched (.either branches)
  | shortcut {s : Shortcut} : Branched (.shortcut s)

variable {p q : Pattern} {ps : List Pattern}

/-- Some pattern can take a number of values, and nothing only if it has no leaves. -/
structure Definite (p : Pattern) : Prop where
  counts : p.arity.toList ≠ []
  leafless : p.arity.Vanishes → p.leaves = []

theorem definite_arityOfChildren {counts : Arity} (hc : counts.toList ≠ [])
    (h : ∀ p ∈ ps, Definite p) : (arityOfChildren counts ps).toList ≠ [] ∧
      ((arityOfChildren counts ps).Vanishes → counts.Vanishes ∧ ∀ p ∈ ps, p.leaves = []) := by
  induction ps generalizing counts with
  | nil => exact ⟨hc, fun hz => ⟨hz, nofun⟩⟩
  | cons p ps ih =>
    obtain ⟨hp, hps⟩ := List.forall_mem_cons.mp h
    obtain ⟨hne, hz⟩ := ih (Arity.sum_ne_nil hc hp.counts) hps
    refine ⟨hne, fun hall => ?_⟩
    obtain ⟨hsum, hrest⟩ := hz hall
    obtain ⟨hcounts, hown⟩ := Arity.vanishes_of_sum hc hp.counts hsum
    exact ⟨hcounts, List.forall_mem_cons.mpr ⟨hp.leafless hown, hrest⟩⟩

theorem mem_arityOfBranches {c : Count} :
    c ∈ (arityOfBranches ps).toList ↔ ∃ p ∈ ps, c ∈ p.arity.toList := by
  induction ps with
  | nil => exact ⟨nofun, nofun⟩
  | cons p ps ih => rw [arityOfBranches, OrderedSet.mem_union, ih, List.exists_mem_cons_iff]

/-- Commands and arguments count. -/
theorem Branched.definite (h : p.Branched) (hw : ∀ q ∈ p.leaves, q.positional?.isSome) :
    Definite p := by
  induction h with
  | option | shortcut => cases hw _ (List.mem_singleton_self _)
  | command | argument =>
    refine ⟨List.cons_ne_nil _ _, fun hz => ?_⟩
    cases hz (.exactly 1) (List.mem_singleton_self _)
  | @group kind ps repeats _ ih =>
    rw [leaves, leavesAll_eq_flatMap] at hw
    have hflag : Arity.flag.toList ≠ [] := List.cons_ne_nil _ _
    obtain ⟨hne, hz⟩ := definite_arityOfChildren hflag
      fun p hp => ih p hp fun q hq => hw q (List.mem_flatMap.mpr ⟨p, hp, hq⟩)
    refine ⟨Arity.ite_insert_ne_nil (Arity.ite_insert_ne_nil hne), fun hall => ?_⟩
    rw [leaves, leavesAll_eq_flatMap]
    have hcounts := Arity.vanishes_of_ite_insert (Arity.vanishes_of_ite_insert hall)
    exact List.flatMap_eq_nil_iff.mpr (hz hcounts).2
  | @either ps hempty _ ih =>
    rw [leaves, leavesAll_eq_flatMap] at hw
    have hps (p : Pattern) (hp : p ∈ ps) : Definite p :=
      ih p hp fun q hq => hw q (List.mem_flatMap.mpr ⟨p, hp, hq⟩)
    constructor
    · obtain ⟨p, hp⟩ := List.exists_mem_of_ne_nil _ hempty
      obtain ⟨c, hc⟩ := List.exists_mem_of_ne_nil _ (hps p hp).counts
      exact List.ne_nil_of_mem (mem_arityOfBranches.mpr ⟨p, hp, hc⟩)
    · intro hz
      rw [leaves, leavesAll_eq_flatMap]
      exact List.flatMap_eq_nil_iff.mpr fun p hp => (hps p hp).leafless fun c hc =>
        hz c (mem_arityOfBranches.mpr ⟨p, hp, hc⟩)

/-- A value of arity zero has no leaves. -/
theorem Branched.leaves_eq_nil (h : p.Branched) (hw : ∀ q ∈ p.leaves, q.positional?.isSome)
    (ha : p.arity = Arity.flag) : p.leaves = [] :=
  (h.definite hw).leafless (ha ▸ Arity.vanishes_flag)

/-! ## Simplification -/

theorem branched_absorb {kind : GroupKind} {repeats : Bool} (h : p.Branched) :
    (absorb kind repeats p).Branched := by
  have hps {kind : GroupKind} {ps : List Pattern} {repeats : Bool}
      (h : Branched (.group kind ps repeats)) : ∀ p ∈ ps, Branched p := by
    cases h with
    | group h => exact h
  unfold absorb
  split
  · exact .group (hps h)
  · split
    · exact .group (List.forall_mem_singleton.mpr h)
    · exact .group (hps h)
  · exact .group (List.forall_mem_singleton.mpr h)

theorem branched_mergeArguments? (h : mergeArguments? ps = some q) : q.Branched := by
  unfold mergeArguments? at h
  split at h
  · obtain ⟨names, -, h⟩ := Option.bind_eq_some_iff.mp h
    obtain rfl := Option.some.inj h
    exact .group (List.forall_mem_singleton.mpr .argument)
  · cases h

mutual

/-- Simplification leaves no alternation empty. -/
theorem branched_simplifyWith {keep : Shortcut → Bool} : ∀ {p q : Pattern},
    p.simplifyWith keep = some q → q.Branched
  | .option _, _, h => Option.some.inj h ▸ .option
  | .command _, _, h => Option.some.inj h ▸ .command
  | .argument _, _, h => Option.some.inj h ▸ .argument
  | .shortcut _, _, h => by
    simp only [simplifyWith, Option.ite_none_right_eq_some, Option.some.injEq] at h
    exact h.2 ▸ .shortcut
  | .group _ ps _, _, h => by
    have hps := branched_simplifyAll keep ps
    rw [simplifyWith] at h
    unfold collapse at h
    split at h
    · cases h
    next only heq =>
      obtain rfl := Option.some.inj h
      exact branched_absorb (hps only (heq ▸ List.mem_singleton_self only))
    next =>
      obtain rfl := Option.some.inj h
      exact .group hps
  | .either ps, q, h => by
    have hps := branched_simplifyAll keep ps
    rw [simplifyWith] at h
    unfold alternation at h
    split at h
    · cases h
    next hne =>
      obtain rfl := Option.some.inj h
      cases hm : mergeArguments? (simplifyAll keep ps) with
      | none => exact .either hne hps
      | some q => exact branched_mergeArguments? hm

theorem branched_simplifyAll (keep : Shortcut → Bool) : ∀ ps : List Pattern,
    ∀ q ∈ simplifyAll keep ps, q.Branched
  | [] => nofun
  | p :: ps => by
    refine List.forall_mem_append.mpr ⟨fun q hq => ?_, branched_simplifyAll keep ps⟩
    exact branched_simplifyWith (Option.mem_toList.mp hq)

end

/-! ## Slots -/

theorem Branched.unnumbered (h : p.Branched) : p.unnumbered.Branched := by
  induction h with
  | @option o =>
    obtain ⟨names, _ | v, fallback, slot⟩ := o <;> exact .option
  | command => exact .command
  | argument => exact .argument
  | shortcut => exact .shortcut
  | group _ ih =>
    rw [Pattern.unnumbered, unnumberedAll_eq_map]
    exact .group (List.forall_mem_map.mpr ih)
  | either hne _ ih =>
    rw [Pattern.unnumbered, unnumberedAll_eq_map]
    exact .either (by simpa using hne) (List.forall_mem_map.mpr ih)

mutual

theorem branched_of_unnumbered : ∀ {p : Pattern}, p.unnumbered.Branched → p.Branched
  | .option _, _ => .option
  | .command _, _ => .command
  | .argument _, _ => .argument
  | .shortcut _, _ => .shortcut
  | .group _ ps _, h => by
    cases h with
    | group h => exact .group (branched_of_unnumberedAll h)
  | .either ps, h => by
    cases h with
    | either hne h => exact .either (by rintro rfl; exact hne rfl) (branched_of_unnumberedAll h)

theorem branched_of_unnumberedAll : ∀ {ps : List Pattern}, (∀ p ∈ unnumberedAll ps, p.Branched) →
    ∀ p ∈ ps, p.Branched
  | [], _ => nofun
  | p :: ps, h => by
    obtain ⟨hp, hps⟩ := List.forall_mem_cons.mp h
    exact List.forall_mem_cons.mpr ⟨branched_of_unnumbered hp, branched_of_unnumberedAll hps⟩

end

end Pattern

/-- The value of an option has no empty alternation. -/
def OptionOf.ValueBranched (o : OptionAtom) : Prop := ∀ v, o.value = some v → v.Branched

end Synopsis
