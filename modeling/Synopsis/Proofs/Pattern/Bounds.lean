import Mathlib
import Synopsis.Proofs.Grammar.NoArguments
import Synopsis.Proofs.Matcher.Single
import Synopsis.Proofs.Pattern.Counts

/-! # The bounds of an arity

Of commands and arguments in groups, the arity counts the leaves that no optional group
holds, and all leaves. It has no upper bound if a group repeats that is not empty.
-/

namespace Synopsis

namespace Arity

variable {a : Arity} {c : Count} {m n : Nat}

theorem isLE_least (h : c ∈ a.toList) : (compare a.least c).isLE := by
  obtain ⟨_ | ⟨d, ds⟩, sorted⟩ := a
  · cases h
  · rcases List.mem_cons.mp h with rfl | h
    · exact Std.ReflCmp.isLE_rfl
    · exact Ordering.isLE_of_eq_lt (List.rel_of_pairwise_cons sorted h)

theorem isLE_greatest (h : c ∈ a.toList) : (compare c a.greatest).isLE := by
  obtain ⟨toList, sorted⟩ := a
  obtain rfl | ⟨front, last, rfl⟩ := List.eq_nil_or_concat' toList
  · cases h
  have hlast : greatest ⟨front ++ [last], sorted⟩ = last := by simp [greatest]
  rw [hlast]
  rcases List.mem_append.mp h with h | h
  · exact Ordering.isLE_of_eq_lt
      ((List.pairwise_append.mp sorted).2.2 c h last (List.mem_singleton_self _))
  · rw [List.mem_singleton.mp h]
    exact Std.ReflCmp.isLE_rfl

theorem exists_least (h : .exactly n ∈ a.toList) : ∃ m ≤ n, a.least = .exactly m := by
  have hle := isLE_least h
  cases hl : a.least with
  | exactly m => exact ⟨m, by simpa [hl, Nat.isLE_compare] using hle, rfl⟩
  | unbounded => simp [hl] at hle

theorem le_of_greatest (hn : .exactly n ∈ a.toList) (hm : a.greatest = .exactly m) : n ≤ m := by
  have hle := isLE_greatest hn
  simpa [hm, Nat.isLE_compare] using hle

theorem unbounded_notMem (hm : a.greatest = .exactly m) : .unbounded ∉ a.toList := fun h => by
  have hle := isLE_greatest h
  simp [hm] at hle

end Arity

namespace Pattern

/-- Commands and arguments in groups. -/
inductive Verbal : Pattern → Prop
  | command {leaf : Leaf} : Verbal (.command leaf)
  | argument {leaf : Leaf} : Verbal (.argument leaf)
  | group {kind : GroupKind} {ps : List Pattern} {repeats : Bool} (h : ∀ c ∈ ps, Verbal c) :
      Verbal (.group kind ps repeats)

/-- The number of leaves that no optional group holds. -/
def owed : Pattern → Nat
  | .command _ | .argument _ => 1
  | .group .required ps _ => owedAll ps
  | _ => 0
where
  owedAll : List Pattern → Nat
    | [] => 0
    | p :: ps => owed p + owedAll ps

variable {p q : Pattern} {ps : List Pattern} {counts : Arity} {n : Nat}

theorem owedAll_eq_sum (ps : List Pattern) : owed.owedAll ps = (ps.map owed).sum := by
  induction ps with
  | nil => rfl
  | cons p ps ih => rw [owed.owedAll, ih, List.map_cons, List.sum_cons]

/-- Numbers that children can take add up. -/
theorem exactly_mem_arityOfChildren {f : Pattern → Nat} (hn : .exactly n ∈ counts.toList)
    (h : ∀ p ∈ ps, .exactly (f p) ∈ p.arity.toList) :
    .exactly (n + (ps.map f).sum) ∈ (arityOfChildren counts ps).toList := by
  induction ps generalizing counts n with
  | nil => exact hn
  | cons p ps ih =>
    obtain ⟨hp, hps⟩ := List.forall_mem_cons.mp h
    rw [List.map_cons, List.sum_cons, ← Nat.add_assoc]
    exact ih (Arity.mem_sum.mpr ⟨_, hn, _, hp, rfl⟩) hps

theorem unbounded_mem_arityOfChildren (hc : counts.toList ≠ [])
    (h : ∀ p ∈ ps, p.arity.toList ≠ [])
    (hu : .unbounded ∈ counts.toList ∨ ∃ p ∈ ps, .unbounded ∈ p.arity.toList) :
    .unbounded ∈ (arityOfChildren counts ps).toList := by
  induction ps generalizing counts with
  | nil => simpa [arityOfChildren] using hu
  | cons p ps ih =>
    obtain ⟨hp, hps⟩ := List.forall_mem_cons.mp h
    refine ih (Arity.sum_ne_nil hc hp) hps ?_
    have hsum {m n : Count} (hm : m ∈ counts.toList) (hn : n ∈ p.arity.toList)
        (hmn : m.plus n = .unbounded) : .unbounded ∈ (counts.sum p.arity).toList :=
      Arity.mem_sum.mpr ⟨m, hm, n, hn, hmn⟩
    rcases hu with hu | ⟨q, hq, hu⟩
    · obtain ⟨n, hn⟩ := List.exists_mem_of_ne_nil _ hp
      exact .inl (hsum hu hn (by cases n <;> rfl))
    · rcases List.mem_cons.mp hq with rfl | hq
      · obtain ⟨m, hm⟩ := List.exists_mem_of_ne_nil _ hc
        exact .inl (hsum hm hu (by cases m <;> rfl))
      · exact .inr ⟨q, hq, hu⟩

namespace Verbal

theorem plain (h : Verbal p) : Plain p := by
  induction h with
  | command | argument => constructor
  | group _ ih => exact .group ih

theorem exactly_owed_mem (h : Verbal p) : .exactly p.owed ∈ p.arity.toList := by
  induction h with
  | command | argument => exact List.mem_singleton_self _
  | @group kind ps repeats _ ih =>
    rw [mem_arity_group]
    cases kind with
    | required =>
      rw [owed, owedAll_eq_sum, ← Nat.zero_add (List.sum _)]
      exact .inl (exactly_mem_arityOfChildren (Arity.mem_flag.mpr rfl) ih)
    | optional => exact .inr (.inr ⟨rfl, rfl⟩)

theorem exactly_atoms_mem (h : Verbal p) : .exactly p.atoms.length ∈ p.arity.toList := by
  induction h with
  | command | argument => exact List.mem_singleton_self _
  | @group kind ps repeats _ ih =>
    rw [mem_arity_group, atoms, atomsAll_eq_flatMap, List.length_flatMap,
      ← Nat.zero_add (List.sum _)]
    exact .inl (exactly_mem_arityOfChildren (Arity.mem_flag.mpr rfl) ih)

/-- Within bounds, no leaf lies in a group that repeats. -/
theorem once_of_mem_atoms (h : Verbal p) (hu : .unbounded ∉ p.arity.toList) (hq : q ∈ p.atoms) :
    p.Once q := by
  induction h with
  | command | argument =>
    rw [List.mem_singleton.mp hq]
    exact .refl
  | @group kind ps repeats h ih =>
    rw [atoms, atomsAll_eq_flatMap] at hq
    obtain ⟨c, hc, hq⟩ := List.mem_flatMap.mp hq
    rw [mem_arity_group, not_or, not_or] at hu
    obtain ⟨hchildren, hrepeats, -⟩ := hu
    have hc' : .unbounded ∉ c.arity.toList := fun hmem => hchildren
      (unbounded_mem_arityOfChildren (List.cons_ne_nil _ _)
        (fun p hp => (h p hp).plain.arity_ne_nil) (.inr ⟨c, hc, hmem⟩))
    obtain rfl : repeats = false := by
      by_contra hr
      exact hrepeats ⟨⟨by simpa using hr, List.ne_nil_of_mem hc⟩, rfl⟩
    exact .child hc (ih c hc hc' hq)

end Verbal

end Pattern

end Synopsis
