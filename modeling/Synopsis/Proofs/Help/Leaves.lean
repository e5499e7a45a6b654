import Synopsis.Help.Resolve
import Synopsis.Proofs.Help.Alternatives

/-! # Leaves of the usages of a line

Splitting a line into usages drops leaves and merges arguments, and nothing else
happens to its leaves. So what holds of all leaves of a line, and of arguments merged
from such, holds of the leaves of its usages.
-/

namespace Synopsis.Pattern

variable {p q : Pattern} {ps : List Pattern} {kind : GroupKind} {repeats : Bool}

@[simp] theorem mem_leaves_group :
    q ∈ leaves (.group kind ps repeats) ↔ ∃ p ∈ ps, q ∈ p.leaves := by
  rw [leaves, leavesAll_eq_flatMap, List.mem_flatMap]

@[simp] theorem mem_leaves_either : q ∈ leaves (.either ps) ↔ ∃ p ∈ ps, q ∈ p.leaves := by
  rw [leaves, leavesAll_eq_flatMap, List.mem_flatMap]

theorem mem_options {o : OptionAtom} : o ∈ p.options ↔ .option o ∈ p.leaves := by
  rw [options, List.mem_filterMap]
  constructor
  · rintro ⟨q, hq, ho⟩
    cases q with
    | option => exact Option.some.inj ho ▸ hq
    | command | argument | group | either | shortcut => cases ho
  · exact fun h => ⟨_, h, rfl⟩

/-- Groups and alternations have children. -/
def isInner : Pattern → Bool
  | .group _ _ _ | .either _ => true
  | _ => false

mutual

theorem isInner_of_mem_leaves : ∀ {p : Pattern}, q ∈ p.leaves → q.isInner = false
  | .option _, h | .command _, h | .argument _, h | .shortcut _, h => by
    rw [List.mem_singleton.mp h]
    rfl
  | .group _ _ _, h | .either _, h => isInner_of_mem_leavesAll h

theorem isInner_of_mem_leavesAll : ∀ {ps : List Pattern}, q ∈ leavesAll ps →
    q.isInner = false
  | _ :: _, h => (List.mem_append.mp h).elim isInner_of_mem_leaves isInner_of_mem_leavesAll

end

/-- All leaves outside value patterns have a property. -/
abbrev Leafwise (L : Pattern → Prop) (p : Pattern) : Prop := ∀ q ∈ p.leaves, L q

variable {L : Pattern → Prop}

theorem leafwise_group : Leafwise L (.group kind ps repeats) ↔ ∀ p ∈ ps, Leafwise L p := by
  simp only [Leafwise, mem_leaves_group]
  grind

theorem leafwise_either : Leafwise L (.either ps) ↔ ∀ p ∈ ps, Leafwise L p := by
  simp only [Leafwise, mem_leaves_either]
  grind

/-! ## Expansion and order -/

mutual

theorem leafwise_expand : ∀ {p : Pattern}, Leafwise L p → ∀ q ∈ expand p, Leafwise L q
  | .option _, h | .command _, h | .argument _, h | .shortcut _, h =>
    List.forall_mem_singleton.mpr h
  | .group _ _ _, h =>
    List.forall_mem_map.mpr fun qs hqs =>
      leafwise_group.mpr (leafwise_expandAll (leafwise_group.mp h) qs hqs)
  | .either _, h => leafwise_expandEach (leafwise_either.mp h)

theorem leafwise_expandEach : ∀ {ps : List Pattern}, (∀ p ∈ ps, Leafwise L p) →
    ∀ q ∈ expandEach ps, Leafwise L q
  | [], _ => nofun
  | _ :: _, h => by
    obtain ⟨hp, hps⟩ := List.forall_mem_cons.mp h
    exact List.forall_mem_append.mpr ⟨leafwise_expand hp, leafwise_expandEach hps⟩

theorem leafwise_expandAll : ∀ {ps : List Pattern}, (∀ p ∈ ps, Leafwise L p) →
    ∀ qs ∈ expandAll ps, ∀ q ∈ qs, Leafwise L q
  | [], _ => List.forall_mem_singleton.mpr nofun
  | p :: ps, h => by
    obtain ⟨hp, hps⟩ := List.forall_mem_cons.mp h
    intro qs hqs
    obtain ⟨q, hq, hqs⟩ := List.mem_flatMap.mp hqs
    obtain ⟨rest, hrest, rfl⟩ := List.mem_map.mp hqs
    exact List.forall_mem_cons.mpr ⟨leafwise_expand hp q hq, leafwise_expandAll hps rest hrest⟩

end

mutual

theorem leafwise_optionsAhead : ∀ {p : Pattern}, Leafwise L p → Leafwise L p.optionsAhead
  | .option _, h | .command _, h | .argument _, h | .shortcut _, h | .either _, h => h
  | .group _ _ _, h => by
    have hchildren := leafwise_optionsAheadAll (leafwise_group.mp h)
    exact leafwise_group.mpr (List.forall_mem_append.mpr
      ⟨fun q hq => hchildren q (List.mem_filter.mp hq).1,
        fun q hq => hchildren q (List.mem_filter.mp hq).1⟩)

theorem leafwise_optionsAheadAll : ∀ {ps : List Pattern}, (∀ p ∈ ps, Leafwise L p) →
    ∀ q ∈ optionsAheadAll ps, Leafwise L q
  | [], _ => nofun
  | _ :: _, h => by
    obtain ⟨hp, hps⟩ := List.forall_mem_cons.mp h
    exact List.forall_mem_cons.mpr ⟨leafwise_optionsAhead hp, leafwise_optionsAheadAll hps⟩

end

/-! ## Simplification -/

/-- A property of leaves that arguments take over with the names of others. -/
structure Merging (L : Pattern → Prop) : Prop where
  merged {names : List Names}
    (h : ∀ n ∈ names, ∃ leaf : Leaf, leaf.names = n ∧ L (.argument leaf)) :
    L (.argument { names := names.foldl .union {} })

/-- Shortcuts have the property, too, whatever they hide. -/
structure Heritable (L : Pattern → Prop) : Prop extends Merging L where
  shortcut (s : Shortcut) : L (.shortcut s)

theorem leafwise_absorb (h : Leafwise L p) : Leafwise L (absorb kind repeats p) := by
  unfold absorb
  split
  · exact leafwise_group.mpr (leafwise_group.mp h)
  · split
    · exact leafwise_group.mpr (List.forall_mem_singleton.mpr h)
    · exact leafwise_group.mpr (leafwise_group.mp h)
  · exact leafwise_group.mpr (List.forall_mem_singleton.mpr h)

theorem leafwise_collapse (h : ∀ p ∈ ps, Leafwise L p) (hq : collapse kind repeats ps = some q) :
    Leafwise L q := by
  match ps with
  | [] => cases hq
  | [only] =>
    obtain rfl := Option.some.inj hq
    exact leafwise_absorb (h only (by simp))
  | _ :: _ :: _ =>
    obtain rfl := Option.some.inj hq
    exact leafwise_group.mpr h

/-- Alternations that are merged are between groups of one argument each. -/
theorem eq_map_of_mergeArguments? (h : mergeArguments? ps = some q) :
    ∃ (kind : GroupKind) (ls : List Leaf), ls ≠ [] ∧
      ps = ls.map (fun l => .group kind [.argument l] false) ∧
      q = .group kind [.argument { names := (ls.map Leaf.names).foldl .union {} }] false := by
  have split {kind : GroupKind} {ps : List Pattern} {names : List Names}
      (h : ps.mapM (soleArgument? kind) = some names) :
      ∃ ls : List Leaf, ps = ls.map (fun l => .group kind [.argument l] false) ∧
        names = ls.map Leaf.names := by
    induction ps generalizing names with
    | nil => exact ⟨[], rfl, (Option.some.inj h).symm⟩
    | cons p ps ih =>
      simp only [List.mapM_cons, Option.pure_def, Option.bind_eq_bind, Option.bind_eq_some_iff] at h
      obtain ⟨n, hn, rest, hrest, h⟩ := h
      obtain rfl := Option.some.inj h
      obtain ⟨ls, rfl, rfl⟩ := ih hrest
      unfold soleArgument? at hn
      split at hn
      next k l =>
        obtain ⟨rfl, hl⟩ := Option.ite_none_right_eq_some.mp hn
        obtain rfl := Option.some.inj hl
        exact ⟨l :: ls, rfl, rfl⟩
      next => cases hn
  unfold mergeArguments? at h
  split at h
  next kind children repeats rest =>
    obtain ⟨names, hnames, h⟩ := Option.bind_eq_some_iff.mp h
    obtain rfl := Option.some.inj h
    obtain ⟨ls, hls, rfl⟩ := split hnames
    refine ⟨kind, ls, ?_, hls, rfl⟩
    rintro rfl
    cases hls
  next => cases h

namespace Merging

variable (hL : Merging L)
include hL

theorem leafwise_mergeArguments? (h : ∀ p ∈ ps, Leafwise L p) (hq : mergeArguments? ps = some q) :
    Leafwise L q := by
  obtain ⟨kind, ls, -, rfl, rfl⟩ := eq_map_of_mergeArguments? hq
  refine leafwise_group.mpr (List.forall_mem_singleton.mpr (List.forall_mem_singleton.mpr ?_))
  refine hL.merged (List.forall_mem_map.mpr fun leaf hleaf => ⟨leaf, rfl, ?_⟩)
  exact h _ (List.mem_map_of_mem hleaf) _ (by simp [leaves])

theorem leafwise_alternation (h : ∀ p ∈ ps, Leafwise L p) (hq : alternation ps = some q) :
    Leafwise L q := by
  match ps with
  | [] => cases hq
  | p :: ps =>
    obtain rfl := Option.some.inj hq
    cases hm : mergeArguments? (p :: ps) with
    | none => exact leafwise_either.mpr h
    | some q => exact hL.leafwise_mergeArguments? h hm

end Merging

mutual

theorem Merging.leafwise_simplifyWith (hL : Merging L) {keep : Shortcut → Bool} :
    ∀ {p q : Pattern}, Leafwise L p → p.simplifyWith keep = some q → Leafwise L q
  | .option _, _, h, hq | .command _, _, h, hq | .argument _, _, h, hq =>
    Option.some.inj hq ▸ h
  | .shortcut s, q, h, hq => by
    simp only [simplifyWith] at hq
    split at hq
    · exact Option.some.inj hq ▸ h
    · cases hq
  | .group _ _ _, _, h, hq =>
    leafwise_collapse (hL.leafwise_simplifyAll (leafwise_group.mp h)) hq
  | .either _, _, h, hq =>
    hL.leafwise_alternation (hL.leafwise_simplifyAll (leafwise_either.mp h)) hq

theorem Merging.leafwise_simplifyAll (hL : Merging L) {keep : Shortcut → Bool} :
    ∀ {ps : List Pattern}, (∀ p ∈ ps, Leafwise L p) → ∀ q ∈ simplifyAll keep ps, Leafwise L q
  | [], _ => nofun
  | p :: ps, h => by
    obtain ⟨hp, hps⟩ := List.forall_mem_cons.mp h
    refine List.forall_mem_append.mpr ⟨fun q hq => ?_, hL.leafwise_simplifyAll hps⟩
    exact hL.leafwise_simplifyWith hp (Option.mem_toList.mp hq)

end

mutual

theorem leafwise_mapLeaves {f : Pattern → Pattern}
    (hf : ∀ q, q.leaves = [q] → L q → Leafwise L (f q)) :
    ∀ {p : Pattern}, Leafwise L p → Leafwise L (p.mapLeaves f)
  | .option _, h | .command _, h | .argument _, h | .shortcut _, h =>
    hf _ rfl (List.forall_mem_singleton.mp h)
  | .group _ _ _, h => leafwise_group.mpr (leafwise_mapLeavesAll hf (leafwise_group.mp h))
  | .either _, h => leafwise_either.mpr (leafwise_mapLeavesAll hf (leafwise_either.mp h))

theorem leafwise_mapLeavesAll {f : Pattern → Pattern}
    (hf : ∀ q, q.leaves = [q] → L q → Leafwise L (f q)) :
    ∀ {ps : List Pattern}, (∀ p ∈ ps, Leafwise L p) → ∀ q ∈ mapLeavesAll f ps, Leafwise L q
  | [], _ => nofun
  | _ :: _, h => by
    obtain ⟨hp, hps⟩ := List.forall_mem_cons.mp h
    exact List.forall_mem_cons.mpr ⟨leafwise_mapLeaves hf hp, leafwise_mapLeavesAll hf hps⟩

end

theorem Heritable.leafwise_hideOptions (hL : Heritable L) {names : Names} (h : Leafwise L p) :
    Leafwise L (p.hideOptions names) := by
  refine leafwise_mapLeaves (fun q hleaf hq => ?_) h
  split
  · exact List.forall_mem_singleton.mpr (hL.shortcut _)
  · rw [Leafwise, hleaf]
    exact List.forall_mem_singleton.mpr hq

/-- What all leaves of a line have, the leaves of its usages have. -/
theorem Heritable.leafwise_usagesOfLine (hL : Heritable L) {keep : Shortcut → Bool} {line : Pattern}
    (h : Leafwise L line) : ∀ q ∈ Help.usagesOfLine keep line, Leafwise L q := by
  have simplified {p : Pattern} (hp : Leafwise L p) :
      Leafwise L ((p.simplifyWith keep).getD (.optional [])) := by
    cases hs : p.simplifyWith keep with
    | none => exact leafwise_group.mpr nofun
    | some q => exact hL.leafwise_simplifyWith hp hs
  exact List.forall_mem_map.mpr fun p hp => leafwise_optionsAhead
    (simplified (leafwise_expand (simplified (hL.leafwise_hideOptions h)) p hp))

end Synopsis.Pattern
