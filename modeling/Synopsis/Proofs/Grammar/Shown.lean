import Synopsis.Grammar.Match
import Synopsis.Proofs.Collections
import Synopsis.Proofs.Help.Alternatives

/-! # What a report has under a key

The report of a usage merges, key by key, what its leaves report under the key. All that a
leaf has to know about the pattern around it is whether it can be met again.
-/

namespace Synopsis

variable {μ ν : Type} {key : String}

/-- What a map has under a key is right for some mentions, and it has nothing if there
are none. -/
def Shows (R : List μ → ν → Prop) (m : OrderedMap String ν) (key : String) (xs : List μ) : Prop :=
  if xs = [] then m.find? key = none else ∃ v, m.find? key = some v ∧ R xs v

namespace Shows

variable {R : List μ → ν → Prop} {m n : OrderedMap String ν} {xs ys : List μ}

theorem nil_iff : Shows R m key [] ↔ m.find? key = none := by
  simp [Shows]

theorem empty : Shows R ∅ key [] := nil_iff.mpr rfl

theorem iff_of_ne (h : xs ≠ []) : Shows R m key xs ↔ ∃ v, m.find? key = some v ∧ R xs v := by
  simp [Shows, h]

theorem map_iff {α : Type} {f : α → μ} {l : List α} :
    Shows R m key (l.map f) ↔ Shows (fun l => R (l.map f)) m key l := by
  simp [Shows]

/-- All mentions may count as one. -/
theorem collapse {α : Type} {Q : List α → ν → Prop} {x : α} (h : Shows R m key xs)
    (hR : ∀ v, R xs v → Q [x] v) : Shows Q m key (if xs = [] then [] else [x]) := by
  by_cases hx : xs = []
  · rw [if_pos hx]
    exact nil_iff.mpr (nil_iff.mp (hx ▸ h))
  · rw [if_neg hx]
    obtain ⟨v, hv, hown⟩ := (iff_of_ne hx).mp h
    exact (iff_of_ne (List.cons_ne_nil _ _)).mpr ⟨v, hv, hR v hown⟩

/-- Merging maps key by key appends their mentions. -/
theorem merge {f : String → ν → ν → ν} (hf : ∀ a b, R xs a → R ys b → R (xs ++ ys) (f key a b))
    (hm : Shows R m key xs) (hn : Shows R n key ys) :
    Shows R (n.entries.foldl (fun m e => m.insertWith (f e.1) e.1 e.2) m) key (xs ++ ys) := by
  have hfind : (n.entries.foldl (fun m e => m.insertWith (f e.1) e.1 e.2) m).find? key =
      (n.find? key).elim (m.find? key) fun v => some ((m.find? key).elim v (f key · v)) :=
    OrderedMap.find?_foldl_insertWith
  by_cases hy : ys = []
  · subst hy
    rw [nil_iff] at hn
    rw [hn, Option.elim_none] at hfind
    rw [List.append_nil]
    unfold Shows at hm ⊢
    rwa [hfind]
  · obtain ⟨w, hw, hwr⟩ := (iff_of_ne hy).mp hn
    rw [hw, Option.elim_some] at hfind
    refine (iff_of_ne (by simp [hy])).mpr ⟨_, hfind, ?_⟩
    by_cases hx : xs = []
    · subst hx
      rw [nil_iff.mp hm]
      exact hwr
    · obtain ⟨v, hv, hvr⟩ := (iff_of_ne hx).mp hm
      rw [hv]
      exact hf v w hvr hwr

/-- Of two maps the second one wins. -/
theorem union (hlast : ∀ a b, R xs a → R ys b → R (xs ++ ys) b) (hm : Shows R m key xs)
    (hn : Shows R n key ys) : Shows R (m.union n) key (xs ++ ys) := by
  have hfind := OrderedMap.find?_union (m := m) (n := n) (k := key)
  by_cases hy : ys = []
  · subst hy
    rw [nil_iff.mp hn, Option.none_or] at hfind
    rw [List.append_nil]
    unfold Shows at hm ⊢
    rwa [hfind]
  · obtain ⟨w, hw, hwr⟩ := (iff_of_ne hy).mp hn
    rw [hw, Option.some_or] at hfind
    refine (iff_of_ne (by simp [hy])).mpr ⟨w, hfind, ?_⟩
    by_cases hx : xs = []
    · exact hx ▸ hwr
    · obtain ⟨v, -, hvr⟩ := (iff_of_ne hx).mp hm
      exact hlast v w hvr hwr

theorem const {keys : List String} {v : ν} {x : μ} (hk : key ∈ keys) (hv : R [x] v) :
    Shows R (.const keys v) key [x] := by
  refine (iff_of_ne (by simp)).mpr ⟨v, ?_, hv⟩
  rw [OrderedMap.find?_const, if_pos hk]

theorem const_of_notMem {keys : List String} {v : ν} (hk : key ∉ keys) :
    Shows R (.const keys v) key [] := by
  rw [nil_iff, OrderedMap.find?_const, if_neg hk]

end Shows

/-! ## Leaves in their places -/

namespace Pattern

mutual

/-- The leaves of a pattern, each with whether it can be met again. -/
def placed (inRepeat : Bool) : Pattern → List (Pattern × Bool)
  | .option o => [(.option o, inRepeat)]
  | .command leaf => [(.command leaf, inRepeat)]
  | .argument leaf => [(.argument leaf, inRepeat)]
  | .shortcut s => [(.shortcut s, inRepeat)]
  | .group _ ps repeats => placedAll (inRepeat || repeats) ps
  | .either ps => placedAll inRepeat ps

def placedAll (inRepeat : Bool) : List Pattern → List (Pattern × Bool)
  | [] => []
  | p :: ps => placed inRepeat p ++ placedAll inRepeat ps

end

mutual

theorem map_fst_placed : ∀ (p : Pattern) (inRepeat : Bool), (p.placed inRepeat).map (·.1) = p.leaves
  | .option _, _ | .command _, _ | .argument _, _ | .shortcut _, _ => rfl
  | .group _ ps repeats, inRepeat => map_fst_placedAll ps (inRepeat || repeats)
  | .either ps, inRepeat => map_fst_placedAll ps inRepeat

theorem map_fst_placedAll : ∀ (ps : List Pattern) (inRepeat : Bool),
    (placedAll inRepeat ps).map (·.1) = leavesAll ps
  | [], _ => rfl
  | p :: ps, inRepeat => by
    rw [placedAll, leavesAll, List.map_append, map_fst_placed, map_fst_placedAll]

end

theorem mem_leaves_of_placed {p : Pattern} {inRepeat : Bool} {x : Pattern × Bool}
    (h : x ∈ p.placed inRepeat) : x.1 ∈ p.leaves :=
  p.map_fst_placed inRepeat ▸ List.mem_map_of_mem h

mutual

/-- In a repeating group, everything can be met again. -/
theorem again_of_placed {x : Pattern × Bool} : ∀ {p : Pattern}, x ∈ p.placed true → x.2 = true
  | .option _, h | .command _, h | .argument _, h | .shortcut _, h => by
    rw [List.mem_singleton.mp h]
  | .group _ _ _, h | .either _, h => again_of_placedAll h

theorem again_of_placedAll {x : Pattern × Bool} : ∀ {ps : List Pattern},
    x ∈ placedAll true ps → x.2 = true
  | _ :: _, h => (List.mem_append.mp h).elim again_of_placed again_of_placedAll

end

end Pattern

namespace Reporter

variable {r : Reporter} {slots : Slots} {f : Pattern × Bool → List μ}

/-! ## Usages that matched -/

section Collect

variable {R : List μ → Reported → Prop}

mutual

/-- If what each leaf reports is right for some mentions, then what a usage that matched
reports is right for all of them. -/
theorem shows_of_leaves
    (hmerge : ∀ xs ys a b, R xs a → R ys b → R (xs ++ ys) (Reported.merge key a b)) : ∀ {p : Pattern} (inRepeat : Bool),
    (∀ x ∈ p.placed inRepeat, Shows R (r.collect slots x.2 x.1) key (f x)) →
    Shows R (r.collect slots inRepeat p) key ((p.placed inRepeat).flatMap f)
  | .option _, _, h | .command _, _, h | .argument _, _, h | .shortcut _, _, h => by
    rw [Pattern.placed, List.flatMap_singleton]
    exact h _ (List.mem_singleton_self _)
  | .group _ _ repeats, inRepeat, h => shows_of_leavesAll hmerge (inRepeat || repeats) .empty h
  | .either _, inRepeat, h => shows_of_leavesAll hmerge inRepeat .empty h

theorem shows_of_leavesAll
    (hmerge : ∀ xs ys a b, R xs a → R ys b → R (xs ++ ys) (Reported.merge key a b)) :
    ∀ {ps : List Pattern} {m : OrderedMap String Reported} {xs : List μ} (inRepeat : Bool), Shows R m key xs →
    (∀ x ∈ Pattern.placedAll inRepeat ps, Shows R (r.collect slots x.2 x.1) key (f x)) →
    Shows R (r.collectAll slots inRepeat m ps) key (xs ++ (Pattern.placedAll inRepeat ps).flatMap f)
  | [], _, xs, _, hm, _ => by
    rw [Pattern.placedAll, List.flatMap_nil, List.append_nil]
    exact hm
  | p :: ps, m, xs, inRepeat, hm, h => by
    obtain ⟨hp, hps⟩ := List.forall_mem_append.mp h
    rw [Pattern.placedAll, List.flatMap_append, ← List.append_assoc]
    exact shows_of_leavesAll hmerge inRepeat
      (hm.merge (hmerge _ _) (shows_of_leaves hmerge inRepeat hp)) hps

end

end Collect

/-! ## Usages that did not match -/

section Neutral

variable {R : List μ → Value → Prop} {L : List (Pattern × Bool) → Prop}

mutual

/-- The same of a usage that did not match. Without alternations, only leaves that can be
met again replace others. -/
theorem shows_neutral_of_leaves
    (hmerge : ∀ xs ys a b, R xs a → R ys b → R (xs ++ ys) (mergeNeutral a b))
    (hlast : ∀ xs qs a b, L qs → R xs a → R (qs.flatMap f) b → R (xs ++ qs.flatMap f) b)
    (hagain : ∀ qs, (∀ x ∈ qs, x.2 = true) → L qs) :
    ∀ {p : Pattern} (inRepeat : Bool), (p.Plain ∨ ∀ qs, L qs) →
      (∀ x ∈ p.placed inRepeat, Shows R (r.neutral x.2 x.1) key (f x)) →
      Shows R (r.neutral inRepeat p) key ((p.placed inRepeat).flatMap f)
  | .option _, _, _, h | .command _, _, _, h | .argument _, _, _, h | .shortcut _, _, _, h => by
    rw [Pattern.placed, List.flatMap_singleton]
    exact h _ (List.mem_singleton_self _)
  | .group _ _ repeats, inRepeat, hp, h => by
    have hps := fun c hc => hp.imp_left fun hp => hp.children c hc
    rw [neutral]
    rw [Pattern.placed] at h ⊢
    generalize (inRepeat || repeats) = again at h ⊢
    cases again with
    | true =>
      refine shows_neutralLast_of_leaves hmerge hlast hagain true .empty (fun c hc => ?_) h
      exact ⟨hps c hc, hagain _ fun _ => Pattern.again_of_placed⟩
    | false => exact shows_neutralMerged_of_leaves hmerge hlast hagain .empty hps h
  | .either _, inRepeat, hp, h => by
    have hL := hp.resolve_left nofun
    exact shows_neutralLast_of_leaves hmerge hlast hagain inRepeat .empty
      (fun _ _ => ⟨.inr hL, hL _⟩) h

theorem shows_neutralLast_of_leaves
    (hmerge : ∀ xs ys a b, R xs a → R ys b → R (xs ++ ys) (mergeNeutral a b))
    (hlast : ∀ xs qs a b, L qs → R xs a → R (qs.flatMap f) b → R (xs ++ qs.flatMap f) b)
    (hagain : ∀ qs, (∀ x ∈ qs, x.2 = true) → L qs) :
    ∀ {ps : List Pattern} {m : OrderedMap String Value} {xs : List μ} (inRepeat : Bool),
      Shows R m key xs → (∀ p ∈ ps, (p.Plain ∨ ∀ qs, L qs) ∧ L (p.placed inRepeat)) →
      (∀ x ∈ Pattern.placedAll inRepeat ps, Shows R (r.neutral x.2 x.1) key (f x)) →
      Shows R (r.neutralLast inRepeat m ps) key (xs ++ (Pattern.placedAll inRepeat ps).flatMap f)
  | [], _, xs, _, hm, _, _ => by
    rw [Pattern.placedAll, List.flatMap_nil, List.append_nil]
    exact hm
  | p :: ps, m, xs, inRepeat, hm, hp, h => by
    obtain ⟨⟨hp, hL⟩, hps⟩ := List.forall_mem_cons.mp hp
    obtain ⟨h, hrest⟩ := List.forall_mem_append.mp h
    rw [Pattern.placedAll, List.flatMap_append, ← List.append_assoc]
    exact shows_neutralLast_of_leaves hmerge hlast hagain inRepeat
      (hm.union (hlast xs _ · · hL) (shows_neutral_of_leaves hmerge hlast hagain inRepeat hp h))
      hps hrest

theorem shows_neutralMerged_of_leaves
    (hmerge : ∀ xs ys a b, R xs a → R ys b → R (xs ++ ys) (mergeNeutral a b))
    (hlast : ∀ xs qs a b, L qs → R xs a → R (qs.flatMap f) b → R (xs ++ qs.flatMap f) b)
    (hagain : ∀ qs, (∀ x ∈ qs, x.2 = true) → L qs) :
    ∀ {ps : List Pattern} {m : OrderedMap String Value} {xs : List μ},
      Shows R m key xs → (∀ p ∈ ps, p.Plain ∨ ∀ qs, L qs) →
      (∀ x ∈ Pattern.placedAll false ps, Shows R (r.neutral x.2 x.1) key (f x)) →
      Shows R (r.neutralMerged m ps) key (xs ++ (Pattern.placedAll false ps).flatMap f)
  | [], _, xs, hm, _, _ => by
    rw [Pattern.placedAll, List.flatMap_nil, List.append_nil]
    exact hm
  | p :: ps, m, xs, hm, hp, h => by
    obtain ⟨hp, hps⟩ := List.forall_mem_cons.mp hp
    obtain ⟨h, hrest⟩ := List.forall_mem_append.mp h
    rw [Pattern.placedAll, List.flatMap_append, ← List.append_assoc]
    refine shows_neutralMerged_of_leaves hmerge hlast hagain ?_ hps hrest
    exact hm.merge (f := fun _ => mergeNeutral) (hmerge _ _)
      (shows_neutral_of_leaves hmerge hlast hagain false hp h)

end

end Neutral

end Reporter

end Synopsis
