import Mathlib.Data.List.Forall2
import Synopsis.Proofs.Help.Leaves
import Synopsis.Proofs.Help.Values
import Synopsis.Proofs.Record.Pattern

/-! # Usages are choices of branches

A usage of a line consists of the leaves that are left when one branch of each
alternation is chosen. Shortcuts that stand for nothing are missing, and an argument may
have the names of others, if it is all that some branches hold.
-/

namespace Synopsis

theorem OrderedSet.mem_foldl_union {names : List Names} {start : Names} {name : String} :
    name ∈ (names.foldl OrderedSet.union start).toList ↔
      name ∈ start.toList ∨ ∃ n ∈ names, name ∈ n.toList := by
  induction names generalizing start with
  | nil => simp
  | cons n names ih => simp [ih, OrderedSet.mem_union, or_assoc]

namespace Pattern

open List (Forall₂)

/-! ## Leaves and what becomes of them -/

/-- A leaf of a usage for one of its line: an argument may have more names. -/
inductive StandsFor : Pattern → Pattern → Prop
  | same {p : Pattern} : StandsFor p p
  | argument {l l' : Leaf} (h : ∀ name ∈ l'.names.toList, name ∈ l.names.toList) :
      StandsFor (.argument l) (.argument l')

/-- Only shortcuts can go missing. -/
def isKept (keep : Shortcut → Bool) : Pattern → Bool
  | .shortcut s => keep s
  | _ => true

variable {keep : Shortcut → Bool} {p p' q q' r : Pattern} {ps qs : List Pattern} {kind : GroupKind}
  {repeats : Bool}

namespace StandsFor

theorem trans (h : StandsFor p q) (h' : StandsFor q r) : StandsFor p r := by
  cases h with
  | same => exact h'
  | argument h =>
    cases h' with
    | same => exact .argument h
    | argument h' => exact .argument fun name hn => h name (h' name hn)

theorem isKept_eq (h : StandsFor p q) : isKept keep p = isKept keep q := by
  cases h <;> rfl

theorem option_eq {o o' : OptionAtom} (h : StandsFor (.option o) (.option o')) : o = o' := by
  generalize hp : Pattern.option o = p at h
  generalize hq : Pattern.option o' = q at h
  cases h with
  | same => exact Pattern.option.inj (hp.trans hq.symm)
  | argument => cases hp

theorem refl_all (ps : List Pattern) : Forall₂ StandsFor ps ps :=
  List.forall₂_same.mpr fun _ _ => .same

theorem trans_all {ps qs rs : List Pattern} (h : Forall₂ StandsFor ps qs)
    (h' : Forall₂ StandsFor qs rs) : Forall₂ StandsFor ps rs := by
  induction h generalizing rs with
  | nil => exact h'
  | cons h _ ih =>
    cases h' with
    | cons h' hs' => exact .cons (h.trans h') (ih hs')

theorem exists_of_mem {ps qs : List Pattern} (h : Forall₂ StandsFor ps qs) (hp : p ∈ ps) :
    ∃ q ∈ qs, StandsFor p q := by
  induction h with
  | nil => cases hp
  | cons h _ ih =>
    rcases List.mem_cons.mp hp with rfl | hp
    · exact ⟨_, List.mem_cons_self, h⟩
    · obtain ⟨q, hq, hstands⟩ := ih hp
      exact ⟨q, List.mem_cons_of_mem _ hq, hstands⟩

theorem exists_of_mem_right {ps qs : List Pattern} (h : Forall₂ StandsFor ps qs) (hq : q ∈ qs) :
    ∃ p ∈ ps, StandsFor p q := by
  induction h with
  | nil => cases hq
  | cons h _ ih =>
    rcases List.mem_cons.mp hq with rfl | hq
    · exact ⟨_, List.mem_cons_self, h⟩
    · obtain ⟨p, hp, hstands⟩ := ih hq
      exact ⟨p, List.mem_cons_of_mem _ hp, hstands⟩

theorem unnumbered (h : StandsFor p q) : StandsFor p.unnumbered q.unnumbered := by
  cases h with
  | same => exact .same
  | argument h => exact .argument h

end StandsFor

/-- What is left of the leaves of a choice. -/
def leftOf (keep : Shortcut → Bool) (p : Pattern) : List Pattern := p.leaves.filter (isKept keep)

theorem leftOf_group : leftOf keep (.group kind ps repeats) = ps.flatMap (leftOf keep) := by
  rw [leftOf, leaves, leavesAll_eq_flatMap, List.filter_flatMap]
  rfl

/-! ## Simplification -/

/-- Every choice of a simplified pattern is one of the pattern. If nothing is left, some
choice has nothing that is left. -/
def Covers (keep : Shortcut → Bool) (p : Pattern) : Option Pattern → Prop
  | some p' => ∀ q' ∈ p'.expand, ∃ q ∈ p.expand, Forall₂ StandsFor q'.leaves (leftOf keep q)
  | none => ∃ q ∈ p.expand, leftOf keep q = []

theorem mem_expandAll_cons {qs : List Pattern} :
    qs ∈ expandAll (p :: ps) ↔ ∃ q ∈ p.expand, ∃ rest ∈ expandAll ps, qs = q :: rest := by
  simp only [expandAll, List.mem_flatMap, List.mem_map, eq_comm]

theorem mem_expand_group :
    q ∈ expand (.group kind ps repeats) ↔ ∃ qs ∈ expandAll ps, q = .group kind qs repeats := by
  simp only [expand, List.mem_map, eq_comm]

theorem mem_expandAll_singleton : qs ∈ expandAll [p] ↔ ∃ q ∈ p.expand, qs = [q] := by
  simp [expandAll]

theorem mem_expandEach : q ∈ expandEach ps ↔ ∃ p ∈ ps, q ∈ p.expand := by
  induction ps with
  | nil => simp [expandEach]
  | cons p ps ih => simp [expandEach, ih]

/-- The choices of simplified children are choices of the children. -/
theorem covers_children (h : ∀ p ∈ ps, Covers keep p (p.simplifyWith keep)) :
    ∀ qs' ∈ expandAll (simplifyAll keep ps), ∃ qs ∈ expandAll ps,
      Forall₂ StandsFor (qs'.flatMap leaves) (qs.flatMap (leftOf keep)) := by
  induction ps with
  | nil => exact List.forall_mem_singleton.mpr ⟨[], List.mem_singleton_self _, .nil⟩
  | cons p ps ih =>
    obtain ⟨hp, hps⟩ := List.forall_mem_cons.mp h
    intro qs' hqs'
    rw [simplifyAll] at hqs'
    cases hs : p.simplifyWith keep with
    | none =>
      rw [hs] at hp hqs'
      obtain ⟨q, hq, hnone⟩ := hp
      obtain ⟨qs, hqs, hleaves⟩ := ih hps qs' hqs'
      refine ⟨q :: qs, mem_expandAll_cons.mpr ⟨q, hq, qs, hqs, rfl⟩, ?_⟩
      rwa [List.flatMap_cons, hnone, List.nil_append]
    | some p' =>
      rw [hs] at hp hqs'
      obtain ⟨q', hq', rest', hrest', rfl⟩ := mem_expandAll_cons.mp hqs'
      obtain ⟨q, hq, hleaves⟩ := hp q' hq'
      obtain ⟨qs, hqs, hrest⟩ := ih hps rest' hrest'
      refine ⟨q :: qs, mem_expandAll_cons.mpr ⟨q, hq, qs, hqs, rfl⟩, ?_⟩
      rw [List.flatMap_cons, List.flatMap_cons]
      exact List.rel_append hleaves hrest

theorem leaves_of_mem_expand_absorb (h : q ∈ (absorb kind repeats p).expand) :
    ∃ q' ∈ p.expand, q.leaves = q'.leaves := by
  have around {kind : GroupKind} {repeats : Bool} (h : q ∈ (group kind [p] repeats).expand) :
      ∃ q' ∈ p.expand, q.leaves = q'.leaves := by
    obtain ⟨qs, hqs, rfl⟩ := mem_expand_group.mp h
    obtain ⟨q', hq', rfl⟩ := mem_expandAll_singleton.mp hqs
    exact ⟨q', hq', by simp [leaves]⟩
  have inside {kind kind' : GroupKind} {repeats repeats' : Bool} {ps : List Pattern}
      (h : q ∈ (group kind ps repeats).expand) :
      ∃ q' ∈ (group kind' ps repeats').expand, q.leaves = q'.leaves := by
    obtain ⟨qs, hqs, rfl⟩ := mem_expand_group.mp h
    exact ⟨_, mem_expand_group.mpr ⟨qs, hqs, rfl⟩, rfl⟩
  unfold absorb at h
  split at h
  · exact inside h
  · split at h
    · exact around h
    · exact inside h
  · exact around h

theorem covers_collapse (h : ∀ p ∈ ps, Covers keep p (p.simplifyWith keep)) :
    Covers keep (.group kind ps repeats) (collapse kind repeats (simplifyAll keep ps)) := by
  have hall := covers_children h
  generalize simplifyAll keep ps = ps' at hall
  -- A choice of the children is one of the group around them.
  have group {qs' : List Pattern} (hqs' : qs' ∈ expandAll ps') :
      ∃ q ∈ (Pattern.group kind ps repeats).expand,
        Forall₂ StandsFor (qs'.flatMap leaves) (leftOf keep q) := by
    obtain ⟨qs, hqs, hleaves⟩ := hall qs' hqs'
    exact ⟨_, mem_expand_group.mpr ⟨qs, hqs, rfl⟩, by rwa [leftOf_group]⟩
  match ps' with
  | [] =>
    obtain ⟨q, hq, hnone⟩ := group (List.mem_singleton_self _)
    exact ⟨q, hq, List.forall₂_nil_left_iff.mp hnone⟩
  | [only] =>
    intro q' hq'
    obtain ⟨q, hq, hleaves⟩ := leaves_of_mem_expand_absorb hq'
    obtain ⟨q'', hq'', hstands⟩ := group (mem_expandAll_singleton.mpr ⟨q, hq, rfl⟩)
    refine ⟨q'', hq'', ?_⟩
    rw [hleaves]
    simpa using hstands
  | _ :: _ :: _ =>
    intro q' hq'
    obtain ⟨qs', hqs', rfl⟩ := mem_expand_group.mp hq'
    obtain ⟨q, hq, hstands⟩ := group hqs'
    refine ⟨q, hq, ?_⟩
    rwa [leaves, leavesAll_eq_flatMap]

/-- An argument that took over the names of all branches stands for that of the first one. -/
theorem stands_of_mergeArguments? (h : mergeArguments? (p :: ps) = some q) :
    ∃ leaf merged : Leaf, p.expand = [p] ∧ p.leaves = [.argument leaf] ∧
      q.expand = [q] ∧ q.leaves = [.argument merged] ∧
      StandsFor (.argument merged) (.argument leaf) := by
  obtain ⟨kind, ls, -, heq, rfl⟩ := eq_map_of_mergeArguments? h
  cases ls with
  | nil => cases heq
  | cons leaf rest =>
    obtain ⟨rfl, -⟩ := List.cons.inj heq
    refine ⟨leaf, _, rfl, rfl, rfl, rfl, .argument fun name hname => ?_⟩
    exact OrderedSet.mem_foldl_union.mpr (.inr ⟨_, List.mem_cons_self, hname⟩)

theorem covers_alternation (hne : ps ≠ []) (h : ∀ p ∈ ps, Covers keep p (p.simplifyWith keep)) :
    Covers keep (.either ps) (alternation (simplifyAll keep ps)) := by
  have branch {p' : Pattern} (hp' : p' ∈ simplifyAll keep ps) :
      ∀ q' ∈ p'.expand, ∃ q ∈ (Pattern.either ps).expand,
        Forall₂ StandsFor q'.leaves (leftOf keep q) := by
    obtain ⟨p, hp, hs⟩ := Plain.mem_simplifyAll.mp hp'
    have hcovers := h p hp
    rw [hs] at hcovers
    intro q' hq'
    obtain ⟨q, hq, hstands⟩ := hcovers q' hq'
    exact ⟨q, mem_expandEach.mpr ⟨p, hp, hq⟩, hstands⟩
  cases hs : simplifyAll keep ps with
  | nil =>
    obtain ⟨p, ps, rfl⟩ := List.exists_cons_of_ne_nil hne
    have hcovers := h p List.mem_cons_self
    have hnone : p.simplifyWith keep = none := by
      rw [Option.eq_none_iff_forall_not_mem]
      intro p' hp'
      have hmem : p' ∈ simplifyAll keep (p :: ps) :=
        Plain.mem_simplifyAll.mpr ⟨p, List.mem_cons_self, hp'⟩
      rw [hs] at hmem
      cases hmem
    rw [hnone] at hcovers
    obtain ⟨q, hq, hleft⟩ := hcovers
    exact ⟨q, mem_expandEach.mpr ⟨p, List.mem_cons_self, hq⟩, hleft⟩
  | cons p' ps' =>
    rw [hs] at branch
    cases hm : mergeArguments? (p' :: ps') with
    | none =>
      simp only [alternation, hm, Option.getD_none]
      intro q' hq'
      obtain ⟨b, hb, hq'⟩ := mem_expandEach.mp hq'
      exact branch hb q' hq'
    | some m =>
      simp only [alternation, hm, Option.getD_some]
      obtain ⟨leaf, merged, hp', hleaf, hexpand, hmerged, hstands⟩ := stands_of_mergeArguments? hm
      obtain ⟨q, hq, hleft⟩ := branch List.mem_cons_self p' (hp' ▸ List.mem_singleton_self _)
      intro q' hq'
      rw [hexpand] at hq'
      obtain rfl := List.mem_singleton.mp hq'
      refine ⟨q, hq, ?_⟩
      rw [hmerged]
      rw [hleaf] at hleft
      generalize leftOf keep q = left at hleft
      cases hleft with
      | cons hx hnil =>
        cases hnil
        exact .cons (hstands.trans hx) .nil

theorem Branched.covers (keep : Shortcut → Bool) (h : Branched p) : Covers keep p (p.simplifyWith keep) := by
  induction h with
  | option | command | argument =>
    exact List.forall_mem_singleton.mpr ⟨_, List.mem_singleton_self _, StandsFor.refl_all _⟩
  | @shortcut s =>
    rw [simplifyWith]
    have hleft : leftOf keep (.shortcut s) = if keep s then [.shortcut s] else [] := by
      cases hk : keep s <;> simp [leftOf, leaves, isKept, hk]
    split
    next hk =>
      refine List.forall_mem_singleton.mpr ⟨_, List.mem_singleton_self _, ?_⟩
      rw [hleft, if_pos hk]
      exact StandsFor.refl_all _
    next hk => exact ⟨_, List.mem_singleton_self _, by rw [hleft, if_neg hk]⟩
  | group _ ih => exact covers_collapse ih
  | either hne _ ih => exact covers_alternation hne ih

/-! ## Whole lines -/

/-- Without alternations there is nothing to choose. -/
theorem Plain.expand_eq (h : Plain p) : p.expand = [p] := by
  induction h with
  | option | command | argument | shortcut => rfl
  | @group kind children repeats _ ih =>
    have hall : expandAll children = [children] := by
      clear * - ih
      induction children with
      | nil => rfl
      | cons c cs ih' =>
        obtain ⟨hc, hcs⟩ := List.forall_mem_cons.mp ih
        rw [expandAll, hc, ih' hcs]
        rfl
    rw [expand, hall]
    rfl

theorem Plain.branched (h : Plain p) : Branched p := by
  induction h with
  | option | command | argument | shortcut => constructor
  | group _ ih => exact .group ih

mutual

theorem leaves_optionsAhead : ∀ p : Pattern, p.optionsAhead.leaves.Perm p.leaves
  | .option _ | .command _ | .argument _ | .shortcut _ | .either _ => .refl _
  | .group kind ps repeats => by
    simp only [optionsAhead, leaves, leavesAll_eq_flatMap]
    refine (List.Perm.flatMap_right leaves (List.filter_append_perm _ _)).trans ?_
    exact leavesAll_optionsAheadAll ps

theorem leavesAll_optionsAheadAll : ∀ ps : List Pattern,
    ((optionsAheadAll ps).flatMap leaves).Perm (ps.flatMap leaves)
  | [] => .refl _
  | p :: ps => by
    rw [optionsAheadAll, List.flatMap_cons, List.flatMap_cons]
    exact (leaves_optionsAhead p).append (leavesAll_optionsAheadAll ps)

end

mutual

theorem expand_hideOptions (names : Names) : ∀ p : Pattern,
    (p.hideOptions names).expand = p.expand.map (hideOptions names)
  | .option _ | .command _ | .argument _ | .shortcut _ => rfl
  | .group kind ps repeats => by
    have hps := expandAll_hideOptions names ps
    simp only [hideOptions, mapLeaves, mapLeavesAll_eq_map, expand, List.map_map] at hps ⊢
    rw [hps, List.map_map]
    refine List.map_congr_left fun qs _ => ?_
    simp [mapLeaves]
  | .either ps => by
    have hps := expandEach_hideOptions names ps
    simp only [hideOptions, mapLeaves, mapLeavesAll_eq_map, expand] at hps ⊢
    exact hps

theorem expandEach_hideOptions (names : Names) : ∀ ps : List Pattern,
    expandEach (ps.map (hideOptions names)) = (expandEach ps).map (hideOptions names)
  | [] => rfl
  | p :: ps => by
    rw [List.map_cons, expandEach, expandEach, List.map_append, expand_hideOptions names p,
      expandEach_hideOptions names ps]

theorem expandAll_hideOptions (names : Names) : ∀ ps : List Pattern,
    expandAll (ps.map (hideOptions names)) = (expandAll ps).map (List.map (hideOptions names))
  | [] => rfl
  | p :: ps => by
    rw [List.map_cons, expandAll, expandAll, expand_hideOptions names p,
      expandAll_hideOptions names ps]
    simp [List.flatMap_map, List.map_flatMap, List.map_map, Function.comp_def]

end

theorem Branched.hideOptions (names : Names) (h : Branched p) :
    Branched (p.hideOptions names) := by
  induction h with
  | option | command | argument | shortcut => constructor
  | group _ ih =>
    rw [Pattern.hideOptions, mapLeaves, mapLeavesAll_eq_map]
    exact .group (List.forall_mem_map.mpr ih)
  | either hne _ ih =>
    rw [Pattern.hideOptions, mapLeaves, mapLeavesAll_eq_map]
    exact .either (by simpa using hne) (List.forall_mem_map.mpr ih)

/-- What is left of a pattern without alternations. -/
theorem stands_of_plain (keep : Shortcut → Bool) (h : Plain p) :
    Forall₂ StandsFor ((p.simplifyWith keep).getD (.optional [])).leaves (leftOf keep p) := by
  have hcovers := h.branched.covers keep
  have hp {q : Pattern} (hq : q ∈ p.expand) : q = p := by
    rw [h.expand_eq] at hq
    exact List.mem_singleton.mp hq
  cases hs : p.simplifyWith keep with
  | none =>
    rw [hs] at hcovers
    obtain ⟨q, hq, hleft⟩ := hcovers
    rw [← hp hq, hleft]
    exact .nil
  | some p' =>
    rw [hs] at hcovers
    have hself : p' ∈ p'.expand := by
      rw [(h.simplifyWith hs).expand_eq]
      exact List.mem_singleton_self _
    obtain ⟨q, hq, hstands⟩ := hcovers p' hself
    rwa [hp hq] at hstands

/-- The leaves of a usage are those of a choice of branches of its line, in another order.
Shortcuts hide what the line spells out, and are missing if they are not kept. -/
theorem stands_of_mem_usagesOfLine {line u : Pattern} (h : Branched line)
    (hu : u ∈ Help.usagesOfLine keep line) :
    ∃ q ∈ line.expand, ∃ l : List Pattern, l.Perm u.leaves ∧
      Forall₂ StandsFor l (leftOf keep (q.hideOptions (Help.spelledNames line))) := by
  obtain ⟨p, hp, rfl⟩ := List.mem_map.mp hu
  dsimp only at hp
  have hplain : Plain p := plain_of_mem_expand hp
  have hsecond := stands_of_plain keep hplain
  have hcovers := (h.hideOptions (Help.spelledNames line)).covers keep
  -- The first simplification leaves only leaves that the second one keeps.
  have hfirst : ∃ q ∈ (line.hideOptions (Help.spelledNames line)).expand,
      Forall₂ StandsFor p.leaves (leftOf keep q) := by
    cases hs : (line.hideOptions (Help.spelledNames line)).simplifyWith keep with
    | none =>
      rw [hs] at hp hcovers
      obtain rfl := List.mem_singleton.mp hp
      obtain ⟨q, hq, hleft⟩ := hcovers
      refine ⟨q, hq, ?_⟩
      rw [hleft]
      exact .nil
    | some p' =>
      rw [hs] at hp hcovers
      exact hcovers p hp
  obtain ⟨q, hq, hfirst⟩ := hfirst
  have hkept : leftOf keep p = p.leaves := by
    refine List.filter_eq_self.mpr fun x hx => ?_
    obtain ⟨y, hy, hstands⟩ := StandsFor.exists_of_mem hfirst hx
    rw [hstands.isKept_eq]
    exact (List.mem_filter.mp hy).2
  rw [hkept] at hsecond
  rw [expand_hideOptions] at hq
  obtain ⟨choice, hchoice, rfl⟩ := List.mem_map.mp hq
  exact ⟨choice, hchoice, _, (leaves_optionsAhead _).symm, StandsFor.trans_all hsecond hfirst⟩

end Pattern

/-! ## Completed lines -/

namespace Help.Declarations

open Pattern (Branched)

variable {d : Declarations}

mutual

/-- Completing the options of a line leaves every alternation with branches. -/
theorem branched_resolve : ∀ {p q : Pattern}, p.Branched → d.resolve p = .ok q → q.Branched
  | .command _, _, hp, h | .shortcut _, _, hp, h | .argument _, _, hp, h => by
    obtain rfl := Except.ok.inj h
    exact hp
  | .option _, _, _, h => by
    obtain ⟨_, -, h⟩ := Except.bind_eq_ok.mp h
    obtain rfl := Except.ok.inj h
    exact .option
  | .group _ ps _, _, .group hp, h => by
    obtain ⟨qs, hqs, h⟩ := Except.bind_eq_ok.mp h
    obtain rfl := Except.ok.inj h
    exact .group (branched_resolveAll hp hqs)
  | .either ps, _, .either hne hp, h => by
    obtain ⟨qs, hqs, h⟩ := Except.bind_eq_ok.mp h
    obtain rfl := Except.ok.inj h
    refine .either ?_ (branched_resolveEach hp hqs)
    rintro rfl
    obtain ⟨p, ps, rfl⟩ := List.exists_cons_of_ne_nil hne
    obtain ⟨_, -, hqs⟩ := Except.bind_eq_ok.mp hqs
    obtain ⟨_, -, hqs⟩ := Except.bind_eq_ok.mp hqs
    cases hqs

theorem branched_resolveAll : ∀ {ps qs : List Pattern} {used : Bool}, (∀ p ∈ ps, p.Branched) →
    d.resolveAll used ps = .ok qs → ∀ q ∈ qs, q.Branched
  | [], _, _, _, h => by
    obtain rfl := Except.ok.inj h
    exact nofun
  | p :: ps, _, used, hp, h => by
    obtain ⟨hp, hps⟩ := List.forall_mem_cons.mp hp
    unfold resolveAll at h
    split at h
    · exact branched_resolveAll hps h
    · split at h
      · obtain ⟨_, -, h⟩ := Except.bind_eq_ok.mp h
        obtain ⟨qs, hqs, h⟩ := Except.bind_eq_ok.mp h
        obtain rfl := Except.ok.inj h
        exact List.forall_mem_cons.mpr ⟨.option, branched_resolveAll hps hqs⟩
      · obtain ⟨q, hq, h⟩ := Except.bind_eq_ok.mp h
        obtain ⟨qs, hqs, h⟩ := Except.bind_eq_ok.mp h
        obtain rfl := Except.ok.inj h
        exact List.forall_mem_cons.mpr ⟨branched_resolve hp hq, branched_resolveAll hps hqs⟩

theorem branched_resolveEach : ∀ {ps qs : List Pattern}, (∀ p ∈ ps, p.Branched) →
    d.resolveEach ps = .ok qs → ∀ q ∈ qs, q.Branched
  | [], _, _, h => by
    obtain rfl := Except.ok.inj h
    exact nofun
  | p :: ps, _, hp, h => by
    obtain ⟨hp, hps⟩ := List.forall_mem_cons.mp hp
    obtain ⟨q, hq, h⟩ := Except.bind_eq_ok.mp h
    obtain ⟨qs, hqs, h⟩ := Except.bind_eq_ok.mp h
    obtain rfl := Except.ok.inj h
    exact List.forall_mem_cons.mpr ⟨branched_resolve hp hq, branched_resolveEach hps hqs⟩

end

end Help.Declarations

end Synopsis
