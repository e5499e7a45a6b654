import Synopsis.Proofs.Pattern.NormalForm

/-! # Options first, level by level

In every group outside alternations, the children made of options only come to stand in
front of the others. Neither kind changes its order, and that determines the outcome: a
pattern that has its options in front already stays as it is.
-/

namespace Synopsis.Pattern

variable {kind : GroupKind} {p q : Pattern} {ps qs rs : List Pattern} {repeats : Bool}

/-! ## Two kinds of patterns -/

/-- A command, an argument or an alternation occurs. Values of options are not entered. -/
inductive Mixed : Pattern → Prop
  | command (leaf : Leaf) : Mixed (.command leaf)
  | argument (leaf : Leaf) : Mixed (.argument leaf)
  | either (branches : List Pattern) : Mixed (.either branches)
  | child {kind : GroupKind} {p : Pattern} {ps : List Pattern} {repeats : Bool} (hp : p ∈ ps)
      (h : Mixed p) : Mixed (.group kind ps repeats)

theorem areOptionsOnly_eq_all (ps : List Pattern) : areOptionsOnly ps = ps.all isOptionsOnly := by
  induction ps with
  | nil => rfl
  | cons p ps ih => rw [areOptionsOnly, ih, List.all_cons]

theorem isOptionsOnly_group : (group kind ps repeats).isOptionsOnly = ps.all isOptionsOnly :=
  areOptionsOnly_eq_all ps

theorem isOptionsOnly_iff : p.isOptionsOnly = true ↔ ¬ p.Mixed := by
  induction p using inductionOn with
  | leaf p hp =>
    cases p with
    | group | either => cases hp
    | option | shortcut => exact iff_of_true rfl nofun
    | command leaf => exact iff_of_false nofun (not_not_intro (.command leaf))
    | argument leaf => exact iff_of_false nofun (not_not_intro (.argument leaf))
  | either ps => exact iff_of_false nofun (not_not_intro (.either ps))
  | group kind ps repeats ih =>
    rw [isOptionsOnly_group, List.all_eq_true]
    constructor
    · rintro h (- | - | - | ⟨hp, hmixed⟩)
      exact (ih _ hp).mp (h _ hp) hmixed
    · exact fun h p hp => (ih p hp).mpr fun hmixed => h (.child hp hmixed)

theorem mixed_iff : p.Mixed ↔ p.isOptionsOnly = false := by
  rw [← Bool.not_eq_true, isOptionsOnly_iff, not_not]

instance : DecidablePred Mixed := fun _ => decidable_of_iff _ mixed_iff.symm

theorem filter_not_mixed (ps : List Pattern) :
    ps.filter (¬ ·.Mixed) = ps.filter isOptionsOnly :=
  List.filter_congr fun p _ => by rw [Bool.eq_iff_iff, decide_eq_true_iff, isOptionsOnly_iff]

theorem filter_mixed (ps : List Pattern) :
    ps.filter (·.Mixed) = ps.filter (!isOptionsOnly ·) :=
  List.filter_congr fun p _ => by
    rw [Bool.eq_iff_iff, decide_eq_true_iff, mixed_iff, Bool.not_eq_true']

/-! ## Orders -/

/-- The same children, with those made of options only in the same order, and the others too. -/
structure Restacked (qs rs : List Pattern) : Prop where
  perm : rs.Perm qs
  options : rs.filter (¬ ·.Mixed) = qs.filter (¬ ·.Mixed)
  others : rs.filter (·.Mixed) = qs.filter (·.Mixed)

/-- The children of groups are rearranged, on every level and then those of the group itself,
without a change to the order within the two kinds. Nothing else is touched. -/
inductive Rearranged : Pattern → Pattern → Prop
  | leaf {p : Pattern} (h : p.isGroup = false) : Rearranged p p
  | group {kind : GroupKind} {ps qs rs : List Pattern} {repeats : Bool}
      (h : List.Forall₂ Rearranged ps qs) (hs : Restacked qs rs) :
      Rearranged (.group kind ps repeats) (.group kind rs repeats)

/-- In every group outside alternations, what follows a child that is not made of options
only is not made of options only either. -/
inductive OptionsFirst : Pattern → Prop
  | leaf {p : Pattern} (h : p.isGroup = false) : OptionsFirst p
  | group {kind : GroupKind} {ps : List Pattern} {repeats : Bool} (h : ∀ c ∈ ps, OptionsFirst c)
      (hs : ps.Pairwise fun a b => a.Mixed → b.Mixed) : OptionsFirst (.group kind ps repeats)

theorem Restacked.refl (qs : List Pattern) : Restacked qs qs := ⟨.refl _, rfl, rfl⟩

theorem Rearranged.refl (p : Pattern) : Rearranged p p := by
  induction p using inductionOn with
  | leaf p hp => exact .leaf (isGroup_eq_false hp)
  | either ps => exact .leaf rfl
  | group kind ps repeats ih => exact .group (List.forall₂_same.mpr ih) (.refl ps)

/-! ## One level -/

/-- The children made of options only, and the others behind them. -/
def stacked (ps : List Pattern) : List Pattern :=
  ps.filter isOptionsOnly ++ ps.filter (!isOptionsOnly ·)

theorem restacked_stacked (qs : List Pattern) : Restacked qs (stacked qs) where
  perm := List.filter_append_perm _ _
  options := by
    rw [filter_not_mixed, filter_not_mixed, stacked, List.filter_append, List.filter_filter,
      List.filter_filter]
    simp
  others := by
    rw [filter_mixed, filter_mixed, stacked, List.filter_append, List.filter_filter,
      List.filter_filter]
    simp

theorem pairwise_stacked (qs : List Pattern) :
    (stacked qs).Pairwise fun a b => a.Mixed → b.Mixed := by
  rw [stacked, List.pairwise_append]
  have hoptions {p : Pattern} (hp : p ∈ qs.filter isOptionsOnly) : ¬ p.Mixed :=
    isOptionsOnly_iff.mp (List.mem_filter.mp hp).2
  have hothers {p : Pattern} (hp : p ∈ qs.filter (!isOptionsOnly ·)) : p.Mixed :=
    mixed_iff.mpr (Bool.not_eq_true' _ ▸ (List.mem_filter.mp hp).2)
  refine ⟨?_, ?_, fun p hp q hq _ => hothers hq⟩
  · exact List.pairwise_of_forall_mem_list fun p hp q _ hmixed => absurd hmixed (hoptions hp)
  · exact List.pairwise_of_forall_mem_list fun p _ q hq _ => hothers hq

theorem stacked_eq_self (h : rs.Pairwise fun a b => a.Mixed → b.Mixed) : stacked rs = rs := by
  induction h with
  | nil => rfl
  | @cons r rs hr _ ih =>
    cases hoptions : r.isOptionsOnly with
    | true =>
      rw [stacked, List.filter_cons_of_pos hoptions, List.filter_cons_of_neg (by simp [hoptions])]
      exact congrArg (r :: ·) ih
    | false =>
      -- Nothing made of options only follows.
      have hmixed {c : Pattern} (hc : c ∈ rs) : c.isOptionsOnly = false :=
        mixed_iff.mp (hr c hc (mixed_iff.mpr hoptions))
      have hnone : (r :: rs).filter isOptionsOnly = [] :=
        List.filter_eq_nil_iff.mpr (List.forall_mem_cons.mpr
          ⟨by simp [hoptions], fun c hc => by simp [hmixed hc]⟩)
      have hall : (r :: rs).filter (!isOptionsOnly ·) = r :: rs :=
        List.filter_eq_self.mpr (List.forall_mem_cons.mpr
          ⟨by simp [hoptions], fun c hc => by simp [hmixed hc]⟩)
      rw [stacked, hnone, hall, List.nil_append]

theorem Restacked.eq_stacked (h : Restacked qs rs) (hs : rs.Pairwise fun a b => a.Mixed → b.Mixed) :
    rs = stacked qs := by
  obtain ⟨-, hoptions, hothers⟩ := h
  rw [filter_not_mixed, filter_not_mixed] at hoptions
  rw [filter_mixed, filter_mixed] at hothers
  rw [← stacked_eq_self hs, stacked, stacked, hoptions, hothers]

/-! ## All levels -/

theorem optionsAhead_group : (group kind ps repeats).optionsAhead =
    .group kind (stacked (ps.map optionsAhead)) repeats := by
  rw [optionsAhead, Plain.optionsAheadAll_eq_map]
  rfl

theorem optionsAhead_of_not_group (h : p.isGroup = false) : p.optionsAhead = p := by
  cases p with
  | group => cases h
  | option | command | argument | either | shortcut => rfl

/-- What a pattern is made of does not depend on the order. -/
theorem isOptionsOnly_optionsAhead (p : Pattern) :
    p.optionsAhead.isOptionsOnly = p.isOptionsOnly := by
  induction p using inductionOn with
  | leaf p hp => rw [optionsAhead_of_not_group (isGroup_eq_false hp)]
  | either ps => rfl
  | group kind ps repeats ih =>
    rw [optionsAhead_group, isOptionsOnly_group, isOptionsOnly_group,
      (restacked_stacked _).perm.all_eq, Bool.eq_iff_iff, List.all_eq_true, List.all_eq_true,
      List.forall_mem_map]
    exact forall₂_congr fun p hp => by rw [ih p hp]

theorem rearranged_optionsAhead (p : Pattern) : Rearranged p p.optionsAhead := by
  induction p using inductionOn with
  | leaf p hp =>
    rw [optionsAhead_of_not_group (isGroup_eq_false hp)]
    exact .refl p
  | either ps => exact .refl _
  | group kind ps repeats ih =>
    rw [optionsAhead_group]
    exact .group (List.forall₂_map_right_iff.mpr (List.forall₂_same.mpr ih)) (restacked_stacked _)

theorem optionsFirst_optionsAhead (p : Pattern) : OptionsFirst p.optionsAhead := by
  induction p using inductionOn with
  | leaf p hp =>
    rw [optionsAhead_of_not_group (isGroup_eq_false hp)]
    exact .leaf (isGroup_eq_false hp)
  | either ps => exact .leaf rfl
  | group kind ps repeats ih =>
    rw [optionsAhead_group]
    refine .group (fun c hc => ?_) (pairwise_stacked _)
    obtain ⟨p, hp, rfl⟩ := List.mem_map.mp ((restacked_stacked _).perm.mem_iff.mp hc)
    exact ih p hp

theorem eq_map_of_forall₂ {R : Pattern → Pattern → Prop} {f : Pattern → Pattern}
    (h : List.Forall₂ R ps qs) (hf : ∀ p ∈ ps, ∀ q ∈ qs, R p q → q = f p) : qs = ps.map f := by
  induction h with
  | nil => rfl
  | cons hpq _ ih =>
    rw [List.map_cons, ← hf _ List.mem_cons_self _ List.mem_cons_self hpq,
      ← ih fun p hp q hq => hf p (List.mem_cons_of_mem _ hp) q (List.mem_cons_of_mem _ hq)]

/-- By levels: the children are determined by those of the original, and their order by the
order within the two kinds. -/
theorem Rearranged.eq_optionsAhead (h : Rearranged p q) (hq : OptionsFirst q) :
    q = p.optionsAhead := by
  induction p using inductionOn generalizing q with
  | leaf p hp =>
    cases h with
    | leaf h => exact (optionsAhead_of_not_group h).symm
    | group => cases hp
  | either ps =>
    cases h
    rfl
  | group kind ps repeats ih =>
    cases h with
    | leaf h => cases h
    | @group _ _ qs rs _ hqs hstack =>
      cases hq with
      | leaf h => cases h
      | group hall hfirst =>
        have hchildren : qs = ps.map optionsAhead := eq_map_of_forall₂ hqs fun p hp q hq hpq =>
          ih p hp hpq (hall q (hstack.perm.mem_iff.mpr hq))
        rw [optionsAhead_group, hstack.eq_stacked hfirst, hchildren]

/-! ## One pass -/

mutual

/-- Takes the children of groups out, divided by what the same pass says of them, and puts
them back, those made of options only first. Says whether that was all of them. -/
def reorder : Pattern → Pattern × Bool
  | .group kind children repeats =>
    let (options, others) := divide children
    (.group kind (options ++ others) repeats, others.isEmpty)
  | .option o => (.option o, true)
  | .shortcut s => (.shortcut s, true)
  | p => (p, false)

def divide : List Pattern → List Pattern × List Pattern
  | [] => ([], [])
  | p :: ps =>
    let (q, onlyOptions) := reorder p
    let (options, others) := divide ps
    if onlyOptions then (q :: options, others) else (options, q :: others)

end

mutual

theorem reorder_eq : ∀ p : Pattern, p.reorder = (p.optionsAhead, p.isOptionsOnly)
  | .option _ | .command _ | .argument _ | .either _ | .shortcut _ => rfl
  | .group kind ps repeats => by
    have hnone : ((ps.map optionsAhead).filter (!isOptionsOnly ·)).isEmpty =
        ps.all isOptionsOnly := by
      rw [Bool.eq_iff_iff, List.isEmpty_iff, List.filter_eq_nil_iff, List.forall_mem_map,
        List.all_eq_true]
      exact forall₂_congr fun p _ => by simp [isOptionsOnly_optionsAhead]
    rw [reorder, divide_eq ps, optionsAhead_group, isOptionsOnly_group, ← hnone]
    rfl

theorem divide_eq : ∀ ps : List Pattern, divide ps =
    ((ps.map optionsAhead).filter isOptionsOnly, (ps.map optionsAhead).filter (!isOptionsOnly ·))
  | [] => rfl
  | p :: ps => by
    rw [divide, reorder_eq p, divide_eq ps, List.map_cons, List.filter_cons, List.filter_cons,
      isOptionsOnly_optionsAhead]
    cases p.isOptionsOnly <;> rfl

end

/-- Moving options to the front rearranges every group outside alternations into the one
order in which the options stand first and neither they nor the others have changed theirs,
and says whether there is anything but options. Once it is done, doing it again changes
nothing. -/
theorem optionsAhead_partitions (p : Pattern) :
    p.reorder = (p.optionsAhead, p.isOptionsOnly) ∧
    (p.isOptionsOnly = true ↔ ¬ p.Mixed) ∧
    (∀ q, p.optionsAhead = q ↔ Rearranged p q ∧ OptionsFirst q) ∧
    p.optionsAhead.reorder = p.reorder := by
  have hagain : p.optionsAhead = p.optionsAhead.optionsAhead :=
    (Rearranged.refl _).eq_optionsAhead (optionsFirst_optionsAhead p)
  refine ⟨reorder_eq p, isOptionsOnly_iff, fun q => ⟨?_, ?_⟩, ?_⟩
  · rintro rfl
    exact ⟨rearranged_optionsAhead p, optionsFirst_optionsAhead p⟩
  · rintro ⟨h, hq⟩
    exact (h.eq_optionsAhead hq).symm
  · rw [reorder_eq, reorder_eq, ← hagain, isOptionsOnly_optionsAhead]

end Synopsis.Pattern
