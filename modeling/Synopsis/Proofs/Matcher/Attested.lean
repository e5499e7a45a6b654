import Synopsis.Proofs.Grammar.Mentions
import Synopsis.Proofs.Help.Leaves
import Synopsis.Proofs.Matcher.Attached

/-! # Arguments of options that were met

An argument that is the value of an option holds nothing unless the option was met. This
holds from the start of a match to its end, if each leaf has its slots to itself.
-/

namespace Synopsis

open Pattern (slots Reaches Visits)

variable {scope : Scope} {L : List Pattern} {p q c w : Pattern} {o : OptionAtom} {leaf : Leaf}
  {s s' : Slots} {n i : Nat} {rs : List Recorded} {σ : OptionStyle}
  {E : List Token → List Token → Prop}

/-! ## Leaves -/

namespace Pattern

/-- A pattern that mentions no options. -/
def OptionFree (p : Pattern) : Prop := p.options = [] ∧ p.shortcuts = []

theorem OptionFree.of_reaches (h : w.OptionFree) (hq : Reaches scope w q) :
    (∀ o, q ≠ .option o) ∧ ∀ sc, q ≠ .shortcut sc := by
  have hoption (o : OptionAtom) : .option o ∉ w.leaves := fun ho => by
    have hmem := mem_options.mpr ho
    rw [h.1] at hmem
    cases hmem
  have hshortcut (sc : Shortcut) : .shortcut sc ∉ w.leaves := fun hs => by
    have hmem : sc ∈ w.shortcuts := List.mem_filterMap.mpr ⟨_, hs, rfl⟩
    rw [h.2] at hmem
    cases hmem
  have hleaf (hq' : q.isInner = false) : q ∈ w.leaves :=
    (hq.mem_leaves_or hq').resolve_right fun hrest => by
      rcases hrest with ⟨sc, hs, -⟩ | ⟨o, _, ho, -⟩
      · exact hshortcut sc hs
      · exact hoption o ho
  constructor
  · rintro o rfl
    exact hoption o (hleaf rfl)
  · rintro sc rfl
    exact hshortcut sc (hleaf rfl)

/-- Without shortcuts, a pattern reaches its own slots only. -/
theorem Reaches.mem_slots_of_forall_ne (h : Reaches scope w q)
    (hs : ∀ r, Reaches scope w r → ∀ sc, r ≠ .shortcut sc) (hi : q.slot? = some i) : i ∈ slots [w] := by
  induction h with
  | refl => exact mem_slots_self hi
  | value hv _ ih =>
    rw [slots_option hv]
    exact List.mem_cons_of_mem _ (ih (fun r hr => hs r (.value hv hr)) hi)
  | child hc _ ih =>
    rw [slots_group]
    exact mem_slots_of_mem hc (ih (fun r hr => hs r (.child hc hr)) hi)
  | branch hc _ ih =>
    rw [slots_either]
    exact mem_slots_of_mem hc (ih (fun r hr => hs r (.branch hc hr)) hi)
  | entry _ _ _ => exact absurd rfl (hs _ .refl _)

theorem reaches_of_mem_line {kind : GroupKind} {line : List Pattern} {repeats : Bool} {b : Positional}
    (hb : b.pattern ∈ line.flatMap leaves) : Reaches scope (.group kind line repeats) b.pattern := by
  have hmem := mem_flatMap_atoms_of_leaves hb b.slot?_pattern
  rw [← atomsAll_eq_flatMap] at hmem
  obtain ⟨c, hc, hreach⟩ := reaches_of_mem_atomsAll hmem
  exact .child hc hreach

end Pattern

/-- The leaves outside of values: no two share a slot, values included, and the declared
options are among them. -/
structure Housed (scope : Scope) (L : List Pattern) : Prop where
  grounded : scope.Grounded
  nodup : (slots L).Nodup
  declared : ∀ e ∈ scope.registry.entries, ∀ c ∈ e.leaves, c ∈ L
  values : ∀ o w, .option o ∈ L → o.value = some w → w.OptionFree

namespace Housed

variable (h : Housed scope L)
include h

theorem leaves_of_visits (hp : ∀ c ∈ p.leaves, c ∈ L) (hq : Visits scope p q) : ∀ c ∈ q.leaves, c ∈ L := by
  induction hq with
  | refl => exact hp
  | child hc _ ih => exact ih fun c hmem => hp c (Pattern.mem_leaves_group.mpr ⟨_, hc, hmem⟩)
  | branch hc _ ih => exact ih fun c hmem => hp c (Pattern.mem_leaves_either.mpr ⟨_, hc, hmem⟩)
  | entry hc _ ih => exact ih (h.declared _ (Pattern.mem_entries_of_visible hc))

theorem mem_of_visits (hp : ∀ c ∈ p.leaves, c ∈ L) (hq : Visits scope p q) (hleaf : q.isInner = false) :
    q ∈ L :=
  h.leaves_of_visits hp hq q (Pattern.mem_leaves_self hleaf)

theorem eq_of_mem_slots {c c' : Pattern} (hc : c ∈ L) (hc' : c' ∈ L) (hi : i ∈ slots [c])
    (hi' : i ∈ slots [c']) : c = c' :=
  Pattern.eq_of_mem_slots h.nodup hc hc' hi hi'

/-- The option has a slot besides those of its value. -/
theorem notMem_value (ho : .option o ∈ L) (hw : o.value = some w) : o.slot ∉ slots [w] := by
  have hown := h.nodup
  rw [Pattern.slots_eq_flatMap, List.nodup_flatMap] at hown
  have hnodup := hown.1 _ ho
  rw [Pattern.slots_option hw] at hnodup
  exact (List.nodup_cons.mp hnodup).1

/-- The slots of an option, its value included, are reached only through it. -/
theorem reaches_of_mem_slots (hp : ∀ c ∈ p.leaves, c ∈ L) (ho : .option o ∈ L)
    (hi : i ∈ slots [.option o]) (hq : Reaches scope p q) (hqi : q.slot? = some i) :
    Reaches scope p (.option o) := by
  obtain ⟨c, hc, hown, hleaf⟩ := hq.exists_leaf hqi
  have hmem : c ∈ L := hleaf.elim (hp c) fun ⟨e, he, hc⟩ => h.declared e he c hc
  rwa [← h.eq_of_mem_slots hmem ho hown hi]

/-- Every slot in reach is recorded by one leaf. -/
theorem record_unique (hp : ∀ c ∈ p.leaves, c ∈ L) (hrs : p.recorded? scope n = some rs) {r : Recorded}
    (hr : r ∈ rs) : ∀ r' ∈ rs, r'.slot = r.slot → r' = r := by
  have hapart : Apart fun q => ∀ i, q.slot? = some i → q ∈ L.flatMap Pattern.atoms :=
    fun q q' hq hq' i hi hi' => Pattern.eq_of_slot?_eq h.nodup (hq i hi) (hq' i hi') hi hi'
  refine Typed.leaf_unique hapart (fun r hr => ?_) hr
  obtain ⟨q, hq, hown⟩ := (Pattern.mem_recorded_iff hrs).mp hr
  refine ⟨q, fun i hi => ?_, hown⟩
  have hatoms {p : Pattern} (hp : ∀ c ∈ p.leaves, c ∈ L) (hq : q ∈ p.atoms) : q ∈ L.flatMap Pattern.atoms := by
    rw [Pattern.atoms_eq_flatMap_leaves] at hq
    obtain ⟨c, hc, hq⟩ := List.mem_flatMap.mp hq
    exact List.mem_flatMap.mpr ⟨c, hp c hc, hq⟩
  rcases hq.mem_atoms hi with hq | ⟨e, he, hq⟩
  · exact hatoms hp hq
  · exact hatoms (h.declared e he) hq

end Housed

/-! ## Slots -/

/-- The argument of an option holds a text only if the option was met. -/
def Attested (L : List Pattern) (s : Slots) : Prop :=
  ∀ o w leaf, .option o ∈ L → o.value = some w → SoleArgument w leaf →
    (s.get leaf.slot).hasText = true → 0 < (s.get o.slot).count?.getD 0

theorem SoleArgument.argument_reached (h : SoleArgument w leaf) : Reaches scope w (.argument leaf) := by
  induction h with
  | argument => exact .refl
  | group _ ih => exact .child (List.mem_singleton_self _) ih

namespace Attested

theorem blank (L : List Pattern) (size : Nat) : Attested L (.blank size) := by
  intro o w leaf _ _ _ htext
  rw [Slots.get_blank] at htext
  cases htext

/-- What leaves the slots of all options alone. -/
theorem congr (h : Attested L s)
    (hs : ∀ o, .option o ∈ L → ∀ i ∈ slots [.option o], s'.get i = s.get i) : Attested L s' := by
  intro o w leaf ho hw hsole htext
  have hown := hs o ho
  rw [Pattern.slots_option hw] at hown
  rw [hown leaf.slot (List.mem_cons_of_mem _ hsole.slot_mem)] at htext
  rw [hown o.slot List.mem_cons_self]
  exact h o w leaf ho hw hsole htext

variable (hL : Housed scope L)
include hL

/-- A slot of a command or argument that is no value. -/
theorem slot_ne {b : Positional} (hb : b.pattern ∈ L) (ho : .option o ∈ L) (hi : i ∈ slots [.option o]) :
    b.slot ≠ i := by
  rintro rfl
  have he := hL.eq_of_mem_slots hb ho (Pattern.mem_slots_self b.slot?_pattern) hi
  cases b <;> cases he

theorem record {b : Positional} (hb : b.pattern ∈ L) {f : Slot → Slot} (h : Attested L s) :
    Attested L (s.modify b.slot f) :=
  h.congr fun _ ho _ hi => Slots.get_modify_of_ne (slot_ne hL hb ho hi).symm

theorem lends {line : List Pattern} {s t : Attempt} (hl : ∀ c ∈ line.flatMap Pattern.leaves, c ∈ L)
    (hlends : Lending.Lends line s t) (h : Attested L s.slots) : Attested L t.slots :=
  h.congr fun _ ho _ hi => hlends.get_of_forall_ne fun _ hb => slot_ne hL (hl _ hb) ho hi

/-- An option is met when it is found, before its argument takes anything. -/
theorem hit (ho : .option o ∈ L) (h : Attested L s) :
    Attested L (s.modify o.slot (Slot.hit false)) ∧
      0 < ((s.modify o.slot (Slot.hit false)).get o.slot).count?.getD 0 := by
  have hmet : 0 < ((s.modify o.slot (Slot.hit false)).get o.slot).count?.getD 0 := by
    rw [Slots.get_modify_self]
    exact Nat.one_pos
  refine ⟨fun o' w leaf ho' hw hsole htext => ?_, hmet⟩
  have hmem : leaf.slot ∈ slots [.option o'] := by
    rw [Pattern.slots_option hw]
    exact List.mem_cons_of_mem _ hsole.slot_mem
  have hown (p : OptionAtom) : p.slot ∈ slots [.option p] := by
    obtain ⟨names, _ | w, fallback, slot⟩ := p
    · exact List.mem_singleton_self _
    · rw [Pattern.slots_option rfl]
      exact List.mem_cons_self
  by_cases he : o' = o
  · exact he ▸ hmet
  · have hne {i : Nat} (hi : i ∈ slots [.option o']) : i ≠ o.slot := by
      rintro rfl
      exact he (Pattern.option.inj (hL.eq_of_mem_slots ho' ho hi (hown o)))
    rw [Slots.get_modify_of_ne (hne hmem)] at htext
    rw [Slots.get_modify_of_ne (hne (hown o'))]
    exact h o' w leaf ho' hw hsole htext

/-- What only changes slots in the value of an option that was met. -/
theorem within_value (ho : .option o ∈ L) (hw : o.value = some w) (hs : ∀ i ∉ slots [w], s'.get i = s.get i)
    (h : Attested L s ∧ 0 < (s.get o.slot).count?.getD 0) :
    Attested L s' ∧ 0 < (s'.get o.slot).count?.getD 0 := by
  have hmet : 0 < (s'.get o.slot).count?.getD 0 := by
    rw [hs _ (hL.notMem_value ho hw)]
    exact h.2
  refine ⟨fun o' w' leaf ho' hw' hsole htext => ?_, hmet⟩
  by_cases he : o' = o
  · exact he ▸ hmet
  · have hout {i : Nat} (hi : i ∈ slots [.option o']) : i ∉ slots [w] := by
      intro hi'
      refine he (Pattern.option.inj (hL.eq_of_mem_slots ho' ho hi ?_))
      rw [Pattern.slots_option hw]
      exact List.mem_cons_of_mem _ hi'
    rw [Pattern.slots_option hw'] at hout
    rw [hs _ (hout (List.mem_cons_of_mem _ hsole.slot_mem))] at htext
    rw [hs _ (hout List.mem_cons_self)]
    exact h.1 o' w' leaf ho' hw' hsole htext

section Repetition

variable (hp : ∀ c ∈ p.leaves, c ∈ L) (hrs : p.recorded? scope n = some rs)
include hp hrs

/-- A repeating group records both slots of an option and its argument, or neither. -/
theorem recorded_cases (ho : .option o ∈ L) (hw : o.value = some w) (hsole : SoleArgument w leaf) :
    (⟨.hits, o.slot⟩ ∈ rs ∧ ⟨.texts, leaf.slot⟩ ∈ rs) ∨
      ∀ r ∈ rs, r.slot ≠ o.slot ∧ r.slot ≠ leaf.slot := by
  by_cases hreach : Reaches scope p (.option o)
  · refine .inl ⟨(Pattern.mem_recorded_iff hrs).mpr ⟨_, hreach, rfl⟩, ?_⟩
    exact (Pattern.mem_recorded_iff hrs).mpr
      ⟨_, hreach.trans (.value hw hsole.argument_reached), rfl⟩
  · refine .inr fun r hr => ?_
    obtain ⟨q, hq, hown⟩ := (Pattern.mem_recorded_iff hrs).mp hr
    have hne {i : Nat} (hi : i ∈ slots [.option o]) : r.slot ≠ i := by
      rintro rfl
      exact hreach (hL.reaches_of_mem_slots hp ho hi hq (by rw [Pattern.slot?, hown]; rfl))
    rw [Pattern.slots_option hw] at hne
    exact ⟨hne List.mem_cons_self, hne (List.mem_cons_of_mem _ hsole.slot_mem)⟩

theorem clearAll (h : Attested L s) : Attested L (Recorded.clearAll rs s) := by
  intro o w leaf ho hw hsole htext
  rcases recorded_cases hL hp hrs ho hw hsole with ⟨-, hleaf⟩ | hout
  · have hempty : ((Recorded.clearAll rs s).get leaf.slot).hasText = false :=
      Recorded.isMet_cleared (Recorded.get_clearAll hleaf (hL.record_unique hp hrs hleaf))
    rw [hempty] at htext
    cases htext
  · rw [Recorded.get_clearAll_of_forall_ne fun r hr => (hout r hr).2] at htext
    rw [Recorded.get_clearAll_of_forall_ne fun r hr => (hout r hr).1]
    exact h o w leaf ho hw hsole htext

theorem mergeAll {history : List Slots} (hh : ∀ u ∈ history, Attested L u) (h : Attested L s) :
    Attested L (Recorded.mergeAll rs history s) := by
  intro o w leaf ho hw hsole htext
  rcases recorded_cases hL hp hrs ho hw hsole with ⟨hopt, hleaf⟩ | hout
  · rw [Recorded.get_mergeAll hleaf (hL.record_unique hp hrs hleaf)] at htext
    rw [Recorded.get_mergeAll hopt (hL.record_unique hp hrs hopt)]
    -- The text comes from one of the passes, in which the option was met.
    obtain ⟨text, htext⟩ : ∃ text, text ∈ (history.map (·.get leaf.slot)).flatMap Slot.texts := by
      refine List.exists_mem_of_ne_nil _ fun hnil => ?_
      simp [Recorded.merged, hnil, Slot.hasText] at htext
    obtain ⟨_, hmem, htext⟩ := List.mem_flatMap.mp htext
    obtain ⟨u, hu, rfl⟩ := List.mem_map.mp hmem
    have hfull : (u.get leaf.slot).hasText = true := by
      cases hget : u.get leaf.slot <;> simp_all [Slot.texts, Slot.hasText]
      exact List.ne_nil_of_mem htext
    exact Recorded.foldr_count_pos hu (hh u hu o w leaf ho hw hsole hfull)
  · rw [Recorded.get_mergeAll_of_forall_ne fun r hr => (hout r hr).2] at htext
    rw [Recorded.get_mergeAll_of_forall_ne fun r hr => (hout r hr).1]
    exact h o w leaf ho hw hsole htext

end Repetition

end Attested

/-! ## Patterns -/

theorem Slot.isTruthy_of_count_pos {x : Slot} (h : 0 < x.count?.getD 0) : x.isTruthy = true := by
  cases x with
  | unset | text | list => cases h
  | flag b => cases b with
    | true => rfl
    | false => cases h
  | count n =>
    have hn : 0 < n := h
    exact bne_iff_ne.mpr (Nat.ne_of_gt hn)

namespace Housed

variable (hL : Housed scope L)
include hL

/-- In the value of an option that was met, there is nothing that forgets this. -/
theorem follows_value (ho : .option o ∈ L) (hw : o.value = some w) :
    Follows scope σ E (fun s => Attested L s ∧ 0 < (s.get o.slot).count?.getD 0) n w := by
  have hfree {q : Pattern} (hq : Reaches scope w q) := (hL.values o w ho hw).of_reaches hq
  have hin {q : Pattern} {i : Nat} (hq : Reaches scope w q) (hi : q.slot? = some i) : i ∈ slots [w] :=
    hq.mem_slots_of_forall_ne (fun r hr => (hfree hr).2) hi
  refine ⟨fun b hb s text h => ?_, fun o' ho' => absurd rfl ((hfree ho'.reaches).1 o'), ?_, ?_⟩
  · refine Attested.within_value hL ho hw (fun i hi => Slots.get_modify_of_ne ?_) h
    rintro rfl
    exact hi (hin hb.reaches b.slot?_pattern)
  · intro kind line repeats hg s t hlends h
    refine Attested.within_value hL ho hw (fun i hi => hlends.get_of_forall_ne ?_) h
    rintro b hb rfl
    exact hi (hin (hg.reaches.trans (Pattern.reaches_of_mem_line hb)) b.slot?_pattern)
  · intro kind line hg
    obtain ⟨rs, hrs⟩ := Option.isSome_iff_exists.mp
      (Pattern.recorded?_isSome hL.grounded (.group kind line true))
    have hout {r : Recorded} (hr : r ∈ rs) {i : Nat} (hi : i ∉ slots [w]) : r.slot ≠ i := by
      rintro rfl
      obtain ⟨q, hq, hown⟩ := (Pattern.mem_recorded_iff hrs).mp hr
      exact hi (hin (hg.reaches.trans hq) (by rw [Pattern.slot?, hown]; rfl))
    refine ⟨rs, hrs, fun s h => ?_, fun history s _ h => ?_⟩
    · exact Attested.within_value hL ho hw
        (fun i hi => Recorded.get_clearAll_of_forall_ne fun r hr => hout hr hi) h
    · exact Attested.within_value hL ho hw
        (fun i hi => Recorded.get_mergeAll_of_forall_ne fun r hr => hout hr hi) h

variable {name v joined : String} (ha : Attaches σ name v joined)
  (hone : ∀ o, .option o ∈ L → name ∈ o.names.toList → ∃ w leaf, o.value = some w ∧ SoleArgument w leaf)
include ha hone

/-- An option does the same in both spellings, of its own value and of that of others. -/
theorem option_parallel {n' : Nat} (ho : .option o ∈ L)
    (hdeep : ∀ w, o.value = some w → (w.recorded? scope n).isSome ∧ (w.recorded? scope n').isSome) :
    Parallel σ (Replaced (AttachedPart name v joined)) (Attested L)
      (o.run (matchPattern scope n false) false) (o.run (matchPattern scope n' false) false) := by
  have hfirst : FlagsFirst (AttachedPart name v joined) := by
    rintro _ _ ⟨⟩
    exact ⟨_, _, _, _, rfl, rfl, ⟨rfl, ha.looks⟩, ⟨rfl, ha.looks_joined⟩⟩
  intro s t h
  have hsearches (hsearch : OptionOf.Searches (Replaced (AttachedPart name v joined)) o.names s.argv t.argv) :=
    OptionOf.run_of_searches h hsearch
      (fun E' _ hE' w hw => (hL.follows_value ho hw).parallel hE' (hdeep w hw).1 (hdeep w hw).2)
      (fun _ hJ => hJ.1) fun _ => Attested.hit hL ho
  cases hname : o.names.contains name with
  | false =>
    refine hsearches (h.argv.searches_of_unspelled hfirst ?_ ?_)
    · rintro _ _ ⟨⟩ x hx
      simp only [List.mem_append, List.mem_cons, List.not_mem_nil, or_false] at hx
      rcases hx with (rfl | rfl) | rfl <;> rfl
    · rintro _ _ ⟨⟩
      simp [Argv.findOption?, Token.isDoubleDash, h.argv.style_eq, ha.spelled, ha.spelled_joined, hname]
  | true =>
    rcases h.argv.searches_or_part hfirst o.names with hsearch | ⟨xs, us, us', ys, hpart, hxs, hs, ht, hf⟩
    · exact hsearches hsearch
    obtain ⟨w, leaf, hw, hsole⟩ := hone o ho (OrderedSet.contains_iff.mp hname)
    cases hmet : (s.slots.get o.slot).isTruthy with
    | true =>
      simp only [OptionOf.run, MatchM.slots_bind, h.slots, hmet, Bool.not_false, Bool.and_self, if_true]
      exact .ok ⟨rfl, h, .refl⟩
    | false =>
      have hempty : (s.slots.get leaf.slot).hasText = false := by
        rw [Bool.eq_false_iff]
        intro htext
        rw [Slot.isTruthy_of_count_pos (h.known o w leaf ho hw hsole htext)] at hmet
        cases hmet
      have hne : o.slot ≠ leaf.slot := fun he => hL.notMem_value ho hw (he ▸ hsole.slot_mem)
      have hsame (i : Nat) (hi : i ∉ slots [w]) :
          ((s.slots.modify o.slot (Slot.hit false)).modify leaf.slot (Slot.pushText v false)).get i =
            (s.slots.modify o.slot (Slot.hit false)).get i :=
        Slots.get_modify_of_ne fun he => hi (he ▸ hsole.slot_mem)
      have hknown := Attested.within_value hL ho hw hsame (Attested.hit hL ho h.known)
      rw [OptionOf.run_attached hw hsole (hdeep w hw).1 hne (h.argv.style_eq ▸ ha) hname hmet hempty hxs hf
          hpart (.inl hs),
        OptionOf.run_attached hw hsole (hdeep w hw).2 hne (h.argv.style.trans h.argv.style_eq ▸ ha) hname
          (h.slots ▸ hmet) (h.slots ▸ hempty) hxs
          (by rwa [Argv.findOption?_congr h.argv.style h.argv.autoDashes]) hpart (.inr ht), h.slots]
      refine .ok ⟨rfl, ⟨rfl, hknown.1, .same, h.argv.style_eq, h.argv.style, h.argv.autoDashes,
        h.argv.dashes, h.argv.optionOnly⟩, ?_⟩
      obtain ⟨⟩ := hpart
      simp only [hs, ht]
      refine .moved ?_ ?_
      all_goals
        simp only [Token.total_append, Token.total_cons]
        omega

/-- A usage takes the same arguments in both spellings. -/
theorem follows (hp : ∀ c ∈ p.leaves, c ∈ L) :
    Follows scope σ (Replaced (AttachedPart name v joined)) (Attested L) n p where
  positional b hb s text h := by
    refine Attested.record hL (hL.mem_of_visits hp hb ?_) h
    cases b <;> rfl
  option o ho _ _ _ hdeep := hL.option_parallel ha hone (hL.mem_of_visits hp ho rfl) hdeep
  lend kind line repeats hg s t hlends h := by
    refine Attested.lends hL (fun c hc => hL.leaves_of_visits hp hg c ?_) hlends h
    rwa [Pattern.leaves, Pattern.leavesAll_eq_flatMap]
  repeats kind line hg := by
    obtain ⟨rs, hrs⟩ := Option.isSome_iff_exists.mp
      (Pattern.recorded?_isSome hL.grounded (.group kind line true))
    have hg := hL.leaves_of_visits hp hg
    exact ⟨rs, hrs, fun s h => h.clearAll hL hg hrs, fun history s hh h => h.mergeAll hL hg hrs hh⟩

end Housed

end Synopsis
