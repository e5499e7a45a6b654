import Synopsis.Proofs.Grammar.Results
import Synopsis.Proofs.Matcher.Given

/-! # Where an option is mentioned

The leaves of a compiled grammar have their slots apart, values and declared options
included. So a usage reaches an option, and its value, only where it mentions the option.
-/

namespace Synopsis

open Pattern (Reaches slots Plain)

variable {scope : Scope} {names : Names} {p q c c' e v : Pattern} {ps : List Pattern}
  {o : OptionAtom} {leaf : Leaf} {i : Nat} {key : String}

/-! ## Leaves in reach -/

namespace Pattern

theorem mem_leaves_self (hq : q.isInner = false) : q ∈ q.leaves := by
  cases q with
  | option | command | argument | shortcut => exact List.mem_singleton_self _
  | group | either => cases hq

/-- What is reached is a leaf, lies behind a shortcut, or in the value of an option. -/
theorem Reaches.mem_leaves_or (h : Reaches scope p q) (hq : q.isInner = false) :
    q ∈ p.leaves ∨ (∃ s, .shortcut s ∈ p.leaves ∧ ∃ e ∈ scope.visible s, Reaches scope e q) ∨
      ∃ o v, .option o ∈ p.leaves ∧ o.value = some v ∧ Reaches scope v q := by
  induction h with
  | refl => exact .inl (mem_leaves_self hq)
  | @value o v _ hv h => exact .inr (.inr ⟨o, v, List.mem_singleton_self _, hv, h⟩)
  | child hc _ ih =>
    rcases ih hq with hq | ⟨s, hs, h⟩ | ⟨o, v, ho, h⟩
    · exact .inl (mem_leaves_group.mpr ⟨_, hc, hq⟩)
    · exact .inr (.inl ⟨s, mem_leaves_group.mpr ⟨_, hc, hs⟩, h⟩)
    · exact .inr (.inr ⟨o, v, mem_leaves_group.mpr ⟨_, hc, ho⟩, h⟩)
  | branch hc _ ih =>
    rcases ih hq with hq | ⟨s, hs, h⟩ | ⟨o, v, ho, h⟩
    · exact .inl (mem_leaves_either.mpr ⟨_, hc, hq⟩)
    · exact .inr (.inl ⟨s, mem_leaves_either.mpr ⟨_, hc, hs⟩, h⟩)
    · exact .inr (.inr ⟨o, v, mem_leaves_either.mpr ⟨_, hc, ho⟩, h⟩)
  | @entry s e _ he h => exact .inr (.inl ⟨s, List.mem_singleton_self _, e, he, h⟩)

theorem mem_slots_of_mem_leaves (hc : c ∈ p.leaves) (hi : i ∈ slots [c]) : i ∈ slots [p] := by
  obtain ⟨_, hmem, q, hq, hqi⟩ := mem_slots.mp hi
  obtain rfl := List.mem_singleton.mp hmem
  refine mem_slots.mpr ⟨p, List.mem_singleton_self p, q, ?_, hqi⟩
  rw [atoms_eq_flatMap_leaves]
  exact List.mem_flatMap.mpr ⟨_, hc, hq⟩

/-- A slot in reach belongs to a leaf in reach, of the pattern or of a declared option. -/
theorem Reaches.exists_leaf (h : Reaches scope p q) (hi : q.slot? = some i) :
    ∃ c, Reaches scope p c ∧ i ∈ slots [c] ∧
      (c ∈ p.leaves ∨ ∃ e ∈ scope.registry.entries, c ∈ e.leaves) := by
  induction h with
  | @refl p =>
    refine ⟨p, .refl, mem_slots_self hi, .inl (mem_leaves_self ?_)⟩
    cases p with
    | option | command | argument | shortcut => rfl
    | group | either => cases hi
  | @value o v _ hv _ ih =>
    obtain ⟨c, h, hown, hc⟩ := ih hi
    rcases hc with hc | hc
    · refine ⟨.option o, .refl, ?_, .inl (List.mem_singleton_self _)⟩
      rw [slots_option hv]
      exact List.mem_cons_of_mem _ (mem_slots_of_mem_leaves hc hown)
    · exact ⟨c, .value hv h, hown, .inr hc⟩
  | child hc _ ih =>
    obtain ⟨c, h, hown, hleaf⟩ := ih hi
    exact ⟨c, .child hc h, hown, hleaf.imp_left fun hleaf => mem_leaves_group.mpr ⟨_, hc, hleaf⟩⟩
  | branch hc _ ih =>
    obtain ⟨c, h, hown, hleaf⟩ := ih hi
    exact ⟨c, .branch hc h, hown, hleaf.imp_left fun hleaf => mem_leaves_either.mpr ⟨_, hc, hleaf⟩⟩
  | entry he _ ih =>
    obtain ⟨c, h, hown, hleaf⟩ := ih hi
    refine ⟨c, .entry he h, hown, .inr ?_⟩
    exact hleaf.elim (fun hleaf => ⟨_, mem_entries_of_visible he, hleaf⟩) id

theorem slots_flatMap_leaves (ps : List Pattern) : slots (ps.flatMap leaves) = slots ps := by
  rw [slots, List.flatMap_assoc, slots]
  congr 2
  exact funext fun p => (atoms_eq_flatMap_leaves p).symm

end Pattern

namespace Reporter

variable {r : Reporter}

/-- A pattern mentions an option if one of its leaves does. -/
theorem mentions_eq_nil_iff {inRepeat : Bool} : r.mentions names inRepeat p = [] ↔
    ∀ q ∈ p.leaves, r.mentions names false q = [] := by
  rw [← List.map_eq_nil_iff (f := fun x : Mention => x.1), options_mentions, List.flatMap_eq_nil_iff]
  simp only [List.map_eq_nil_iff]

/-- A shortcut mentions the options of the names that it stands for. -/
theorem mem_mentions_shortcut {s : Shortcut} {a : Bool} (hn : o.names = names)
    (he : .group .optional [.option o] a ∈ r.scope.visible s) :
    (o, a) ∈ r.mentions names false (.shortcut s) := by
  refine List.mem_filter.mpr ⟨?_, decide_eq_true hn⟩
  exact List.mem_map.mpr ⟨(o, a), List.mem_filterMap.mpr ⟨_, he, rfl⟩, by simp⟩

end Reporter

/-! ## Grammars -/

namespace Grammar

variable {g : Grammar}

/-- All leaves outside value patterns. -/
def leaves (g : Grammar) : List Pattern := (g.registry.entries ++ g.usages).flatMap Pattern.leaves

/-- No value of an option mentions an option of some names, or one that the table does not
know to take its value. -/
def ValuesApart (g : Grammar) (names : Names) : Prop :=
  ∀ p ∈ g.options, ∀ v, p.value = some v → ∀ q, Reaches g.scope v q →
    Spares.Foreign names g.table.takes q

theorem mem_leaves_of_usage {u : Pattern} (hu : u ∈ g.usages) : ∀ c ∈ u.leaves, c ∈ g.leaves :=
  fun _ hc => List.mem_flatMap.mpr ⟨u, List.mem_append_right _ hu, hc⟩

theorem mem_leaves_of_entry (he : e ∈ g.registry.entries) : ∀ c ∈ e.leaves, c ∈ g.leaves :=
  fun _ hc => List.mem_flatMap.mpr ⟨e, List.mem_append_left _ he, hc⟩

theorem nodup_slots_leaves (hd : Pattern.Distinct g.scope g.usages) : (slots g.leaves).Nodup := by
  rw [leaves, Pattern.slots_flatMap_leaves]
  exact hd

theorem Coherent.option_mem_leaves_iff (hc : g.Coherent) : .option o ∈ g.leaves ↔ o ∈ g.options := by
  rw [mem_options_iff, leaves, List.flatMap_append, List.mem_append, List.mem_flatMap,
    List.mem_flatMap]
  refine or_congr_left ⟨?_, ?_⟩
  · rintro ⟨e, he, ho⟩
    obtain ⟨o', a, rfl⟩ := hc.registry.entry e he
    simp only [Pattern.mem_leaves_group, List.mem_singleton, exists_eq_left] at ho
    cases List.mem_singleton.mp ho
    exact ⟨a, List.mem_filterMap.mpr ⟨_, he, rfl⟩⟩
  · rintro ⟨a, ho⟩
    exact ⟨_, Registry.mem_entries ho, by simp [Pattern.leaves]⟩

section

variable (hc : g.Coherent) (hd : Pattern.Distinct g.scope g.usages) (hv : g.ValuesApart names)
  (hleaves : ∀ c ∈ p.leaves, c ∈ g.leaves)

include hc hleaves in
/-- An option in reach is an option of the grammar, or lies in the value of one. -/
theorem mem_options_or_value (h : Reaches g.scope p (.option o)) :
    (o ∈ g.options ∧ (o.names = names → g.reporter.mentions names false p ≠ [])) ∨
      ∃ p ∈ g.options, ∃ v, p.value = some v ∧ Reaches g.scope v (.option o) := by
  rcases h.mem_leaves_or rfl with ho | ⟨s, hs, e, he, h⟩ | ⟨p, v, hp, hv, h⟩
  · refine .inl ⟨hc.option_mem_leaves_iff.mp (hleaves _ ho), fun hn hnil => ?_⟩
    have hnone := Reporter.mentions_eq_nil_iff.mp hnil _ ho
    rw [Reporter.mentions, if_pos hn] at hnone
    cases hnone
  · have hentry := Pattern.mem_entries_of_visible he
    obtain ⟨o', a, rfl⟩ := hc.registry.entry e hentry
    have hdeclared : o' ∈ g.options :=
      mem_options_of_registry (List.mem_filterMap.mpr ⟨_, hentry, rfl⟩)
    cases h with
    | child hmem h =>
      rw [List.mem_singleton.mp hmem] at h
      cases h with
      | refl =>
        refine .inl ⟨hdeclared, fun hn hnil => ?_⟩
        have hmention := Reporter.mem_mentions_shortcut (r := g.reporter) hn he
        rw [Reporter.mentions_eq_nil_iff.mp hnil _ hs] at hmention
        cases hmention
      | value hv h => exact .inr ⟨o', hdeclared, _, hv, h⟩
  · exact .inr ⟨p, hc.option_mem_leaves_iff.mp (hleaves _ hp), v, hv, h⟩

include hc hv hleaves in
/-- An option is reached only where it is mentioned. -/
theorem mentions_ne_nil (hkey : key ∈ names.toList) (hn : o.names = names)
    (h : Reaches g.scope p (.option o)) : g.reporter.mentions names false p ≠ [] := by
  rcases mem_options_or_value hc hleaves h with ⟨-, hmention⟩ | ⟨p, hp, v, hval, h⟩
  · exact hmention hn
  · obtain ⟨hforeign, -⟩ := hv p hp v hval _ h o rfl key (hn ▸ hkey)
    rw [OrderedSet.contains_iff.mpr hkey] at hforeign
    cases hforeign

include hd hleaves in
/-- The slots of an option, its value included, are reached only through it. -/
theorem reaches_of_mem_slots (ho : .option o ∈ g.leaves) (hi : i ∈ slots [.option o])
    (hq : Reaches g.scope p q) (hqi : q.slot? = some i) : Reaches g.scope p (.option o) := by
  obtain ⟨c, hreach, hown, hc⟩ := hq.exists_leaf hqi
  have hmem : c ∈ g.leaves := hc.elim (hleaves c) fun ⟨e, he, hc⟩ => mem_leaves_of_entry he c hc
  rwa [← Pattern.eq_of_mem_slots (nodup_slots_leaves hd) hmem ho hown hi]

section Apart

variable (ho : o ∈ g.options) (hown : o.names = names) (hkey : key ∈ names.toList)
  (hnil : g.reporter.mentions names false p = [])

include hc hleaves ho hown hnil in
/-- Where an option is not mentioned, nothing goes by its names, but in values. -/
theorem names_apart_or_value {p' : OptionAtom} (hq : Reaches g.scope p (.option p')) :
    (p' ∈ g.options ∧ ∀ name ∈ p'.names.toList, o.names.contains name = false) ∨
      ∃ o ∈ g.options, ∃ v, o.value = some v ∧ Reaches g.scope v (.option p') := by
  have hwhere : (p' ∈ g.options ∧ (p'.names = names → g.reporter.mentions names false p ≠ [])) ∨
      ∃ o ∈ g.options, ∃ v, o.value = some v ∧ Reaches g.scope v (.option p') :=
    mem_options_or_value hc hleaves hq
  refine hwhere.imp_left fun ⟨hp, hmention⟩ => ⟨hp, fun name hname => ?_⟩
  by_contra hshared
  rw [Bool.not_eq_false, OrderedSet.contains_iff] at hshared
  exact hmention ((hc.agree p' hp o ho name hname hshared).names_eq.trans hown) hnil

include hc hd hv hleaves ho hown hkey hnil in
/-- Nothing fills its slots there, either. -/
theorem slots_apart (hq : Reaches g.scope p q) (hi : i ∈ slots [.option o]) : q.slot? ≠ some i := by
  intro hqi
  have hreach : Reaches g.scope p (.option o) :=
    reaches_of_mem_slots hd hleaves (hc.option_mem_leaves_iff.mpr ho) hi hq hqi
  exact mentions_ne_nil hc hv hleaves hkey hown hreach hnil

end Apart

include hc hd in
/-- A command or argument outside of values has no slot in common with an option. -/
theorem slot_ne_of_pattern_mem {r : Positional} (hr : r.pattern ∈ g.leaves) (ho : o ∈ g.options)
    (hi : i ∈ slots [.option o]) : r.slot ≠ i := by
  rintro rfl
  have he := Pattern.eq_of_mem_slots (nodup_slots_leaves hd) hr (hc.option_mem_leaves_iff.mpr ho)
    (Pattern.mem_slots_self r.slot?_pattern) hi
  cases r <;> cases he

variable (htable : g.table = .ofList g.options) (ho : o ∈ g.options) (hown : o.names = names)
  (hkey : key ∈ names.toList) (hvalue : o.value = some v) (hsole : SoleArgument v leaf)

include hc hd hv htable ho hown hkey hvalue hsole

include hleaves in
/-- Where an option is not mentioned, nothing goes by its names or fills its slots. -/
theorem beside_of_mentions (hnil : g.reporter.mentions names false p = [])
    (hq : Reaches g.scope p q) : Beside o leaf g.table.takes q := by
  have hslot {i : Nat} (hi : i ∈ slots [.option o]) : q.slot? ≠ some i :=
    slots_apart hc hd hv hleaves ho hown hkey hnil hq hi
  rw [Pattern.slots_option hvalue] at hslot
  refine ⟨?_, hslot List.mem_cons_self, hslot (List.mem_cons_of_mem _ hsole.slot_mem)⟩
  rintro p' rfl name hname
  rcases names_apart_or_value hc hleaves ho hown hnil hq with ⟨hp, hapart⟩ | ⟨o', ho', v, hv', h⟩
  · refine ⟨hapart name hname, fun htakes => ?_⟩
    rw [htable, OptionTable.takes_ofList]
    exact ⟨p', hp, hname, htakes⟩
  · exact hown ▸ hv o' ho' v hv' _ h p' rfl name hname

/-- A pattern that mentions an option at most there leads to it. -/
theorem leads_of_mentions (hplain : Plain p) (hleaves : ∀ c ∈ p.leaves, c ∈ g.leaves)
    (hm : ∀ x ∈ g.reporter.mentions names false p, x = (o, false)) :
    Leads g.scope o leaf g.table.takes p := by
  induction hplain with
  | command | argument =>
    exact .beside fun q hq =>
      beside_of_mentions hc hd hv hleaves htable ho hown hkey hvalue hsole rfl hq
  | @option o' =>
    by_cases hn : o'.names = names
    · rw [Reporter.mentions, if_pos hn, List.forall_mem_singleton] at hm
      rw [(Prod.mk.inj hm).1]
      exact .option
    · exact .beside fun q hq =>
        beside_of_mentions hc hd hv hleaves htable ho hown hkey hvalue hsole (if_neg hn) hq
  | @group kind children repeats _ ih =>
    by_cases hnil : g.reporter.mentions names false (.group kind children repeats) = []
    · exact .beside fun q hq =>
        beside_of_mentions hc hd hv hleaves htable ho hown hkey hvalue hsole hnil hq
    · rw [Reporter.mentions, Bool.false_or] at hnil hm
      obtain ⟨x, hx⟩ := List.exists_mem_of_ne_nil _ hnil
      obtain rfl : repeats = false := by
        by_contra hrepeats
        rw [Bool.not_eq_false] at hrepeats
        rw [hrepeats] at hx hm
        have hown := hm x hx
        obtain ⟨c, -, hx⟩ := Reporter.mem_mentionsAll.mp hx
        have hagain := Reporter.again_of_mentions hx
        rw [hown] at hagain
        cases hagain
      refine .group (fun p hp => ?_) fun c hmem => ih c hmem (fun q hq => ?_) fun x hx => ?_
      · have hmem : p.pattern ∈ g.leaves := by
          obtain ⟨c, hmem, hp⟩ := List.mem_flatMap.mp hp
          exact hleaves _ (Pattern.mem_leaves_group.mpr ⟨c, hmem, hp⟩)
        have hother {i : Nat} (hi : i ∈ slots [.option o]) : p.slot ≠ i :=
          slot_ne_of_pattern_mem hc hd hmem ho hi
        rw [Pattern.slots_option hvalue] at hother
        exact ⟨hother List.mem_cons_self, hother (List.mem_cons_of_mem _ hsole.slot_mem)⟩
      · exact hleaves q (Pattern.mem_leaves_group.mpr ⟨c, hmem, hq⟩)
      · exact hm x (Reporter.mem_mentionsAll.mpr ⟨c, hmem, hx⟩)
  | @shortcut s =>
    refine .shortcut fun e he => ?_
    have hentry := Pattern.mem_entries_of_visible he
    obtain ⟨o', a, rfl⟩ := hc.registry.entry e hentry
    by_cases hn : o'.names = names
    · obtain ⟨rfl, rfl⟩ := Prod.mk.inj (hm _ (Reporter.mem_mentions_shortcut hn he))
      refine .group (fun p hp => ?_) (List.forall_mem_singleton.mpr .option)
      cases p <;> simp [Pattern.leaves, Positional.pattern] at hp
    · refine .beside fun q hq => beside_of_mentions hc hd hv (mem_leaves_of_entry hentry) htable ho
        hown hkey hvalue hsole ?_ hq
      simp [Reporter.mentions, Reporter.mentionsAll, hn]

end

end Grammar

end Synopsis
