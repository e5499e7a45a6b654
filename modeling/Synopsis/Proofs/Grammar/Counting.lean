import Mathlib.Algebra.BigOperators.Group.List.Basic
import Synopsis.Proofs.Grammar.Conservation
import Synopsis.Proofs.Grammar.Results
import Synopsis.Proofs.Matcher.Counting
import Synopsis.Proofs.Outcomes

/-! # How often a flag was given

The result of a match counts a flag as often as it occurs among the arguments, but for
hits of a declared option that several shortcuts of the usage stand for: each shortcut
adds all of them.
-/

namespace Synopsis

open Pattern (Reaches slots)
open Argv (occurrences)

variable {names : Names} {key : String}

/-! ## Numbers -/

theorem Slot.count?_hits {s : Slot} (hs : RecordKind.hits.fits s = true) (inRepeat : Bool) :
    (s.hits inRepeat).count? = some ((s.count?.getD 0 : Nat) : Int) := by
  cases inRepeat with
  | true => rfl
  | false =>
    cases s with
    | flag b => cases b <;> rfl
    | unset | count => rfl
    | text | list => cases hs

theorem Slot.isTruthy_iff_of_hits {s : Slot} (hs : RecordKind.hits.fits s = true) :
    s.isTruthy = true ↔ 0 < s.count?.getD 0 := by
  cases s with
  | unset => decide
  | flag b => cases b <;> decide
  | count n => simp [isTruthy, count?, Nat.pos_iff_ne_zero]
  | text | list => cases hs

namespace Value

variable {v w : Value} {x y : Int}

theorem eq_of_count? (h : v.count? = some x) : (∃ b : Bool, v = .bool b ∧ x = b.toInt) ∨ v = .int x := by
  cases v with
  | bool b => exact .inl ⟨b, rfl, (Option.some.inj h).symm⟩
  | int n => exact .inr (congrArg _ (Option.some.inj h))
  | str | list | null => cases h

/-- Numbers add up under the name of an option, too. -/
theorem merge_of_count? (key : String) (hv : v.count? = some x) (hw : w.count? = some y) :
    v.merge key w = .int (x + y) := by
  have hzero {v : Value} {x : Int} (hv : v.count? = some x) :
      (if v.isTruthy then v else .int 0).count? = some x := by
    rcases eq_of_count? hv with ⟨b, rfl, rfl⟩ | rfl
    · cases b <;> rfl
    · by_cases hx : x = 0
      · subst hx
        rfl
      · simp [isTruthy, hx, count?]
  have hadd {v w : Value} (hv : v.count? = some x) (hw : w.count? = some y) :
      v.addOrConcat w = .int (x + y) := by
    rw [addOrConcat, hv, hw]
  have hnull : v.isNull = false := by
    rcases eq_of_count? hv with ⟨b, rfl, -⟩ | rfl <;> rfl
  unfold merge
  split
  · rw [hnull, Bool.false_and, if_neg (by simp)]
    exact hadd (hzero hv) (hzero hw)
  · exact hadd hv hw

theorem count?_merge (key : String) (hv : v.count? = some x) (hw : w.count? = some y) :
    (v.merge key w).count? = some (x + y) := by
  rw [merge_of_count? key hv hw]
  rfl

end Value

theorem Grammar.count?_reshape {expected v : Value} {x y : Int} (he : expected.count? = some x)
    (hv : v.count? = some y) : (reshape expected v).count? = some y := by
  rcases Value.eq_of_count? he with ⟨b, rfl, -⟩ | rfl
  · cases v <;> exact hv
  · cases v with
    | bool | int => simpa [reshape, Value.count?] using hv
    | str | list | null => cases hv

/-- How often an option was met. -/
def metNumber (slots : Slots) (o : OptionAtom) : Nat := (slots.get o.slot).count?.getD 0

/-- How often some mentions were met together. -/
def metTogether (slots : Slots) (xs : List Mention) : Nat :=
  (xs.map fun x => metNumber slots x.1).sum

theorem metTogether_append {slots : Slots} {xs ys : List Mention} :
    metTogether slots (xs ++ ys) = metTogether slots xs + metTogether slots ys := by
  simp [metTogether]

/-- A flag, as the slots have it. -/
def IsFlag (slots : Slots) (o : OptionAtom) : Prop :=
  o.value = none ∧ RecordKind.hits.fits (slots.get o.slot) = true

theorem OptionOf.width_of_flag {o : OptionAtom} (h : o.value = none) (inRepeat : Bool) :
    o.width inRepeat = .flag := by
  simp [OptionOf.width, h]

namespace Tally

variable {all all' : List Pattern} {s : Slots} {q : Pattern}

theorem total_append : (hits names).total (all ++ all') s =
    (hits names).total all s + (hits names).total all' s := by
  simp [total]

theorem total_eq_zero (h : ∀ q ∈ all, (hits names).content s q = 0) :
    (hits names).total all s = 0 :=
  List.sum_eq_zero (List.forall_mem_map.mpr h)

theorem content_option (o : OptionAtom) :
    (hits names).content s (.option o) = if o.names = names then metNumber s o else 0 := rfl

theorem content_eq_zero (h : ∀ o, q = .option o → o.names ≠ names) :
    (hits names).content s q = 0 := by
  cases q with
  | option o => exact if_neg (h o rfl)
  | command | argument | group | either | shortcut => rfl

/-- Values of words count nothing. -/
theorem total_atoms {p : Pattern} (hp : p.Leafwise Pattern.WordyValue) :
    (hits names).total p.atoms s = (hits names).total p.leaves s := by
  have hleaf (q : Pattern) (hq : q ∈ p.leaves) :
      (hits names).total q.atoms s = (hits names).content s q := by
    cases q with
    | option o =>
      have hvalue : (hits names).total (o.value.elim [] Pattern.atoms) s = 0 := by
        refine total_eq_zero fun q' hq' => content_eq_zero ?_
        rintro o' rfl
        cases hv : o.value with
        | none =>
          rw [hv] at hq'
          cases hq'
        | some v =>
          rw [hv] at hq'
          cases Pattern.positional?_of_mem_atoms (hp _ hq o rfl v hv) hq'
      rw [Pattern.atoms_option, ← List.singleton_append, total_append, hvalue, add_zero]
      simp [total]
    | command | argument | shortcut => simp [total, Pattern.atoms]; try rfl
    | group | either => cases Pattern.isInner_of_mem_leaves hq
  rw [Pattern.atoms_eq_flatMap_leaves]
  generalize p.leaves = l at hleaf
  induction l with
  | nil => rfl
  | cons q l ih =>
    obtain ⟨hq, hl⟩ := List.forall_mem_cons.mp hleaf
    rw [List.flatMap_cons, total_append, hq, ih hl]
    simp [total]

end Tally

namespace Reporter

variable {r : Reporter} {slots : Slots}

/-- What a flag reports counts as often as it was met. -/
theorem count?_option (happ : r.appearedOnly = false) {x : Mention} (hx : IsFlag slots x.1) :
    ∃ v, r.option slots x.2 x.1 = some v ∧ v.count? = some (metTogether slots [x] : Int) := by
  have hmet : metTogether slots [x] = (slots.get x.1.slot).count?.getD 0 := by
    simp [metTogether, metNumber]
  unfold Reporter.option
  rw [happ, OptionOf.width_of_flag hx.1, hmet]
  cases hslot : slots.get x.1.slot with
  | unset => exact ⟨_, rfl, rfl⟩
  | flag b => cases b <;> cases x.2 <;> exact ⟨_, rfl, rfl⟩
  | count n =>
    by_cases hn : n = 0
    · subst hn
      exact ⟨_, rfl, rfl⟩
    · simp [Slot.isTruthy, hn, Slot.count?, Value.count?]
  | text | list =>
    have hfits := hx.2
    rw [hslot] at hfits
    cases hfits

theorem count?_neutralOption {x : Mention} (hx : IsFlag slots x.1) :
    (neutralOption x.1 x.2).count? = some 0 := by
  rw [neutralOption, OptionOf.width_of_flag hx.1]
  cases x.2 <;> rfl

/-! ## Shortcuts -/

/-- The shortcuts of a pattern that stand for a declared option of some names. -/
def shortcutsFor (r : Reporter) (names : Names) (p : Pattern) : List Shortcut :=
  p.shortcuts.filter fun s => !(r.mentions names false (.shortcut s)).isEmpty

/-- The mentions of a pattern are its own options, and for each shortcut the declared
option. -/
theorem metTogether_mentions (hr : r.scope.registry.Proper) (hkey : key ∈ names.toList) {met : Nat}
    (hmet : ∀ x ∈ r.scope.registry.options, x.1.names = names → metNumber slots x.1 = met)
    (p : Pattern) (inRepeat : Bool) : metTogether slots (r.mentions names inRepeat p) =
      (Tally.hits names).total p.leaves slots + (r.shortcutsFor names p).length * met := by
  have htogether (xs : List Mention) :
      metTogether slots xs = ((xs.map (·.1)).map (metNumber slots)).sum := by
    rw [List.map_map]
    rfl
  rw [htogether, options_mentions]
  unfold shortcutsFor Pattern.shortcuts
  have hgroup (q : Pattern) (hq : q ∈ p.leaves) := Pattern.isInner_of_mem_leaves hq
  generalize p.leaves = l at hgroup
  induction l with
  | nil => simp [Tally.total]
  | cons q l ih =>
    obtain ⟨hq, hl⟩ := List.forall_mem_cons.mp hgroup
    have htotal : (Tally.hits names).total (q :: l) slots =
        (Tally.hits names).content slots q + (Tally.hits names).total l slots := by
      simp [Tally.total]
    rw [htotal, List.flatMap_cons, List.map_append, List.sum_append, ih hl, List.filterMap_cons]
    cases q with
    | option o =>
      rw [Tally.content_option, mentions]
      by_cases hn : o.names = names
      · simp only [Pattern.shortcut?, hn, if_true, List.map_cons, List.map_nil, List.sum_cons,
          List.sum_nil]
        omega
      · simp only [Pattern.shortcut?, hn, if_false, List.map_nil, List.sum_nil]
        omega
    | shortcut s =>
      have hcontent : (Tally.hits names).content slots (.shortcut s) = 0 := rfl
      rw [hcontent]
      rcases mentions_shortcut hr hkey s false with hnone | ⟨x, hx, hn, hsole⟩
      · simp only [Pattern.shortcut?, List.filter_cons, hnone, List.map_nil, List.sum_nil,
          List.isEmpty_nil, Bool.not_true, Bool.false_eq_true, if_false]
        omega
      · obtain ⟨repeats, hdeclared, -⟩ := mem_behind hx
        simp only [Pattern.shortcut?, List.filter_cons, hsole, List.map_cons, List.map_nil,
          List.sum_cons, List.sum_nil, List.isEmpty_cons, Bool.not_false, if_true,
          List.length_cons, Nat.add_mul, hmet _ hdeclared hn]
        omega
    | command | argument =>
      rw [Tally.content_eq_zero (by rintro _ ⟨⟩)]
      simp only [mentions, Pattern.shortcut?, List.map_nil, List.sum_nil]
      omega
    | group | either => cases hq

end Reporter

/-! ## Declared options -/

namespace Registry

variable {r : Registry} {s : Slots} {o : OptionAtom} {a : Bool}

/-- How often the declared option of some names was met. -/
def hits (r : Registry) (names : Names) (s : Slots) : Nat :=
  ((r.options.filter (·.1.names = names)).map fun x => metNumber s x.1).sum

theorem Proper.hits_eq (h : r.Proper) {key : String} (ho : (o, a) ∈ r.options)
    (hkey : key ∈ o.names.toList) : r.hits o.names s = metNumber s o := by
  simp [hits, h.filter_names ho hkey]

/-- Declared options count no hits besides their own. -/
theorem total_entries (hentry : ∀ e ∈ r.entries, e.IsEntry)
    (hwordy : ∀ e ∈ r.entries, e.Leafwise Pattern.WordyValue) :
    (Tally.hits names).total (r.entries.flatMap Pattern.atoms) s = r.hits names s := by
  unfold hits options
  revert hentry hwordy
  induction r.entries with
  | nil => exact fun _ _ => rfl
  | cons e es ih =>
    intro hentry hwordy
    obtain ⟨he, hes⟩ := List.forall_mem_cons.mp hentry
    obtain ⟨hw, hws⟩ := List.forall_mem_cons.mp hwordy
    obtain ⟨o, a, rfl⟩ := he
    have hoption : Pattern.entryOption? (.group .optional [.option o] a) = some (o, a) := rfl
    have hatoms : (Tally.hits names).total (Pattern.group .optional [.option o] a).atoms s =
        if o.names = names then metNumber s o else 0 := by
      rw [Tally.total_atoms hw]
      simp [Tally.total, Pattern.leaves, Tally.content_option]
    rw [List.flatMap_cons, Tally.total_append, hatoms, ih hes hws, List.filterMap_cons,
      hoption, List.filter_cons]
    by_cases hn : o.names = names <;> simp [hn]

end Registry

/-! ## Matches -/

namespace Grammar

variable {g : Grammar} {config : Config} {doc : String} {raw : List String} {argv : Argv}
  {m : Mapping} {i : Nat} {o : OptionAtom} {u : Pattern} {t : Attempt} {name : String}

/-- What a usage records lies in its own leaves and in those of the declared options. -/
theorem total_atoms_of_usage {n : Nat} {log : List Move} {names : Names} (hc : g.Coherent)
    (hv : g.WordyValues) (hd : Pattern.Distinct g.scope g.usages) (hu : u ∈ g.usages)
    (run : Run g.scope n false u ⟨.blank g.slotCount, argv⟩ log true t) :
    (Tally.hits names).total g.atoms t.slots =
      (Tally.hits names).total u.leaves t.slots + g.registry.hits names t.slots := by
  obtain ⟨before, after, hsplit⟩ := List.append_of_mem hu
  have hslots := hd
  unfold Pattern.Distinct at hslots
  rw [hsplit, Pattern.slots_append, Pattern.slots_append, Pattern.slots_cons] at hslots
  -- The slots of the other usages stay as they were.
  have others (us : List Pattern) (hus : ∀ j ∈ slots us,
      j ∉ slots g.registry.entries ∧ j ∉ slots [u]) :
      (Tally.hits names).total (us.flatMap Pattern.atoms) t.slots = 0 := by
    refine Tally.total_eq_zero fun q hq => ?_
    cases hslot : q.slot? with
    | none => simp [Tally.content, hslot]
    | some j =>
      obtain ⟨hentry, hown⟩ := hus j (List.mem_filterMap.mpr ⟨q, hq, hslot⟩)
      have hget : t.slots.get j = (Slots.blank g.slotCount).get j := by
        refine (run.untouched fun q' hq' he => ?_).get_eq
        have hreach := hq'.mem_slots he
        rw [Pattern.slots_append] at hreach
        exact (List.mem_append.mp hreach).elim hentry hown
      rw [Tally.content_of_slot? _ hslot, hget, Slots.get_blank, Tally.unset]
  obtain ⟨-, hline, hentries⟩ := List.nodup_append'.mp hslots
  obtain ⟨-, hrest, hfront⟩ := List.nodup_append'.mp hline
  have hbefore := others before fun j hj =>
    ⟨fun he => hentries he (List.mem_append_left _ hj),
      fun ho => hfront hj (List.mem_append_left _ ho)⟩
  have hafter := others after fun j hj =>
    ⟨fun he => hentries he (List.mem_append_right _ (List.mem_append_right _ hj)),
      fun ho => (List.nodup_append'.mp hrest).2.2 ho hj⟩
  have hwordy : ∀ e ∈ g.registry.entries, e.Leafwise Pattern.WordyValue := by
    intro e he
    obtain ⟨o, a, rfl⟩ := hc.registry.entry e he
    exact hv.leafwise_entry (List.mem_filterMap.mpr ⟨_, he, rfl⟩)
  rw [atoms, hsplit, List.flatMap_append, List.flatMap_append, List.flatMap_cons,
    Tally.total_append, Tally.total_append, Tally.total_append, hbefore, hafter,
    Registry.total_entries hc.registry.entry hwordy, Tally.total_atoms (hv.leafwise_usage hu)]
  omega

/-- Without a shortcut that stands for it, a declared option is not met. -/
theorem hits_eq_zero {n : Nat} {log : List Move} (names : Names) (hc : g.Coherent)
    (hv : g.WordyValues) (hd : Pattern.Distinct g.scope g.usages) (hu : u ∈ g.usages)
    (run : Run g.scope n false u ⟨.blank g.slotCount, argv⟩ log true t)
    (hs : g.reporter.shortcutsFor names u = []) : g.registry.hits names t.slots = 0 := by
  refine List.sum_eq_zero fun x hx => ?_
  obtain ⟨⟨o, a⟩, ho, rfl⟩ := List.mem_map.mp hx
  obtain ⟨ho, hnames⟩ := List.mem_filter.mp ho
  have hnames : o.names = names := of_decide_eq_true hnames
  have hget : t.slots.get o.slot = (Slots.blank g.slotCount).get o.slot := by
    refine (run.untouched fun q hq he => ?_).get_eq
    have hentry : .option o ∈ g.atoms := mem_atoms_of_mem_options (mem_options_of_registry ho)
    have hmem : q ∈ g.atoms := List.mem_flatMap.mpr (owns_of_reaches hu hq _ he)
    obtain rfl := Pattern.eq_of_slot?_eq (nodup_atoms hd) hmem hentry he rfl
    rcases hv.mem_leaves_or_behind hc hu hq with hleaf | ⟨s, hs', a', hvisible⟩
    · -- The slot would belong to the usage and to the declared options.
      unfold Pattern.Distinct at hd
      rw [Pattern.slots_append] at hd
      have hdisjoint := (List.nodup_append'.mp hd).2.2
      have hdeclared : o.slot ∈ slots g.registry.entries :=
        Pattern.mem_slots.mpr ⟨_, Registry.mem_entries ho, .option o, mem_entry_atoms, rfl⟩
      exact hdisjoint hdeclared
        (Pattern.mem_slots.mpr ⟨u, hu, .option o, Pattern.mem_atoms_of_mem_leaves (i := o.slot) hleaf rfl, rfl⟩)
    · have hstands : s ∈ g.reporter.shortcutsFor names u := by
        refine List.mem_filter.mpr ⟨List.mem_filterMap.mpr ⟨_, hs', rfl⟩, ?_⟩
        have hmention : (o, false || a') ∈ g.reporter.mentions names false (.shortcut s) :=
          List.mem_filter.mpr ⟨List.mem_map.mpr ⟨_, hvisible, rfl⟩, decide_eq_true hnames⟩
        simpa using List.ne_nil_of_mem hmention
      rw [hs] at hstands
      cases hstands
  simp [metNumber, hget, Slot.count?]

/-- The hits of the leaves that a usage reaches are the occurrences of the names. -/
theorem hits_of_run {n : Nat} {log : List Move} {takes : String → Bool} (hc : g.Coherent)
    (hv : g.WordyValues) (hd : Pattern.Distinct g.scope g.usages)
    (htakes : ∀ p ∈ g.options, ∀ name ∈ p.names.toList, Reckons takes p name) (ho : o ∈ g.options)
    (hdash : "--" ∉ o.names.toList) (ht : g.tokenize raw = .ok argv) (hu : u ∈ g.usages)
    (run : Run g.scope n false u ⟨.blank g.slotCount, argv⟩ log true t)
    (hex : t.argv.isExhausted = true) :
    (Tally.hits o.names).total g.atoms t.slots =
      occurrences argv.style takes o.names argv.tokens := by
  have hdash : o.names.contains "--" = false := by
    rw [← Bool.not_eq_true, OrderedSet.contains_iff]
    exact hdash
  have hcount (q : Pattern) (hq : Reaches g.scope u q) :
      Countable o.names takes g.atoms q := by
    refine ⟨fun j hj => List.mem_flatMap.mpr (owns_of_reaches hu hq j hj), ?_⟩
    rintro p rfl name hname
    have hp := hv.mem_options_of_mem_atoms hc
      (List.mem_flatMap.mpr (owns_of_reaches hu hq p.slot rfl))
    refine ⟨?_, htakes p hp name hname⟩
    rw [Bool.eq_iff_iff, OrderedSet.contains_iff, decide_eq_true_iff]
    exact ⟨fun hown => (hc.agree p hp o ho name hname hown).names_eq, fun he => he ▸ hname⟩
  have hrun := (Counts.closed (nodup_atoms hd) hdash).run hcount run
  have hcounted := hrun.counted (tokenized_of_tokenize ht)
  rw [Argv.occurrences_of_not_flag (Argv.kind_ne_flag_of_isExhausted hex), Tally.total_blank, add_zero, zero_add] at hcounted
  exact hcounted

/-- The occurrences of the names are the hits of the leaves of the usage and those of the
declared option. The mentions of the usage met its leaves, and for each shortcut that
stands for the declared option its hits once more. -/
theorem met_of_run {n : Nat} {log : List Move} {takes : String → Bool} (hc : g.Coherent)
    (hv : g.WordyValues) (hd : Pattern.Distinct g.scope g.usages)
    (htakes : ∀ p ∈ g.options, ∀ name ∈ p.names.toList, Reckons takes p name) (ho : o ∈ g.options)
    (hname : name ∈ o.names.toList) (hdash : "--" ∉ o.names.toList)
    (ht : g.tokenize raw = .ok argv) (hu : u ∈ g.usages)
    (run : Run g.scope n false u ⟨.blank g.slotCount, argv⟩ log true t)
    (hex : t.argv.isExhausted = true) :
    ∃ own, own + g.registry.hits o.names t.slots =
        occurrences argv.style takes o.names argv.tokens ∧
      metTogether t.slots (g.reporter.mentions o.names false u) =
        own + (g.reporter.shortcutsFor o.names u).length * g.registry.hits o.names t.slots ∧
      (g.reporter.shortcutsFor o.names u = [] → g.registry.hits o.names t.slots = 0) := by
  have hdeclared (x : Mention) (hx : x ∈ g.registry.options) (hn : x.1.names = o.names) :
      metNumber t.slots x.1 = g.registry.hits o.names t.slots :=
    hn ▸ (hc.registry.hits_eq hx (hn ▸ hname)).symm
  have hhits := hits_of_run hc hv hd htakes ho hdash ht hu run hex
  rw [total_atoms_of_usage hc hv hd hu run] at hhits
  exact ⟨_, hhits, Reporter.metTogether_mentions hc.registry hname hdeclared u false,
    hits_eq_zero o.names hc hv hd hu run⟩

/-- So the mentions of a usage met every occurrence once, if at most one shortcut stands for
the declared option, and its hits once more for any further one. -/
theorem number_of_run {n : Nat} {log : List Move} {takes : String → Bool} (hc : g.Coherent)
    (hv : g.WordyValues) (hd : Pattern.Distinct g.scope g.usages)
    (htakes : ∀ p ∈ g.options, ∀ name ∈ p.names.toList, Reckons takes p name) (ho : o ∈ g.options)
    (hname : name ∈ o.names.toList) (hdash : "--" ∉ o.names.toList)
    (ht : g.tokenize raw = .ok argv) (hu : u ∈ g.usages)
    (run : Run g.scope n false u ⟨.blank g.slotCount, argv⟩ log true t)
    (hex : t.argv.isExhausted = true) :
    metTogether t.slots (g.reporter.mentions o.names false u) + g.registry.hits o.names t.slots =
        occurrences argv.style takes o.names argv.tokens +
          (g.reporter.shortcutsFor o.names u).length * g.registry.hits o.names t.slots ∧
      (metTogether t.slots (g.reporter.mentions o.names false u) =
          occurrences argv.style takes o.names argv.tokens ↔
        (g.reporter.shortcutsFor o.names u).length ≤ 1 ∨ g.registry.hits o.names t.slots = 0) ∧
      g.registry.hits o.names t.slots ≤
        metTogether t.slots (g.reporter.mentions o.names false u) := by
  obtain ⟨own, hocc, hmet, hzero⟩ :=
    met_of_run hc hv hd htakes ho hname hdash ht hu run hex
  rw [hmet, ← hocc]
  refine ⟨by omega, ?_⟩
  cases hk : g.reporter.shortcutsFor o.names u with
  | nil => simp [hzero hk]
  | cons s rest =>
    rw [List.length_cons, Nat.succ_le_succ_iff, Nat.le_zero, ← Nat.mul_eq_zero, Nat.add_mul,
      Nat.one_mul]
    omega

/-- A mention of a flag is a flag, and its slot is that of a flag. -/
theorem isFlag_of_typed (hc : g.Coherent) (hv : g.PlainValues) (ho : o ∈ g.options)
    (hvalue : o.value = none) {slots : Slots} (hty : Typed g.Owns slots) {p : OptionAtom}
    (hp : p ∈ g.options) (hname : name ∈ o.names.toList) (hn : p.names = o.names) :
    IsFlag slots p := by
  have htakes := hv.takesValue_eq ho hp (hc.agree o ho p hp name hname (hn ▸ hname))
  refine ⟨?_, hty (.option p) (fun i hi => ?_) _ rfl⟩
  · simpa [OptionOf.takesValue, hvalue] using htakes.symm
  · exact List.mem_flatMap.mp (mem_atoms_of_mem_options hp)

theorem count?_declaredReported {o : OptionAtom} {repeats : Bool} {v : Value} {n : Nat}
    (hd : o.default = none) (hv : v.count? = some (n : Int)) :
    (declaredReported o repeats v).count? = some (n : Int) := by
  unfold declaredReported
  rw [hd]
  cases v.isTruthy with
  | false | true =>
    dsimp only
    split
    · rw [hv]
      rfl
    · exact hv

theorem count?_declaredUnreported {slots : Slots} {x : Mention} (hx : IsFlag slots x.1)
    (hd : x.1.default = none) : (declaredUnreported x.1 x.2 (slots.get x.1.slot)).count? =
      some (metNumber slots x.1 : Int) := by
  have hhits : declaredUnreported x.1 x.2 (slots.get x.1.slot) = (slots.get x.1.slot).hits x.2 := by
    simp [declaredUnreported, hd, OptionOf.takesValue, hx.1]
  rw [hhits, Slot.count?_hits hx.2]
  rfl

/-- An option is declared, or some usage mentions it. -/
theorem mentioned (ho : o ∈ g.options) : (∃ x ∈ g.registry.options, x.1.names = o.names) ∨
    ∃ u ∈ g.usages, g.reporter.mentions o.names false u ≠ [] := by
  rcases mem_options_iff.mp ho with ⟨a, ho⟩ | ⟨u, hu, ho⟩
  · exact .inl ⟨_, ho, rfl⟩
  · refine .inr ⟨u, hu, fun hnil => ?_⟩
    have hoptions : (g.reporter.mentions o.names false u).map (·.1) =
        u.leaves.flatMap fun q => (g.reporter.mentions o.names false q).map (·.1) :=
      Reporter.options_mentions u false
    rw [hnil, List.map_nil] at hoptions
    have hnone := List.flatMap_eq_nil_iff.mp hoptions.symm _ ho
    simp [Reporter.mentions] at hnone

/-- The result of a usage counts under the names of a flag how often its mentions were met. -/
theorem tells_assemble (happ : g.config.appearedOnly = false) {slots : Slots} {dashes : Bool} {n : Nat}
    (hkey : key ∈ names.toList) (hu : g.usages[i]? = some u)
    (hn : metTogether slots (g.reporter.mentions names false u) = n)
    (hr : AptRegistry g.registry (IsFlag slots) names)
    (husages : ∀ u ∈ g.usages, u.Leafwise (AptLeaf (IsFlag slots) names))
    (hdeclared : ∀ x ∈ g.registry.options, x.1.names = names →
      x.1.default = none ∧ metNumber slots x.1 ≤ n)
    (hdash : "--" ∉ names.toList) (hmention : (∃ x ∈ g.registry.options, x.1.names = names) ∨
      ∃ u ∈ g.usages, g.reporter.mentions names false u ≠ []) :
    Tells (·.count? = some (n : Int)) (g.assemble i slots dashes) names := by
  have happ' : g.reporter.appearedOnly = false := happ
  have hshows (key : String) (hkey : key ∈ names.toList) :=
    shows_reported (R := fun xs v => v.count? = some (metTogether slots xs : Int))
      (Reporter.shows_collect hkey hr (fun x _ => Reporter.count?_option happ')
        (by
          rintro xs ys _ _ ⟨v, rfl, hv⟩ ⟨w, rfl, hw⟩
          rw [metTogether_append, Int.natCast_add]
          exact ⟨_, rfl, Value.count?_merge key hv hw⟩)
        false (husages u (List.mem_of_getElem? hu)))
  have hmatched : Allows (·.count? = some (n : Int)) (n = 0) _ names :=
    allows_of_shows hshows (fun v hv => hn ▸ hv) fun hnil => by
      rw [← hn, hnil]
      rfl
  have hrest : ∀ u ∈ g.usages.eraseIdx i, u.Leafwise (AptLeaf (IsFlag slots) names) :=
    fun u hu => husages u (List.mem_of_mem_eraseIdx hu)
  -- Usages that did not match add zeros.
  obtain ⟨hothers, hpresent⟩ := allows_others (R := fun _ w => w.count? = some 0) hr
    (fun x _ => Reporter.count?_neutralOption)
    (by
      intro xs ys v w hv hw
      rw [Reporter.mergeNeutral, hv, hw]
      rfl)
    (fun _ _ _ _ _ hw => hw) hrest (fun _ _ v w hv hw => count?_reshape hw hv)
    (fun hz _ w hw => by rw [hw, hz]; rfl) hmatched
  have hdeclares : ∀ x ∈ g.registry.options, x.1.names = names →
      Declares g slots (·.count? = some (n : Int)) (·.count? = some (n : Int)) (n = 0) x := by
    intro x hx hnames
    obtain ⟨hd, hle⟩ := hdeclared x hx hnames
    refine ⟨fun v => count?_declaredReported hd, fun hz => ⟨happ, ?_⟩⟩
    have hflag := ((hr.apt x hx).of_mem hkey (hnames ▸ hkey)).2
    have hcount := count?_declaredUnreported hflag hd
    have hmet : metNumber slots x.1 = n := by omega
    rwa [hmet] at hcount
  have htells := (allows_declared (fun _ => id) hr.apt hdeclares hothers).1 (hmention.imp id ?_)
  · unfold assemble
    rw [hu]
    exact htells.insert_dashes hdash
  · rintro ⟨u', hu', hne⟩
    refine hpresent ?_
    obtain ⟨k, hk, rfl⟩ := List.mem_iff_getElem.mp hu'
    by_cases hki : k = i
    · subst hki
      rw [List.getElem?_eq_getElem hk] at hu
      obtain rfl := Option.some.inj hu
      exact .inl (tells_of_shows hne hshows fun v hv => hn ▸ hv)
    · refine .inr ⟨_, List.mem_eraseIdx_iff_getElem.mpr ⟨k, hk, hki, rfl⟩, ?_⟩
      rwa [Reporter.neutralMentions_singleton, happ', if_neg Bool.false_ne_true]

/-- Under the names of a flag, the result of a match has a number: the occurrences of the
flag among the arguments, if at most one shortcut of the usage that matched stands for
the flag. Any further one adds the hits of the declared option once more. -/
theorem matchArgs_counts (hg : compile config doc = .ok g) (happ : g.config.appearedOnly = false)
    (hv : g.PlainValues) (ho : o ∈ g.options) (hname : name ∈ o.names.toList)
    (hvalue : o.value = none)
    (hdefault : ∀ p ∈ g.options, p.names = o.names → p.default = none)
    (hdash : "--" ∉ o.names.toList)
    (hcommand : ∀ u ∈ g.usages, ∀ leaf, .command leaf ∈ u.leaves →
      ∀ name ∈ leaf.names.toList, name ∉ o.names.toList)
    (ht : g.tokenize raw = .ok argv) (hm : g.matchArgs raw = .ok m) :
    ∃ i u t, ∃ n : Nat, g.usages[i]? = some u ∧
      g.matchAlternative i ⟨.blank g.slotCount, argv⟩ = .ok true t ∧
      Tells (·.count? = some (n : Int)) m o.names ∧
      n + g.registry.hits o.names t.slots =
        occurrences argv.style g.table.takes o.names argv.tokens +
          (g.reporter.shortcutsFor o.names u).length * g.registry.hits o.names t.slots ∧
      (n = occurrences argv.style g.table.takes o.names argv.tokens ↔
        (g.reporter.shortcutsFor o.names u).length ≤ 1 ∨ g.registry.hits o.names t.slots = 0) := by
  obtain ⟨argv', i, t, ht', ha, hex, rfl⟩ := exists_of_matchArgs hm
  obtain rfl := Except.ok.inj (ht'.symm.trans ht)
  have hc := coherent_of_compile hg
  have hd := distinct_of_compile hg
  obtain ⟨source, registry, usages, hb, -⟩ := build_of_compile hg
  have htable : g.table = .ofList g.options := (eq_of_build hb).2.2.2.2.2
  rcases run_of_matchAlternative ha with ⟨-, hb, -⟩ | ⟨u, k, log, hu, run⟩
  · cases hb
  have hmem := List.mem_of_getElem? hu
  have hty : Typed g.Owns t.slots :=
    (Typed.closed (apart_of_distinct hd)).run (fun q hq => owns_of_reaches hmem hq) run (Typed.blank _)
  have hflag (p : OptionAtom) (hp : p ∈ g.options) (hn : p.names = o.names) : IsFlag t.slots p :=
    isFlag_of_typed hc hv ho hvalue hty hp hname hn
  have hregistry := hc.aptRegistry ho hflag
  have husages := hc.aptLeaf ho hflag hcommand
  have hdeclared (x : Mention) (hx : x ∈ g.registry.options) (hn : x.1.names = o.names) :
      metNumber t.slots x.1 = g.registry.hits o.names t.slots :=
    hn ▸ (hc.registry.hits_eq hx (hn ▸ hname)).symm
  obtain ⟨hnumber, hiff, hle⟩ := number_of_run hc hv.wordyValues hd
    (fun p hp name => hv.reckons hc htable hp) ho hname hdash ht hmem run hex
  refine ⟨i, u, t, _, hu, ha, tells_assemble happ hname hu rfl hregistry husages ?_ hdash
    (mentioned ho), hnumber, hiff⟩
  exact fun x hx hn => ⟨hdefault _ (mem_options_of_registry hx) hn, hdeclared x hx hn ▸ hle⟩

/-- In `[-q]... [options] go`, the arguments `-qvq go` have two `-q` in one stack. -/
theorem stacked_usage : ∃ g argv m u q v s go,
    compile {} "Usage: prog [-q]... [options] go\n\nOptions:\n  -v  Verbose." = .ok g ∧
      g.tokenize ["-qvq", "go"] = .ok argv ∧ g.matchArgs ["-qvq", "go"] = .ok m ∧
      g.config.appearedOnly = false ∧ g.options = [v, q] ∧ g.usages = [u] ∧
      u.leaves = [.option q, .shortcut s, .command go] ∧
      (q.value = none ∧ v.value = none ∧ q.default = none ∧ v.default = none) ∧
      q.names = .singleton "-q" ∧ go.names = .singleton "go" ∧
      occurrences argv.style g.table.takes q.names argv.tokens = 2 := by
  obtain ⟨g, hg, happ, hoptions, husages, ⟨m, hm, -⟩, argv, ht, hocc⟩ : ∃ g,
      compile {} "Usage: prog [-q]... [options] go\n\nOptions:\n  -v  Verbose." = .ok g ∧
        g.config.appearedOnly = false ∧
        g.options = [⟨.singleton "-v", none, none, 0⟩, ⟨.singleton "-q", none, none, 1⟩] ∧
        g.usages = [.required [.group .optional [.option ⟨.singleton "-q", none, none, 1⟩] true,
          .shortcut { title := "", hidden := .singleton "-q" }, .command ⟨.singleton "go", 2⟩]] ∧
        (∃ m, g.matchArgs ["-qvq", "go"] = .ok m ∧ True) ∧
        ∃ argv, g.tokenize ["-qvq", "go"] = .ok argv ∧
          occurrences argv.style g.table.takes (.singleton "-q") argv.tokens = 2 := by decide +kernel
  exact ⟨g, argv, m, _, _, _, _, _, hg, ht, hm, happ, hoptions, husages, rfl, ⟨rfl, rfl, rfl, rfl⟩,
    rfl, rfl, hocc⟩

theorem stacked_flags_are_counted : ∃ g m,
    compile {} "Usage: prog [-q]... [options] go\n\nOptions:\n  -v  Verbose." = .ok g ∧
      g.matchArgs ["-qvq", "go"] = .ok m ∧ Tells (·.count? = some 2) m (.singleton "-q") := by
  obtain ⟨g, argv, m, u, q, v, s, go, hg, ht, hm, happ, hoptions, husages, hleaves,
    ⟨hq, hv, hqd, hvd⟩, hqn, hgon, hocc⟩ := stacked_usage
  have hplain : g.PlainValues := by
    constructor <;> simp [hoptions, hq, hv]
  have hname : "-q" ∈ q.names.toList := by simp [hqn]
  obtain ⟨i, u', t, n, hu, -, htells, -, hn⟩ := matchArgs_counts hg happ hplain
    (by simp [hoptions]) hname hq (by simp [hoptions, hqd, hvd]) (by simp [hqn])
    (by simp [husages, hleaves, hgon, hqn]) ht hm
  obtain rfl : u' = u := by simpa [husages] using List.mem_of_getElem? hu
  have hsole : (g.reporter.shortcutsFor q.names u').length ≤ 1 := by
    refine (List.length_filter_le _ _).trans ?_
    rw [Pattern.shortcuts, hleaves]
    exact Nat.le_refl 1
  rw [hn.mpr (.inl hsole), hocc, hqn] at htells
  exact ⟨g, m, hg, hm, htells⟩

/-- In `[options] go [options]`, both shortcuts report the one `-v` that was given. -/
theorem two_shortcuts_count_twice : ∃ g argv m o,
    compile {} "Usage: prog [options] go [options]\n\nOptions:\n  -v  V." = .ok g ∧
      g.tokenize ["-v", "go"] = .ok argv ∧ g.matchArgs ["-v", "go"] = .ok m ∧
      g.options = [o] ∧ o.value = none ∧ o.default = none ∧ o.names = .singleton "-v" ∧
      occurrences argv.style g.table.takes o.names argv.tokens = 1 ∧
      m.find? "-v" = some (.int 2) := by
  obtain ⟨g, hg, hoptions, ⟨argv, ht, hocc⟩, m, hm, htwo⟩ :
      ∃ g, compile {} "Usage: prog [options] go [options]\n\nOptions:\n  -v  V." = .ok g ∧
        g.options = [⟨.singleton "-v", none, none, 0⟩] ∧
        (∃ argv, g.tokenize ["-v", "go"] = .ok argv ∧
          occurrences argv.style g.table.takes (.singleton "-v") argv.tokens = 1) ∧
        ∃ m, g.matchArgs ["-v", "go"] = .ok m ∧ m.find? "-v" = some (.int 2) := by decide +kernel
  exact ⟨g, argv, m, _, hg, ht, hm, hoptions, rfl, rfl, rfl, hocc, htwo⟩

end Grammar

end Synopsis
