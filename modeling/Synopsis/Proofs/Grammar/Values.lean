import Synopsis.Proofs.Grammar.Options
import Synopsis.Proofs.Grammar.Soundness
import Synopsis.Proofs.Matcher.Counting

/-! # Values made of words

Where the value patterns of all options are made of commands and arguments, the options
that a usage can reach are those that it spells out and those behind its shortcuts, and
the table of names knows which of them take a value.
-/

namespace Synopsis

namespace Pattern

variable {scope : Scope} {p q v : Pattern} {o : OptionAtom} {i : Nat}

/-- All leaves are commands and arguments. -/
def Wordy (p : Pattern) : Prop := p.Leafwise (·.positional?.isSome)

theorem positional?_of_mem_atoms (h : p.Wordy) (hq : q ∈ p.atoms) : q.positional?.isSome := by
  rw [atoms_eq_flatMap_leaves] at hq
  obtain ⟨q', hq', hq⟩ := List.mem_flatMap.mp hq
  have hword := h q' hq'
  cases q' with
  | command | argument => exact List.mem_singleton.mp hq ▸ hword
  | option | group | either | shortcut => cases hword

/-- The options of a leaf have values of words. -/
def WordyValue (q : Pattern) : Prop := ∀ o, q = .option o → ∀ v, o.value = some v → v.Wordy

theorem leafwise_of_wordy (h : p.Wordy) : p.Leafwise WordyValue := by
  rintro q hq o rfl
  cases h _ hq

/-- Options in value patterns there are none. -/
theorem mem_leaves_of_mem_atoms (h : p.Leafwise WordyValue) (ho : .option o ∈ p.atoms) :
    .option o ∈ p.leaves := by
  rw [atoms_eq_flatMap_leaves] at ho
  obtain ⟨q, hq, ho⟩ := List.mem_flatMap.mp ho
  cases q with
  | option o' =>
    rw [atoms_option] at ho
    rcases List.mem_cons.mp ho with he | ho
    · exact he ▸ hq
    · cases hv : o'.value with
      | none =>
        rw [hv] at ho
        cases ho
      | some v =>
        rw [hv] at ho
        cases positional?_of_mem_atoms (h _ hq o' rfl v hv) ho
  | command | argument => cases List.mem_singleton.mp ho
  | shortcut => cases ho
  | group | either => cases isInner_of_mem_leaves hq

/-- What is reached lies in the pattern itself or behind one of its shortcuts. -/
theorem Reaches.mem_atoms_or_behind (h : Reaches scope p q) (hp : p.Leafwise WordyValue)
    (hi : q.slot? = some i) :
    q ∈ p.atoms ∨ ∃ s, .shortcut s ∈ p.leaves ∧ ∃ e ∈ scope.visible s, Reaches scope e q := by
  induction h with
  | refl => exact .inl (mem_atoms_self hi)
  | @value o v q hv h ih =>
    have hwordy := hp (.option o) (List.mem_singleton_self _) o rfl v hv
    rcases ih (leafwise_of_wordy hwordy) hi with hq | ⟨s, hs, -⟩
    · rw [atoms_option, hv]
      exact .inl (List.mem_cons_of_mem _ hq)
    · cases hwordy _ hs
  | child hc _ ih =>
    rcases ih (leafwise_group.mp hp _ hc) hi with hq | ⟨s, hs, hq⟩
    · exact .inl ((atoms_sublist_atomsAll hc).subset hq)
    · exact .inr ⟨s, mem_leaves_group.mpr ⟨_, hc, hs⟩, hq⟩
  | branch hc _ ih =>
    rcases ih (leafwise_either.mp hp _ hc) hi with hq | ⟨s, hs, hq⟩
    · exact .inl ((atoms_sublist_atomsAll hc).subset hq)
    · exact .inr ⟨s, mem_leaves_either.mpr ⟨_, hc, hs⟩, hq⟩
  | @entry s e q he h _ => exact .inr ⟨s, List.mem_singleton_self _, e, he, h⟩

end Pattern

/-! ## The table of names -/

namespace OptionTable

variable {wanted : Option Nat} {entries : List (String × Option Nat)} {name key : String}
  {t : OptionTable} {o : OptionAtom}

/-- The name is known to take a value. -/
def takes (t : OptionTable) (name : String) : Bool := (t.valueCount? name).isSome

theorem lookup_map (entries : List (String × Option Nat)) (key : String)
    (f : String → Option Nat → Option Nat) : (entries.map fun (known, n) =>
    (known, f known n)).lookup key = (entries.lookup key).map (f key) := by
  induction entries with
  | nil => rfl
  | cons e entries ih =>
    rw [List.map_cons, List.lookup_cons, List.lookup_cons, ih]
    split
    next he => rw [eq_of_beq he, Option.map_some]
    next => rfl

theorem isSome_insertName : ((insertName wanted entries name).lookup key).join.isSome =
    ((entries.lookup key).join.isSome || (key == name && wanted.isSome)) := by
  unfold insertName
  split
  next hmem =>
    rw [lookup_map entries key fun known n => if known == name then n.or wanted else n]
    cases hl : entries.lookup key with
    | some n => cases key == name <;> simp
    | none =>
      have hne : (key == name) = false := beq_false_of_ne fun he => by
        obtain ⟨e, he', hk⟩ := List.any_eq_true.mp hmem
        have hother := List.lookup_eq_none_iff.mp hl e he'
        simp [he, eq_of_beq hk] at hother
      simp [hne]
  next hnew =>
    rw [List.lookup_append]
    cases hk : key == name with
    | true =>
      obtain rfl := eq_of_beq hk
      have hnone : entries.lookup key = none := List.lookup_eq_none_iff.mpr fun e he =>
        bne_iff_ne.mpr fun h => hnew (List.any_eq_true.mpr ⟨e, he, beq_iff_eq.mpr h.symm⟩)
      simp [hnone]
    | false => simp [hk, List.lookup_cons]

theorem takes_insert :
    (t.insert o).takes key = (t.takes key || (o.names.toList.contains key && o.takesValue)) := by
  have hreserved : (reserved o).isSome = o.takesValue := by
    simp [reserved, OptionOf.takesValue]
  have hnames (names : List String) (entries : List (String × Option Nat)) :
      ((names.foldl (insertName (reserved o)) entries).lookup key).join.isSome =
        ((entries.lookup key).join.isSome || (names.contains key && o.takesValue)) := by
    induction names generalizing entries with
    | nil => simp
    | cons name names ih =>
      rw [List.foldl_cons, ih, isSome_insertName, hreserved, List.contains_cons, Bool.or_assoc,
        ← Bool.and_or_distrib_right]
  exact hnames o.names.toList t.entries

/-- A name takes a value if it does so anywhere. -/
theorem takes_ofList {os : List OptionAtom} :
    (ofList os).takes key = true ↔ ∃ o ∈ os, key ∈ o.names.toList ∧ o.takesValue = true := by
  suffices h : ∀ t : OptionTable, (os.foldl insert t).takes key = true ↔
      t.takes key = true ∨ ∃ o ∈ os, key ∈ o.names.toList ∧ o.takesValue = true by
    exact (h {}).trans (or_iff_right (by simp [takes, valueCount?]))
  induction os with
  | nil => simp
  | cons o os ih =>
    intro t
    rw [List.foldl_cons, ih, takes_insert]
    simp [or_assoc]

end OptionTable

/-! ## Grammars -/

open Pattern (Reaches Wordy WordyValue)

namespace Grammar

variable {g : Grammar} {o p : OptionAtom} {u e : Pattern} {a : Bool} {name : String}

/-- The value patterns of all options are made of words. -/
def WordyValues (g : Grammar) : Prop := ∀ o ∈ g.options, ∀ v, o.value = some v → v.Wordy

/-- The value patterns of all options are made of words, and can take one. -/
structure PlainValues (g : Grammar) : Prop where
  wordy : ∀ o ∈ g.options, ∀ v, o.value = some v → v.Wordy
  arity : ∀ o ∈ g.options, ∀ v, o.value = some v → v.arity ≠ Arity.flag

theorem mem_options_of_registry (h : (o, a) ∈ g.registry.options) : o ∈ g.options :=
  List.mem_append_left _ (List.mem_map.mpr ⟨_, h, rfl⟩)

theorem mem_options_of_usage (hu : u ∈ g.usages) (h : .option o ∈ u.leaves) : o ∈ g.options :=
  List.mem_append_right _ (List.mem_flatMap.mpr ⟨u, hu, Pattern.mem_options.mpr h⟩)

theorem mem_options_iff : o ∈ g.options ↔
    (∃ a, (o, a) ∈ g.registry.options) ∨ ∃ u ∈ g.usages, .option o ∈ u.leaves := by
  simp [options, Pattern.mem_options]

theorem mem_entry_atoms : .option o ∈ (Pattern.group .optional [.option o] a).atoms := by
  simp [Pattern.atoms, Pattern.atoms_option]

theorem mem_atoms_of_mem_options (h : o ∈ g.options) : .option o ∈ g.atoms := by
  rcases mem_options_iff.mp h with ⟨a, h⟩ | ⟨u, hu, h⟩
  · exact List.mem_flatMap.mpr ⟨_, List.mem_append_left _ (Registry.mem_entries h), mem_entry_atoms⟩
  · exact List.mem_flatMap.mpr ⟨u, List.mem_append_right _ hu,
      Pattern.mem_atoms_of_mem_leaves h (i := o.slot) rfl⟩

namespace WordyValues

variable (hv : g.WordyValues)
include hv

theorem leafwise_usage (hu : u ∈ g.usages) : u.Leafwise WordyValue := by
  rintro q hq o rfl
  exact hv o (mem_options_of_usage hu hq)

theorem leafwise_entry (h : (o, a) ∈ g.registry.options) :
    (Pattern.group .optional [.option o] a).Leafwise WordyValue := by
  rw [Pattern.leafwise_group, List.forall_mem_singleton]
  intro q hq
  rw [List.mem_singleton.mp hq]
  rintro o' ho
  cases ho
  exact hv o (mem_options_of_registry h)

variable (hc : g.Coherent)
include hc

theorem mem_options_of_mem_atoms (h : .option o ∈ g.atoms) : o ∈ g.options := by
  obtain ⟨p, hp, h⟩ := List.mem_flatMap.mp h
  rcases List.mem_append.mp hp with hp | hp
  · obtain ⟨o', a, rfl⟩ := hc.registry.entry p hp
    have hdeclared : (o', a) ∈ g.registry.options := List.mem_filterMap.mpr ⟨_, hp, rfl⟩
    have hleaf := Pattern.mem_leaves_of_mem_atoms (hv.leafwise_entry hdeclared) h
    simp only [Pattern.mem_leaves_group, List.mem_singleton, exists_eq_left] at hleaf
    cases List.mem_singleton.mp hleaf
    exact mem_options_of_registry hdeclared
  · exact mem_options_of_usage hp (Pattern.mem_leaves_of_mem_atoms (hv.leafwise_usage hp) h)

/-- An option that a usage reaches is spelled out, or a shortcut stands for it. -/
theorem mem_leaves_or_behind (hu : u ∈ g.usages) (h : Reaches g.scope u (.option o)) :
    .option o ∈ u.leaves ∨ ∃ s, .shortcut s ∈ u.leaves ∧
      ∃ a, (o, a) ∈ (g.scope.visible s).filterMap Pattern.entryOption? := by
  have hwordy := hv.leafwise_usage hu
  refine (h.mem_atoms_or_behind hwordy (i := o.slot) rfl).imp
    (Pattern.mem_leaves_of_mem_atoms hwordy) ?_
  rintro ⟨s, hs, e, he, hreach⟩
  have hmem : e ∈ g.registry.entries := Pattern.mem_entries_of_visible he
  obtain ⟨o', a, rfl⟩ := hc.registry.entry e hmem
  have hentry := hv.leafwise_entry (List.mem_filterMap.mpr ⟨_, hmem, rfl⟩)
  refine ⟨s, hs, a, List.mem_filterMap.mpr ⟨_, he, ?_⟩⟩
  rcases hreach.mem_atoms_or_behind hentry (i := o.slot) rfl with ho | ⟨s', hs', -⟩
  · have hleaf := Pattern.mem_leaves_of_mem_atoms hentry ho
    simp only [Pattern.mem_leaves_group, List.mem_singleton, exists_eq_left] at hleaf
    cases List.mem_singleton.mp hleaf
    rfl
  · simp [Pattern.leaves] at hs'

/-- A value that takes nothing has no leaves. -/
theorem leaves_eq_nil (ho : o ∈ g.options) (ha : o.valueArity = Arity.flag) {v : Pattern}
    (hval : o.value = some v) : v.leaves = [] := by
  refine (hc.branched o ho v hval).leaves_eq_nil (hv o ho v hval) ?_
  simpa [OptionOf.valueArity, hval] using ha

end WordyValues

/-- An option of the name takes a value. -/
def takes (g : Grammar) (name : String) : Bool :=
  g.options.any fun o => o.hasName name && o.valueArity != Arity.flag

theorem takes_iff : g.takes name = true ↔
    ∃ o ∈ g.options, name ∈ o.names.toList ∧ o.valueArity ≠ Arity.flag := by
  simp [takes, OptionOf.hasName, OrderedSet.contains_iff]

theorem reckons (hv : g.WordyValues) (hc : g.Coherent) (ho : o ∈ g.options)
    (hname : name ∈ o.names.toList) : Reckons g.takes o name := by
  unfold Reckons
  split
  next htakes =>
    obtain ⟨p, hp, hname', hne⟩ := takes_iff.mp htakes
    rcases (hc.agree o ho p hp name hname hname').value_eq with he | ⟨-, hflag⟩
    · cases hval : o.value with
      | some v => simp [OptionOf.takesValue, hval]
      | none =>
        have hpval : p.value = none := by simpa [OptionOf.unnumbered, hval] using he.symm
        exact absurd (by simp [OptionOf.valueArity, hpval]) hne
    · exact absurd hflag hne
  next htakes =>
    have hflag : o.valueArity = Arity.flag := by
      by_contra hne
      exact htakes (takes_iff.mpr ⟨o, ho, hname, hne⟩)
    exact fun v hval => hv.leaves_eq_nil hc ho hflag hval

namespace PlainValues

variable (hv : g.PlainValues)
include hv

theorem wordyValues : g.WordyValues := hv.wordy

/-- Mentions of one option agree on whether it takes a value. -/
theorem takesValue_eq (ho : o ∈ g.options) (hp : p ∈ g.options) (h : Agree o p) :
    o.takesValue = p.takesValue := by
  have hflag {o : OptionAtom} (ho : o ∈ g.options) (h : o.valueArity = Arity.flag) :
      o.takesValue = false := by
    cases hval : o.value with
    | none => simp [OptionOf.takesValue, hval]
    | some v => exact absurd (by simpa [OptionOf.valueArity, hval] using h) (hv.arity o ho v hval)
  rcases h.value_eq with he | ⟨hof, hpf⟩
  · have hsome := congrArg Option.isSome he
    simpa [OptionOf.unnumbered, OptionOf.takesValue] using hsome
  · rw [hflag ho hof, hflag hp hpf]

variable (hc : g.Coherent)
include hc

/-- The table knows which options take a value. -/
theorem takes_eq (ht : g.table = .ofList g.options) (ho : o ∈ g.options)
    (hname : name ∈ o.names.toList) : g.table.takes name = o.takesValue := by
  rw [Bool.eq_iff_iff, ht, OptionTable.takes_ofList]
  constructor
  · rintro ⟨p, hp, hname', hvalue⟩
    rw [hv.takesValue_eq ho hp (hc.agree o ho p hp name hname hname'), hvalue]
  · exact fun h => ⟨o, ho, hname, h⟩

theorem reckons (ht : g.table = .ofList g.options) (ho : o ∈ g.options)
    (hname : name ∈ o.names.toList) : Reckons g.table.takes o name := by
  rw [Reckons, hv.takes_eq hc ht ho hname]
  split
  next h => exact h
  next h =>
    intro v hval
    simp [OptionOf.takesValue, hval] at h

end PlainValues

end Grammar

end Synopsis
