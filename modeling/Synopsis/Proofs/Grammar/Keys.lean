import Mathlib
import Synopsis.Proofs.Grammar.Reporting
import Synopsis.Proofs.Grammar.Results
import Synopsis.Proofs.Grammar.Soundness
import Synopsis.Proofs.Outcomes

/-! # The keys of a result

A result has the same keys whatever the arguments were: the names of all leaves of all
usages, those of all declared options, and `--`. If options that do not appear are left
out, the names of commands and arguments still are all there.
-/

namespace Synopsis

open OrderedMap

variable {key : String}

/-! ## Reports -/

/-- A report has a value under a key. -/
def Says (m : OrderedMap String Reported) (key : String) : Prop := ∃ v, m.find? key = some (some v)

theorem says_const {keys : List String} {v : Value} :
    Says (.const keys (some v)) key ↔ key ∈ keys := by
  rw [Says, find?_const]
  split <;> simp_all

theorem Says.mem_keys {m : OrderedMap String Reported} (h : Says m key) : key ∈ m.keys := by
  obtain ⟨v, hv⟩ := h
  rw [mem_keys_iff, hv]
  rfl

/-- Under a name that some value is reported for, one is reported after a merge. -/
theorem says_mergeReports {m n : OrderedMap String Reported} :
    Says (Reporter.mergeReports m n) key ↔ Says m key ∨ Says n key := by
  simp only [Says, Reporter.mergeReports, find?_foldl_insertWith (f := Reported.merge)]
  cases n.find? key with
  | none => simp
  | some w =>
    cases m.find? key with
    | none => simp
    | some v => cases v <;> cases w <;> simp [Reported.merge]

/-- The names of an option, a command or an argument. -/
def Pattern.leafNames : Pattern → List String
  | .option o => o.names.toList
  | .command leaf | .argument leaf => leaf.names.toList
  | .shortcut _ | .group .. | .either _ => []

namespace Reporter

variable {r : Reporter} {slots : Slots} {q : Pattern} {o : OptionAtom}

/-- The names that a leaf reports under: a shortcut reports under those of the options
behind it. -/
def names (r : Reporter) : Pattern → List String
  | .shortcut s => (r.behind s false).flatMap (·.1.names.toList)
  | q => q.leafNames

theorem mem_names_of_leafNames (h : key ∈ q.leafNames) : key ∈ r.names q := by
  cases q with
  | shortcut s => cases h
  | _ => exact h

/-- Behind a shortcut are declared options only. -/
theorem mem_leafNames_or_declared (h : key ∈ r.names q) :
    key ∈ q.leafNames ∨ ∃ x ∈ r.scope.registry.options, key ∈ x.1.names.toList := by
  cases q with
  | shortcut s =>
    obtain ⟨x, hx, hkey⟩ := List.mem_flatMap.mp h
    obtain ⟨repeats, hdeclared, -⟩ := mem_behind hx
    exact .inr ⟨_, hdeclared, hkey⟩
  | _ => exact .inl h

/-- What a leaf reports is never left out. -/
def Insists (r : Reporter) (q : Pattern) : Prop := r.appearedOnly = false ∨ q.positional?.isSome

theorem mem_keys_byName {ν : Type} {value : OptionAtom → Bool → ν} {s : Shortcut} {inRepeat : Bool} :
    key ∈ (byName value (r.behind s inRepeat)).keys ↔ key ∈ r.names (.shortcut s) := by
  have hnames : (r.behind s inRepeat).flatMap (·.1.names.toList) = r.names (.shortcut s) := by
    simp [names, behind, List.flatMap_map]
  rw [byName, mem_keys_ofList, ← hnames, List.map_flatMap]
  simp [Function.comp_def]

theorem option_isSome (h : r.appearedOnly = false) (inRepeat : Bool) :
    (r.option slots inRepeat o).isSome := by
  simp only [option, h, Bool.false_eq_true, if_false]
  repeat' split
  all_goals rfl

theorem says_byName (h : r.appearedOnly = false) {s : Shortcut} {inRepeat : Bool}
    (hkey : key ∈ r.names (.shortcut s)) :
    Says (byName (fun o again => r.option slots again o) (r.behind s inRepeat)) key := by
  have hkeys : key ∈ (byName (fun o again => r.option slots again o) (r.behind s inRepeat)).keys :=
    mem_keys_byName.mpr hkey
  obtain ⟨v, hv⟩ := Option.isSome_iff_exists.mp (mem_keys_iff.mp hkeys)
  have hmem := (mem_of_find?_insertAll hv).resolve_right nofun
  obtain ⟨x, -, hx⟩ := List.mem_flatMap.mp hmem
  obtain ⟨_, -, he⟩ := List.mem_map.mp hx
  have hsome : (r.option slots x.2 x.1).isSome := option_isSome h x.2
  obtain ⟨w, hw⟩ := Option.isSome_iff_exists.mp hsome
  exact ⟨w, hv.trans (congrArg some ((Prod.mk.inj he).2.symm.trans hw))⟩

/-! ## Usages that matched -/

mutual

theorem mem_names_of_collect : ∀ {p : Pattern} (inRepeat : Bool),
    key ∈ (r.collect slots inRepeat p).keys → ∃ q ∈ p.leaves, key ∈ r.names q
  | .option _, _, h | .command _, _, h | .argument _, _, h =>
    ⟨_, List.mem_singleton_self _, mem_keys_const.mp h⟩
  | .shortcut _, _, h => ⟨_, List.mem_singleton_self _, mem_keys_byName.mp h⟩
  | .group _ ps repeats, inRepeat, h =>
    (mem_names_of_collectAll ps (inRepeat || repeats) h).resolve_left List.not_mem_nil
  | .either ps, inRepeat, h => (mem_names_of_collectAll ps inRepeat h).resolve_left List.not_mem_nil

theorem mem_names_of_collectAll : ∀ (ps : List Pattern) {m : OrderedMap String Reported} (inRepeat : Bool),
    key ∈ (r.collectAll slots inRepeat m ps).keys →
      key ∈ m.keys ∨ ∃ q ∈ Pattern.leavesAll ps, key ∈ r.names q
  | [], _, _, h => .inl h
  | p :: ps, m, inRepeat, h => by
    rw [Pattern.leavesAll]
    rcases mem_names_of_collectAll ps inRepeat h with h | ⟨q, hq, hkey⟩
    · refine ((mem_keys_foldl_insertWith (f := Reported.merge)).mp h).imp_right fun h => ?_
      obtain ⟨q, hq, hkey⟩ := mem_names_of_collect inRepeat h
      exact ⟨q, List.mem_append_left _ hq, hkey⟩
    · exact .inr ⟨q, List.mem_append_right _ hq, hkey⟩

end

mutual

theorem says_of_mem_names (hi : r.Insists q) (hkey : key ∈ r.names q) : ∀ {p : Pattern} (inRepeat : Bool),
    q ∈ p.leaves → Says (r.collect slots inRepeat p) key
  | .option o, inRepeat, hq => by
    obtain rfl := List.mem_singleton.mp hq
    have hsome : (r.option slots inRepeat o).isSome := option_isSome (hi.resolve_right nofun) inRepeat
    obtain ⟨v, hv⟩ := Option.isSome_iff_exists.mp hsome
    rw [collect, hv]
    exact says_const.mpr hkey
  | .command _, _, hq | .argument _, _, hq => by
    obtain rfl := List.mem_singleton.mp hq
    exact says_const.mpr hkey
  | .shortcut _, _, hq => by
    obtain rfl := List.mem_singleton.mp hq
    exact says_byName (hi.resolve_right nofun) hkey
  | .group _ ps repeats, inRepeat, hq => says_of_mem_namesAll hi hkey ps (inRepeat || repeats) (.inr hq)
  | .either ps, inRepeat, hq => says_of_mem_namesAll hi hkey ps inRepeat (.inr hq)

theorem says_of_mem_namesAll (hi : r.Insists q) (hkey : key ∈ r.names q) :
    ∀ (ps : List Pattern) {m : OrderedMap String Reported} (inRepeat : Bool),
      Says m key ∨ q ∈ Pattern.leavesAll ps → Says (r.collectAll slots inRepeat m ps) key
  | [], _, _, h => h.resolve_right List.not_mem_nil
  | p :: ps, m, inRepeat, h => by
    rw [Pattern.leavesAll, List.mem_append, ← or_assoc] at h
    exact says_of_mem_namesAll hi hkey ps inRepeat
      (h.imp_left fun h => says_mergeReports.mpr (h.imp_right (says_of_mem_names hi hkey inRepeat)))

end

/-! ## Usages that did not match -/

mutual

theorem mem_names_of_neutral : ∀ {p : Pattern} (inRepeat : Bool),
    key ∈ (r.neutral inRepeat p).keys → ∃ q ∈ p.leaves, key ∈ r.names q
  | .option _, _, h => by
    rw [neutral] at h
    split at h
    · cases h
    · exact ⟨_, List.mem_singleton_self _, mem_keys_const.mp h⟩
  | .command _, _, h | .argument _, _, h => ⟨_, List.mem_singleton_self _, mem_keys_const.mp h⟩
  | .shortcut _, _, h => by
    rw [neutral] at h
    split at h
    · cases h
    · exact ⟨_, List.mem_singleton_self _, mem_keys_byName.mp h⟩
  | .group _ ps _, _, h => by
    rw [neutral] at h
    split at h
    · exact (mem_names_of_neutralLast ps true h).resolve_left List.not_mem_nil
    · exact (mem_names_of_neutralMerged ps h).resolve_left List.not_mem_nil
  | .either ps, inRepeat, h => (mem_names_of_neutralLast ps inRepeat h).resolve_left List.not_mem_nil

theorem mem_names_of_neutralLast : ∀ (ps : List Pattern) {m : OrderedMap String Value} (inRepeat : Bool),
    key ∈ (r.neutralLast inRepeat m ps).keys →
      key ∈ m.keys ∨ ∃ q ∈ Pattern.leavesAll ps, key ∈ r.names q
  | [], _, _, h => .inl h
  | p :: ps, m, inRepeat, h => by
    rw [Pattern.leavesAll]
    rcases mem_names_of_neutralLast ps inRepeat h with h | ⟨q, hq, hkey⟩
    · refine (mem_keys_union.mp h).imp_right fun h => ?_
      obtain ⟨q, hq, hkey⟩ := mem_names_of_neutral inRepeat h
      exact ⟨q, List.mem_append_left _ hq, hkey⟩
    · exact .inr ⟨q, List.mem_append_right _ hq, hkey⟩

theorem mem_names_of_neutralMerged : ∀ (ps : List Pattern) {m : OrderedMap String Value},
    key ∈ (r.neutralMerged m ps).keys → key ∈ m.keys ∨ ∃ q ∈ Pattern.leavesAll ps, key ∈ r.names q
  | [], _, h => .inl h
  | p :: ps, m, h => by
    rw [Pattern.leavesAll]
    rcases mem_names_of_neutralMerged ps h with h | ⟨q, hq, hkey⟩
    · refine ((mem_keys_foldl_insertWith (f := fun _ => mergeNeutral)).mp h).imp_right fun h => ?_
      obtain ⟨q, hq, hkey⟩ := mem_names_of_neutral false h
      exact ⟨q, List.mem_append_left _ hq, hkey⟩
    · exact .inr ⟨q, List.mem_append_right _ hq, hkey⟩

end

mutual

theorem mem_neutral (hi : r.Insists q) (hkey : key ∈ r.names q) : ∀ {p : Pattern} (inRepeat : Bool),
    q ∈ p.leaves → key ∈ (r.neutral inRepeat p).keys
  | .option _, _, hq => by
    obtain rfl := List.mem_singleton.mp hq
    rw [neutral, if_neg (by simp [hi.resolve_right nofun])]
    exact mem_keys_const.mpr hkey
  | .command _, _, hq | .argument _, _, hq => by
    obtain rfl := List.mem_singleton.mp hq
    exact mem_keys_const.mpr hkey
  | .shortcut _, _, hq => by
    obtain rfl := List.mem_singleton.mp hq
    rw [neutral, if_neg (by simp [hi.resolve_right nofun])]
    exact mem_keys_byName.mpr hkey
  | .group _ ps _, _, hq => by
    rw [neutral]
    split
    · exact mem_neutralLast hi hkey ps true (.inr hq)
    · exact mem_neutralMerged hi hkey ps (.inr hq)
  | .either ps, inRepeat, hq => mem_neutralLast hi hkey ps inRepeat (.inr hq)

theorem mem_neutralLast (hi : r.Insists q) (hkey : key ∈ r.names q) :
    ∀ (ps : List Pattern) {m : OrderedMap String Value} (inRepeat : Bool),
      key ∈ m.keys ∨ q ∈ Pattern.leavesAll ps → key ∈ (r.neutralLast inRepeat m ps).keys
  | [], _, _, h => h.resolve_right List.not_mem_nil
  | p :: ps, m, inRepeat, h => by
    rw [Pattern.leavesAll, List.mem_append, ← or_assoc] at h
    exact mem_neutralLast hi hkey ps inRepeat
      (h.imp_left fun h => mem_keys_union.mpr (h.imp_right (mem_neutral hi hkey inRepeat)))

theorem mem_neutralMerged (hi : r.Insists q) (hkey : key ∈ r.names q) :
    ∀ (ps : List Pattern) {m : OrderedMap String Value},
      key ∈ m.keys ∨ q ∈ Pattern.leavesAll ps → key ∈ (r.neutralMerged m ps).keys
  | [], _, h => h.resolve_right List.not_mem_nil
  | p :: ps, m, h => by
    rw [Pattern.leavesAll, List.mem_append, ← or_assoc] at h
    exact mem_neutralMerged hi hkey ps (h.imp_left fun h =>
      (mem_keys_foldl_insertWith (f := fun _ => mergeNeutral)).mpr (h.imp_right (mem_neutral hi hkey false)))

end

end Reporter

/-! ## Results -/

namespace Grammar

variable {g : Grammar} {m : Mapping} {raw : List String} {slots : Slots} {dashes : Bool} {i : Nat}
  {u q : Pattern}

/-- The names of all options, commands and arguments of the usages, and those of all
declared options. -/
def reportedNames (g : Grammar) : List String :=
  g.usages.flatMap (fun u => u.leaves.flatMap Pattern.leafNames) ++
    g.registry.options.flatMap (·.1.names.toList)

theorem mem_reportedNames : key ∈ g.reportedNames ↔
    (∃ u ∈ g.usages, ∃ q ∈ u.leaves, key ∈ g.reporter.names q) ∨
      ∃ x ∈ g.registry.options, key ∈ x.1.names.toList := by
  have h : key ∈ g.reportedNames ↔ (∃ u ∈ g.usages, ∃ q ∈ u.leaves, key ∈ q.leafNames) ∨
      ∃ x ∈ g.registry.options, key ∈ x.1.names.toList := by
    simp [reportedNames]
  rw [h]
  constructor
  · rintro (⟨u, hu, q, hq, hkey⟩ | hkey)
    · exact .inl ⟨u, hu, q, hq, Reporter.mem_names_of_leafNames hkey⟩
    · exact .inr hkey
  · rintro (⟨u, hu, q, hq, hkey⟩ | hkey)
    · exact (Reporter.mem_leafNames_or_declared hkey).imp_left fun hkey => ⟨u, hu, q, hq, hkey⟩
    · exact .inr hkey

theorem mem_keys_reported {m : OrderedMap String Reported} :
    key ∈ (ofList (m.entries.filterMap fun (key, v) => v.map (key, ·))).keys ↔ Says m key := by
  rw [mem_keys_ofList]
  constructor
  · intro h
    obtain ⟨e, he, rfl⟩ := List.mem_map.mp h
    obtain ⟨⟨k, w⟩, hmem, hw⟩ := List.mem_filterMap.mp he
    obtain ⟨v, rfl, rfl⟩ := Option.map_eq_some_iff.mp hw
    exact ⟨v, find?_eq_some_iff.mpr hmem⟩
  · rintro ⟨v, hv⟩
    refine List.mem_map.mpr ⟨(key, v), List.mem_filterMap.mpr ?_, rfl⟩
    exact ⟨_, find?_eq_some_iff.mp hv, rfl⟩

theorem mem_keys_others {us : List Pattern} :
    key ∈ (us.foldl (fun m u => addNeutral m (g.reporter.neutral false u)) m).keys ↔
      key ∈ m.keys ∨ ∃ u ∈ us, key ∈ (g.reporter.neutral false u).keys := by
  induction us generalizing m with
  | nil => simp
  | cons u us ih =>
    have hu : key ∈ (addNeutral m (g.reporter.neutral false u)).keys ↔
        key ∈ m.keys ∨ key ∈ (g.reporter.neutral false u).keys :=
      mem_keys_foldl_insertWith (f := fun _ old v => reshape v old)
    rw [List.foldl_cons, ih, hu, or_assoc, List.exists_mem_cons_iff]

theorem mem_keys_addDeclared {o : OptionAtom} {repeats : Bool} :
    key ∈ (g.addDeclared slots m o repeats).keys ↔ key ∈ m.keys ∨ key ∈ o.names.toList ∧
      (g.config.appearedOnly = false ∨ ∃ name ∈ o.names.toList, name ∈ m.keys) := by
  unfold addDeclared
  cases hf : o.names.toList.findSome? m.find? with
  | some v =>
    obtain ⟨name, hname, hv⟩ := List.exists_of_findSome?_eq_some hf
    have hthere : name ∈ m.keys := mem_keys_iff.mpr (by rw [hv]; rfl)
    rw [mem_keys_union, mem_keys_const]
    exact or_congr_right ⟨fun h => ⟨h, .inr ⟨name, hname, hthere⟩⟩, And.left⟩
  | none =>
    have hnone : ¬ ∃ name ∈ o.names.toList, name ∈ m.keys := by
      rintro ⟨name, hname, h⟩
      rw [mem_keys_iff, List.findSome?_eq_none_iff.mp hf name hname] at h
      cases h
    rw [or_iff_left hnone]
    cases g.config.appearedOnly with
    | true => simp
    | false => simp [mem_keys_union, mem_keys_const]

/-- Declarations add their own names at most, and all of them if nothing is left out. -/
theorem mem_keys_declared {xs : List Mention} :
    (key ∈ m.keys → key ∈ (xs.foldl (fun m (o, repeats) => g.addDeclared slots m o repeats) m).keys) ∧
    (key ∈ (xs.foldl (fun m (o, repeats) => g.addDeclared slots m o repeats) m).keys →
      key ∈ m.keys ∨ ∃ x ∈ xs, key ∈ x.1.names.toList) ∧
    (g.config.appearedOnly = false → (∃ x ∈ xs, key ∈ x.1.names.toList) →
      key ∈ (xs.foldl (fun m (o, repeats) => g.addDeclared slots m o repeats) m).keys) := by
  induction xs generalizing m with
  | nil => simp
  | cons x xs ih =>
    rw [List.foldl_cons, List.exists_mem_cons_iff]
    obtain ⟨hkept, hadded, hall⟩ := ih (m := g.addDeclared slots m x.1 x.2)
    refine ⟨fun h => hkept (mem_keys_addDeclared.mpr (.inl h)), fun h => ?_, fun happ h => ?_⟩
    · rcases hadded h with h | h
      · exact (mem_keys_addDeclared.mp h).imp_right fun h => .inl h.1
      · exact .inr (.inr h)
    · rcases h with h | h
      · exact hkept (mem_keys_addDeclared.mpr (.inr ⟨h, .inl happ⟩))
      · exact hall happ h

/-- What a leaf of a usage insists on is there, whichever usage matched. -/
theorem mem_keys_assemble_of_leaf (hu : u ∈ g.usages) (hq : q ∈ u.leaves) (hi : g.reporter.Insists q)
    (hkey : key ∈ g.reporter.names q) : key ∈ (g.assemble i slots dashes).keys := by
  unfold assemble
  refine mem_keys_insert.mpr (.inr (mem_keys_declared.1 (mem_keys_others.mpr ?_)))
  obtain ⟨k, hk, rfl⟩ := List.mem_iff_getElem.mp hu
  by_cases hki : k = i
  · subst hki
    rw [List.getElem?_eq_getElem hk]
    exact .inl (mem_keys_reported.mpr (Reporter.says_of_mem_names hi hkey false hq))
  · exact .inr ⟨_, List.mem_eraseIdx_iff_getElem.mpr ⟨k, hk, hki, rfl⟩,
      Reporter.mem_neutral hi hkey false hq⟩

theorem mem_reportedNames_of_assemble (h : key ∈ (g.assemble i slots dashes).keys) :
    key = "--" ∨ key ∈ g.reportedNames := by
  unfold assemble at h
  refine (mem_keys_insert.mp h).imp_right fun h => mem_reportedNames.mpr ?_
  rcases mem_keys_declared.2.1 h with h | h
  · refine .inl ?_
    rcases mem_keys_others.mp h with h | ⟨u, hu, h⟩
    · cases hu : g.usages[i]? with
      | none =>
        rw [hu] at h
        cases h
      | some u =>
        rw [hu] at h
        exact ⟨u, List.mem_of_getElem? hu, Reporter.mem_names_of_collect false (mem_keys_reported.mp h).mem_keys⟩
    · exact ⟨u, List.mem_of_mem_eraseIdx hu, Reporter.mem_names_of_neutral false h⟩
  · exact .inr h

/-- The names that a result has do not depend on the arguments. -/
theorem matchArgs_keys (h : g.matchArgs raw = .ok m) :
    (g.config.appearedOnly = false →
      ∀ key, key ∈ m.keys ↔ key = "--" ∨ key ∈ g.reportedNames) ∧
    (∀ u ∈ g.usages, ∀ q ∈ u.leaves, q.positional?.isSome → ∀ key ∈ q.leafNames, key ∈ m.keys) ∧
    "--" ∈ m.keys := by
  obtain ⟨argv, i, t, -, -, -, rfl⟩ := exists_of_matchArgs h
  have hdashes : "--" ∈ (g.assemble i t.slots t.argv.checkDash.dashes).keys :=
    mem_keys_insert.mpr (.inl rfl)
  refine ⟨fun happ key => ⟨mem_reportedNames_of_assemble, ?_⟩, ?_, hdashes⟩
  · rintro (rfl | hkey)
    · exact hdashes
    · rcases mem_reportedNames.mp hkey with ⟨u, hu, q, hq, hkey⟩ | hkey
      · exact mem_keys_assemble_of_leaf hu hq (.inl happ) hkey
      · exact mem_keys_insert.mpr (.inr (mem_keys_declared.2.2 happ hkey))
  · exact fun u hu q hq hp key hkey =>
      mem_keys_assemble_of_leaf hu hq (.inr hp) (Reporter.mem_names_of_leafNames hkey)

/-- The argument `<x>` of the usage that did not match has a key, and so has the option
that was not given. -/
theorem keys_of_other_usage : ∃ g m,
    compile {} "Usage:\n  prog [options] <x>\n  prog go\n\nOptions:\n  -v, --verbose  V." = .ok g ∧
      g.matchArgs ["go"] = .ok m ∧
      ∀ key, key ∈ m.keys ↔ key = "--" ∨ key ∈ ["<x>", "go", "--verbose", "-v"] := by
  obtain ⟨g, hg, happ, hnames, m, hm, -⟩ : ∃ g,
      compile {} "Usage:\n  prog [options] <x>\n  prog go\n\nOptions:\n  -v, --verbose  V." = .ok g ∧
      g.config.appearedOnly = false ∧ g.reportedNames = ["<x>", "go", "--verbose", "-v"] ∧
      ∃ m, g.matchArgs ["go"] = .ok m ∧ True := by decide +kernel
  exact ⟨g, m, hg, hm, hnames ▸ (matchArgs_keys hm).1 happ⟩

end Grammar

end Synopsis
