import Synopsis.Proofs.Grammar.Frame
import Synopsis.Proofs.Grammar.Insertion
import Synopsis.Proofs.Grammar.Keys
import Synopsis.Proofs.Grammar.Marker
import Synopsis.Proofs.Matcher.Ahead
import Synopsis.Proofs.Pattern.Reordering

/-! # Options first

Usages are tried with their options ahead of their commands and arguments. Where the
options of a usage stand behind all of these, and none of them repeats, that makes no
difference to any result.
-/

namespace Synopsis

open OrderedMap
open Pattern (Reaches slots)

variable {scope : Scope} {ps : List Positional} {os qs rs : List Pattern} {p q : Pattern}
  {key : String}

theorem Slots.ext_get {s t : Slots} (hlength : t.cells.length = s.cells.length)
    (hget : ∀ i, t.get i = s.get i) : t = s := by
  have hcells : t.cells = s.cells := by
    refine List.ext_getElem hlength fun i hi hi' => ?_
    have h := hget i
    rwa [get, get, List.getD_eq_getElem _ _ hi, List.getD_eq_getElem _ _ hi'] at h
  cases s
  cases t
  cases hcells
  rfl

/-! ## Usages -/

namespace Pattern

theorem Loose.isOptionsOnly (h : p.Loose scope) : p.isOptionsOnly = true := by
  induction h with
  | option | shortcut => rfl
  | optional _ ih =>
    rw [Pattern.optional, isOptionsOnly_group]
    exact List.all_eq_true.mpr ih

theorem filter_of_loose (h : ∀ c ∈ os, c.Loose scope) :
    os.filter isOptionsOnly = os ∧ os.filter (!isOptionsOnly ·) = [] :=
  ⟨List.filter_eq_self.mpr fun c hc => (h c hc).isOptionsOnly,
    List.filter_eq_nil_iff.mpr fun c hc => by simp [(h c hc).isOptionsOnly]⟩

theorem Loose.optionsAhead_eq (h : p.Loose scope) : p.optionsAhead = p := by
  induction h with
  | option | shortcut => rfl
  | @optional children hc ih =>
    obtain ⟨hkept, hnone⟩ := filter_of_loose hc
    rw [Pattern.optional, optionsAhead_group, List.map_congr_left ih, List.map_id', stacked, hkept,
      hnone, List.append_nil]

theorem optionsAhead_required (h : ∀ c ∈ os, c.Loose scope) :
    (required (ps.map (·.pattern) ++ os)).optionsAhead = required (os ++ ps.map (·.pattern)) := by
  obtain ⟨hkept, hnone⟩ := filter_of_loose h
  have hos : os.map optionsAhead = os :=
    (List.map_congr_left fun c hc => (h c hc).optionsAhead_eq).trans (List.map_id' os)
  have hps : (ps.map (·.pattern)).map optionsAhead = ps.map (·.pattern) := by
    rw [List.map_map]
    exact List.map_congr_left fun p _ => by cases p <;> rfl
  have hpositional : ∀ c ∈ ps.map (·.pattern), isOptionsOnly c = false := by
    intro c hc
    obtain ⟨p, -, rfl⟩ := List.mem_map.mp hc
    cases p <;> rfl
  have hgone : (ps.map (·.pattern)).filter isOptionsOnly = [] :=
    List.filter_eq_nil_iff.mpr fun c hc => by simp [hpositional c hc]
  have hstay : (ps.map (·.pattern)).filter (!isOptionsOnly ·) = ps.map (·.pattern) :=
    List.filter_eq_self.mpr fun c hc => by simp [hpositional c hc]
  rw [required, optionsAhead_group, stacked, List.map_append, hos, hps, List.filter_append,
    List.filter_append, hkept, hnone, hgone, hstay, List.nil_append, List.append_nil]
  rfl

end Pattern

/-! ## Reports -/

namespace Reporter

/-- Options look like options, and so do those behind a shortcut. -/
theorem looksLikeOption_of_loose {r : Reporter} (h : p.Loose r.scope) (hq : q ∈ p.leaves)
    (hkey : key ∈ r.names q) : looksLikeOption key = true := by
  induction h generalizing q with
  | option hn =>
    obtain rfl := List.mem_singleton.mp hq
    exact hn key hkey
  | optional _ ih =>
    obtain ⟨c, hc, hq⟩ := Pattern.mem_leaves_group.mp hq
    exact ih c hc hq hkey
  | shortcut _ ih =>
    obtain rfl := List.mem_singleton.mp hq
    obtain ⟨x, hx, hkey⟩ := List.mem_flatMap.mp hkey
    obtain ⟨⟨o, repeats⟩, ho, rfl⟩ := List.mem_map.mp hx
    obtain ⟨e, he, hentry⟩ := List.mem_filterMap.mp ho
    obtain rfl := Pattern.eq_of_entryOption? hentry
    exact ih _ he (Pattern.mem_leaves_group.mpr ⟨_, List.mem_singleton_self _, List.mem_singleton_self _⟩)
      hkey

end Reporter

section Merging

variable {ν : Type} {f : String → ν → ν → ν} {m m' : OrderedMap String ν}
  {ms ns : List (OrderedMap String ν)}

/-- Adds some maps to a map. Values under a common key are put together. -/
def OrderedMap.mergeAll (f : String → ν → ν → ν) (m : OrderedMap String ν)
    (ms : List (OrderedMap String ν)) : OrderedMap String ν :=
  ms.foldl (fun m n => n.entries.foldl (fun m (key, v) => m.insertWith (f key) key v) m) m

/-- What comes to stand under a key depends on what stood there before. -/
theorem find?_mergeAll_congr (h : m'.find? key = m.find? key) :
    (mergeAll f m' ms).find? key = (mergeAll f m ms).find? key := by
  induction ms generalizing m m' with
  | nil => exact h
  | cons n ms ih => exact ih (by rw [find?_foldl_insertWith, find?_foldl_insertWith, h])

theorem find?_mergeAll_of_notMem (h : ∀ n ∈ ms, key ∉ n.keys) :
    (mergeAll f m ms).find? key = m.find? key := by
  induction ms generalizing m with
  | nil => rfl
  | cons n ms ih =>
    obtain ⟨hn, hms⟩ := List.forall_mem_cons.mp h
    have hnone : n.find? key = none := by
      simpa [mem_keys_iff] using hn
    refine (ih hms).trans ?_
    rw [find?_foldl_insertWith, hnone, Option.elim_none]

/-- Maps that share no key may be added in any order. -/
theorem mergeAll_comm (h : ∀ key, (∀ n ∈ ms, key ∉ n.keys) ∨ ∀ n ∈ ns, key ∉ n.keys) :
    mergeAll f m (ns ++ ms) = mergeAll f m (ms ++ ns) := by
  have happend (m : OrderedMap String ν) (ms ns : List (OrderedMap String ν)) :
      mergeAll f m (ms ++ ns) = mergeAll f (mergeAll f m ms) ns := List.foldl_append
  refine OrderedMap.ext fun key => ?_
  rw [happend, happend]
  rcases h key with hms | hns
  · rw [find?_mergeAll_of_notMem hms]
    exact (find?_mergeAll_congr (find?_mergeAll_of_notMem hms)).symm
  · rw [find?_mergeAll_of_notMem hns]
    exact find?_mergeAll_congr (find?_mergeAll_of_notMem hns)

end Merging

namespace Reporter

variable {r : Reporter} {table : Slots} {inRepeat : Bool}

theorem collectAll_eq {m : OrderedMap String Reported} : r.collectAll table inRepeat m qs =
    mergeAll Reported.merge m (qs.map (r.collect table inRepeat)) := by
  induction qs generalizing m with
  | nil => rfl
  | cons q qs ih => exact ih

theorem neutralMerged_eq {m : OrderedMap String Value} : r.neutralMerged m qs =
    mergeAll (fun _ => mergeNeutral) m (qs.map (r.neutral false)) := by
  induction qs generalizing m with
  | nil => rfl
  | cons q qs ih => exact ih

end Reporter

/-! ## Usages in other orders -/

/-- Commands and arguments, and options behind them. -/
structure Pattern.OptionsBehind (scope : Scope) (u : Pattern) (ps : List Positional)
    (os : List Pattern) : Prop where
  eq : u = required (ps.map (·.pattern) ++ os)
  loose : ∀ c ∈ os, c.Loose scope
  names : ∀ p ∈ ps, ∀ name ∈ p.pattern.leafNames, looksLikeOption name = false

namespace Pattern.OptionsBehind

variable {u : Pattern} (h : u.OptionsBehind scope ps os)
include h

theorem optionsAhead_eq : u.optionsAhead = required (os ++ ps.map (·.pattern)) := by
  rw [h.eq, optionsAhead_required h.loose]

omit h in
theorem leaves_positional {c q : Pattern} (hc : c ∈ ps.map (·.pattern)) (hq : q ∈ c.leaves) :
    ∃ p ∈ ps, q = p.pattern := by
  obtain ⟨p, hp, rfl⟩ := List.mem_map.mp hc
  exact ⟨p, hp, by cases p <;> exact List.mem_singleton.mp hq⟩

/-- No positional goes by the name of an option. -/
theorem disjoint {r : Reporter} (hr : r.scope = scope) {ν : Type} {part : Pattern → OrderedMap String ν}
    (hpart : ∀ c key, key ∈ (part c).keys → ∃ q ∈ c.leaves, key ∈ r.names q) (key : String) :
    (∀ n ∈ (ps.map (·.pattern)).map part, key ∉ n.keys) ∨ ∀ n ∈ os.map part, key ∉ n.keys := by
  subst hr
  by_cases hkey : looksLikeOption key = true
  · refine .inl fun n hn hmem => ?_
    obtain ⟨c, hc, rfl⟩ := List.mem_map.mp hn
    obtain ⟨q, hq, hname⟩ := hpart c key hmem
    obtain ⟨p, hp, rfl⟩ := leaves_positional hc hq
    have hname : key ∈ p.pattern.leafNames := by cases p <;> exact hname
    rw [h.names p hp key hname] at hkey
    cases hkey
  · refine .inr fun n hn hmem => hkey ?_
    obtain ⟨c, hc, rfl⟩ := List.mem_map.mp hn
    obtain ⟨q, hq, hname⟩ := hpart c key hmem
    exact Reporter.looksLikeOption_of_loose (h.loose c hc) hq hname

theorem collect_optionsAhead {r : Reporter} (hr : r.scope = scope) (table : Slots) :
    r.collect table false u.optionsAhead = r.collect table false u := by
  rw [h.optionsAhead_eq, h.eq]
  change r.collectAll table false {} _ = r.collectAll table false {} _
  rw [Reporter.collectAll_eq, Reporter.collectAll_eq, List.map_append, List.map_append]
  exact mergeAll_comm (h.disjoint hr fun _ _ hmem => Reporter.mem_names_of_collect false hmem)

theorem neutral_optionsAhead {r : Reporter} (hr : r.scope = scope) :
    r.neutral false u.optionsAhead = r.neutral false u := by
  rw [h.optionsAhead_eq, h.eq]
  change r.neutralMerged {} _ = r.neutralMerged {} _
  rw [Reporter.neutralMerged_eq, Reporter.neutralMerged_eq, List.map_append, List.map_append]
  exact mergeAll_comm (h.disjoint hr fun _ _ hmem => Reporter.mem_names_of_neutral false hmem)

/-- On free slots, the usage matches alike in both orders. -/
theorem onPar (hd : Distinct scope [u]) {s : Attempt} {n : Nat} (hn : Suffices scope (n + 1) u)
    (hfree : ∀ i, s.slots.get i = .unset) :
    OnPar (matchPattern scope (n + 1) false u s) (matchPattern scope (n + 1) false u.optionsAhead s) := by
  rw [h.optionsAhead_eq]
  rw [h.eq] at hd hn ⊢
  have hmixed : Synopsis.Mixed scope n ps os :=
    { told := by
        refine ⟨hd.children, fun c hc => ?_⟩
        rcases List.mem_append.mp hc with hc | hc
        · obtain ⟨p, -, rfl⟩ := List.mem_map.mp hc
          cases p <;> exact .inl rfl
        · exact (h.loose c hc).isTold
      loose := h.loose
      suffices_positionals := fun p hp => hn _ (List.mem_append_left _ (List.mem_map_of_mem hp))
      suffices_options := fun c hc => hn c (List.mem_append_right _ hc) }
  exact hmixed.matchPattern_ahead fun c hc => (hmixed.told.told c hc).ofSlots_eq hfree

theorem writes {i : Nat} (hi : u.optionsAhead.Writes scope i) : u.Writes scope i := by
  obtain ⟨q, hq, hqi⟩ := hi
  refine ⟨q, ?_, hqi⟩
  rw [h.optionsAhead_eq] at hq
  rw [h.eq]
  cases hq with
  | refl => cases hqi
  | child hc hq => exact .child (List.perm_append_comm.mem_iff.mp hc) hq

end Pattern.OptionsBehind

/-! ## Results -/

namespace Grammar

variable {g : Grammar} {config : Config} {source : SourceText} {registry : Registry}
  {usages : List Pattern} {table : Slots} {argv : Argv} {dashes : Bool} {raw : List String} {i : Nat}

/-- Moves the options of all usages ahead. The leaves keep their slots. -/
def optionsAhead (g : Grammar) : Grammar := { g with usages := g.usages.map Pattern.optionsAhead }

/-- The options of each usage stand ahead already, or behind its commands and arguments. -/
def OptionsBehind (g : Grammar) : Prop :=
  ∀ u ∈ g.usages, u.optionsAhead = u ∨ ∃ ps os, u.OptionsBehind g.scope ps os

theorem matchAlternative_of_usage {u : Pattern} (hu : g.usages[i]? = some u) (s : Attempt) :
    g.matchAlternative i s = matchPattern g.scope (g.scope.fuel u s.argv) false u s := by
  simp only [matchAlternative, hu, MatchM.argv_bind]

theorem lt_slotCount_of_writes {u : Pattern} (hb : build config source registry usages = .ok g)
    (hu : u ∈ g.usages) (hi : u.Writes g.scope i) : i < g.slotCount := by
  obtain ⟨q, hq, hqi⟩ := hi
  have hmem : i ∈ slots (g.registry.entries ++ g.usages) := by
    have hreach := hq.mem_slots hqi
    rw [Pattern.slots_append, List.mem_append] at hreach ⊢
    exact hreach.imp_right (Pattern.mem_slots_of_mem hu)
  rwa [slots_of_build hb, List.mem_range] at hmem

/-- No match of what has its place in a table grows the table. -/
theorem length_of_matchPattern {u : Pattern} {size n : Nat} {b : Bool} {t : Attempt}
    (hu : ∀ i, u.Writes scope i → i < size)
    (hm : matchPattern scope n false u ⟨.blank size, argv⟩ = .ok b t) : t.slots.cells.length = size := by
  have hblank : (Slots.blank size).cells.length = size := List.length_replicate
  refine ((agreeOff_matchPattern (fun i hi => ?_) n).of_ok hm).length_eq.trans hblank
  rw [hblank]
  exact hu i hi

namespace OptionsBehind

variable (h : g.OptionsBehind)
include h

theorem assemble_optionsAhead : g.optionsAhead.assemble i table dashes = g.assemble i table dashes := by
  have hcollect : ∀ u ∈ g.usages, g.reporter.collect table false u.optionsAhead =
      g.reporter.collect table false u := fun u hu =>
    (h u hu).elim (fun h => by rw [h]) fun ⟨_, _, h⟩ => h.collect_optionsAhead rfl table
  have hneutral : ∀ u ∈ g.usages, g.reporter.neutral false u.optionsAhead =
      g.reporter.neutral false u := fun u hu =>
    (h u hu).elim (fun h => by rw [h]) fun ⟨_, _, h⟩ => h.neutral_optionsAhead rfl
  have hothers (m : Mapping) : ((g.usages.map Pattern.optionsAhead).eraseIdx i).foldl
      (fun m u => addNeutral m (g.reporter.neutral false u)) m =
        (g.usages.eraseIdx i).foldl (fun m u => addNeutral m (g.reporter.neutral false u)) m := by
    rw [List.eraseIdx_map, List.foldl_map]
    exact List.foldl_ext _ _ _ fun m u hu => by rw [hneutral u (List.mem_of_mem_eraseIdx hu)]
  have hreporter : g.optionsAhead.reporter = g.reporter := rfl
  have husages : g.optionsAhead.usages = g.usages.map Pattern.optionsAhead := rfl
  simp only [assemble, hreporter, husages, hothers, List.getElem?_map]
  cases hu : g.usages[i]? with
  | none => rfl
  | some u =>
    simp only [Option.map_some, hcollect u (List.mem_of_getElem? hu)]
    rfl

variable (hb : build config source registry usages = .ok g)
include hb

theorem onPar_matchAlternative (i : Nat) : OnPar (g.matchAlternative i ⟨.blank g.slotCount, argv⟩)
    (g.optionsAhead.matchAlternative i ⟨.blank g.slotCount, argv⟩) := by
  have hmap : g.optionsAhead.usages[i]? = g.usages[i]?.map Pattern.optionsAhead := List.getElem?_map
  cases hu : g.usages[i]? with
  | none =>
    rw [hu] at hmap
    simp only [matchAlternative, hu, hmap, Option.map_none]
    exact .ok ⟨rfl, .refl _⟩
  | some u =>
    rw [hu] at hmap
    rw [matchAlternative_of_usage hu, matchAlternative_of_usage hmap]
    have hscope : g.optionsAhead.scope = g.scope := rfl
    rw [hscope]
    rcases h u (List.mem_of_getElem? hu) with heq | ⟨ps, os, hu'⟩
    · rw [heq]
      exact .refl _
    · have hfuel : g.scope.fuel u.optionsAhead argv = g.scope.fuel u argv := by
        rw [hu'.optionsAhead_eq, hu'.eq]
        simp only [Scope.fuel, Scope.depth, Pattern.required, Pattern.nodes, Pattern.nodesAll_append,
          Nat.add_comm (Pattern.nodesAll os)]
      have hdeep := suffices_fuel g.scope u argv
      rw [fuel_eq_succ] at hdeep
      have hpar := hu'.onPar ((distinct_of_build hb).singleton (List.mem_of_getElem? hu)) hdeep
        (s := ⟨.blank g.slotCount, argv⟩) (Slots.get_blank _)
      rw [← fuel_eq_succ] at hpar
      dsimp only
      rwa [hfuel]

theorem slots_eq {b : Bool} {t u : Attempt}
    (hm : g.matchAlternative i ⟨.blank g.slotCount, argv⟩ = .ok b t)
    (hm' : g.optionsAhead.matchAlternative i ⟨.blank g.slotCount, argv⟩ = .ok b u) (htu : Level t u) :
    u.slots = t.slots := by
  refine Slots.ext_get ?_ htu.get_eq
  have hmap : g.optionsAhead.usages[i]? = g.usages[i]?.map Pattern.optionsAhead := List.getElem?_map
  cases hv : g.usages[i]? with
  | none =>
    rw [hv] at hmap
    simp only [matchAlternative, hv, hmap, Option.map_none] at hm hm'
    obtain ⟨-, rfl⟩ := MatchM.pure_eq_ok.mp hm
    obtain ⟨-, rfl⟩ := MatchM.pure_eq_ok.mp hm'
    rfl
  | some v =>
    have hmem := List.mem_of_getElem? hv
    rw [hv] at hmap
    rw [matchAlternative_of_usage hv] at hm
    rw [matchAlternative_of_usage hmap] at hm'
    rw [length_of_matchPattern (fun _ => lt_slotCount_of_writes hb hmem) hm]
    refine length_of_matchPattern (fun k hk => lt_slotCount_of_writes hb hmem ?_) hm'
    rcases h v hmem with heq | ⟨ps, os, h⟩
    · rwa [heq] at hk
    · exact h.writes hk

theorem matchFrom_optionsAhead (ht : g.tokenize raw = .ok argv) (e : MatchError) (us : List Pattern) :
    g.optionsAhead.matchFrom argv e i (us.map Pattern.optionsAhead) = g.matchFrom argv e i us := by
  induction us generalizing e i with
  | nil => rfl
  | cons u us ih =>
    have hpar : OnPar (g.matchAlternative i ⟨.blank g.slotCount, argv⟩)
        (g.optionsAhead.matchAlternative i ⟨.blank g.slotCount, argv⟩) := h.onPar_matchAlternative hb i
    have hcount : g.optionsAhead.slotCount = g.slotCount := rfl
    simp only [List.map_cons, matchFrom, hcount]
    cases hm : g.matchAlternative i ⟨.blank g.slotCount, argv⟩ with
    | error e t =>
      obtain ⟨u, hm'⟩ := (hm ▸ hpar).of_error
      rw [hm']
      cases e with
      | error e => exact ih e
      | outOfFuel => rfl
    | ok b t =>
      obtain ⟨_, u, hm', rfl, htu⟩ := hpar.ok_iff hm
      have hexhausted : u.argv.isExhausted = t.argv.isExhausted := by
        rw [Argv.isExhausted, htu.tokens_eq, htu.autoDashes, Argv.isExhausted]
      rw [hm']
      simp only [hexhausted]
      split
      · obtain ⟨rfl, hex⟩ := Bool.and_eq_true_iff.mp ‹_›
        have hdashes : u.argv.checkDash.dashes = t.argv.checkDash.dashes := by
          have htokenize : g.optionsAhead.tokenize raw = .ok argv := ht
          rw [Bool.eq_iff_iff, dashes_of_matchAlternative ht hm hex]
          exact dashes_of_matchAlternative htokenize hm' (hexhausted.trans hex)
        rw [h.slots_eq hb hm hm' htu, hdashes, h.assemble_optionsAhead]
      · exact ih e

end OptionsBehind

/-- Options that do not repeat may be moved ahead where they stand behind all commands and
arguments of a usage: whatever the arguments are, the result is the same. -/
theorem matchArgs_optionsAhead (hb : build config source registry usages = .ok g)
    (h : g.OptionsBehind) (raw : List String) :
    g.optionsAhead.matchArgs raw = g.matchArgs raw := by
  have htokenize : g.optionsAhead.tokenize raw = g.tokenize raw := rfl
  unfold matchArgs
  rw [htokenize]
  cases ht : g.tokenize raw with
  | error e => rfl
  | ok argv => exact h.matchFrom_optionsAhead hb ht .noUsageMatched g.usages

/-- In `go <x> [-v]`, the option may come first, as it does in the other usage already. -/
theorem trailing_option_moves_ahead : ∃ g m,
    build {} {} {} [.required [.command ⟨.singleton "go", 0⟩, .argument ⟨.singleton "<x>", 0⟩,
        .optional [.option ⟨.singleton "-v", none, none, 0⟩]],
      .required [.option ⟨.singleton "-v", none, none, 0⟩, .command ⟨.singleton "run", 0⟩]] = .ok g ∧
      g.optionsAhead.usages ≠ g.usages ∧ g.matchArgs ["-v", "go", "1"] = .ok m ∧
      g.optionsAhead.matchArgs ["-v", "go", "1"] = .ok m := by
  obtain ⟨g, hb, husages, hne, m, hm, -⟩ : ∃ g,
      build {} {} {} [.required [.command ⟨.singleton "go", 0⟩, .argument ⟨.singleton "<x>", 0⟩,
          .optional [.option ⟨.singleton "-v", none, none, 0⟩]],
        .required [.option ⟨.singleton "-v", none, none, 0⟩, .command ⟨.singleton "run", 0⟩]] = .ok g ∧
      g.usages = [.required [.command ⟨.singleton "go", 0⟩, .argument ⟨.singleton "<x>", 1⟩,
          .optional [.option ⟨.singleton "-v", none, none, 2⟩]],
        .required [.option ⟨.singleton "-v", none, none, 3⟩, .command ⟨.singleton "run", 4⟩]] ∧
      g.optionsAhead.usages ≠ g.usages ∧
      ∃ m, g.matchArgs ["-v", "go", "1"] = .ok m ∧ True := by decide +kernel
  have hbehind : (Pattern.required [.command ⟨.singleton "go", 0⟩, .argument ⟨.singleton "<x>", 1⟩,
      .optional [.option ⟨.singleton "-v", none, none, 2⟩]]).OptionsBehind g.scope
        [.command ⟨.singleton "go", 0⟩, .argument ⟨.singleton "<x>", 1⟩]
        [.optional [.option ⟨.singleton "-v", none, none, 2⟩]] :=
    { eq := rfl
      loose := by
        simp only [List.forall_mem_singleton]
        exact .optional (by simp only [List.forall_mem_singleton]; exact .option (by decide +kernel))
      names := by decide +kernel }
  have h : g.OptionsBehind := by
    unfold OptionsBehind
    rw [husages]
    intro u hu
    rw [List.mem_pair] at hu
    rcases hu with rfl | rfl
    · exact .inr ⟨_, _, hbehind⟩
    · exact .inl (by decide +kernel)
  exact ⟨g, m, hb, hne, hm, (matchArgs_optionsAhead hb h _).trans hm⟩

-- In `[go] <x> <y> [-v]`, the scan that follows `-v` gives the last argument to the command in
-- brackets, which was passed over. With the option ahead, that scan does not happen.
example : ∃ g, build {} {} {} [.required [.optional [.command ⟨.singleton "go", 0⟩],
      .argument ⟨.singleton "<x>", 0⟩, .argument ⟨.singleton "<y>", 0⟩,
      .optional [.option ⟨.singleton "-v", none, none, 0⟩]]] = .ok g ∧
    g.matchArgs ["1", "-v", "go"] = .error (.error .noUsageMatched) ∧
      ∃ m, g.optionsAhead.matchArgs ["1", "-v", "go"] = .ok m ∧ True := by decide +kernel

/-- The only alternative of the usage `(go -v) [-v]`. -/
def robbedGroup : Pattern :=
  .required [.required [.command ⟨.singleton "go", 0⟩, .option ⟨.singleton "-v", none, none, 0⟩],
    .optional [.option ⟨.singleton "-v", none, none, 0⟩]]

/-- It takes the arguments `go -v`. With the options ahead it does not: `[-v]` comes first, and
takes the option that the group cannot do without. -/
theorem option_ahead_robs_group : ∃ gp gq m, robbedGroup.expand = [robbedGroup] ∧
    robbedGroup.simplifyWith (Help.keepsShortcut gq.registry false) = some robbedGroup ∧
    compile {} "Usage: prog (go -v) [-v]" = .ok gq ∧
    build gq.config gq.source gq.registry [robbedGroup.optionsAhead] = .ok gq ∧
    build gq.config gq.source gq.registry [robbedGroup] = .ok gp ∧
    gp.matchArgs ["go", "-v"] = .ok m ∧
    gp.optionsAhead.matchArgs ["go", "-v"] = .error (.error .noUsageMatched) ∧
    gq.matchArgs ["go", "-v"] = .error (.error .noUsageMatched) := by
  obtain ⟨gq, hcompile, hsimple, hgq, hnone, gp, hgp, hnone', m, hm, -⟩ : ∃ gq,
      compile {} "Usage: prog (go -v) [-v]" = .ok gq ∧
      robbedGroup.simplifyWith (Help.keepsShortcut gq.registry false) = some robbedGroup ∧
      build gq.config gq.source gq.registry [robbedGroup.optionsAhead] = .ok gq ∧
      gq.matchArgs ["go", "-v"] = .error (.error .noUsageMatched) ∧
      ∃ gp, build gq.config gq.source gq.registry [robbedGroup] = .ok gp ∧
        gp.optionsAhead.matchArgs ["go", "-v"] = .error (.error .noUsageMatched) ∧
        ∃ m, gp.matchArgs ["go", "-v"] = .ok m ∧ True := by decide +kernel
  exact ⟨gp, gq, m, by decide +kernel, hsimple, hcompile, hgq, hgp, hm, hnone', hnone⟩

end Grammar

end Synopsis
