import Synopsis.Proofs.Grammar.Counting
import Synopsis.Proofs.Grammar.Dashes
import Synopsis.Proofs.Grammar.Shapes
import Synopsis.Proofs.Matcher.Dashless

/-! # The end of the options in a result

Where no usage has a command `--`, a result says whether the options were ended. Where
one has, a result says whether the usage that matched has met such a command, and that
takes a `--` behind the end of the options or a stack that was reduced to one.
-/

namespace Synopsis

open Argv (Unmarked)

variable {xs ys : List ℕ} {v w : Value}

/-! ## Arguments -/

theorem Argv.unmarked_iff {a : Argv} : a.Unmarked ↔ a.marks = [] := by
  simp [Unmarked, marks]

/-- Without an end of the options, no word and no value is `--`. -/
theorem ReadAs.dashless {config : Config} {ts : List Token} (h : ReadAs config ts)
    (hd : config.honorsDoubleDash = true) (hmarks : ∀ x ∈ ts, x.isDoubleDash = false)
    (hflags : ∀ x ∈ ts, x.kind = .flag → x.text.toList.getLast? ≠ some '-') : Dashless ts := by
  induction h with
  | nil => exact nofun
  | ended => cases hmarks _ List.mem_cons_self
  | value ht _ ih =>
    rw [List.forall_mem_cons] at hmarks hflags
    exact List.forall_mem_cons.mpr ⟨ht, ih hmarks.2 hflags.2⟩
  | word ht _ ih =>
    rw [List.forall_mem_cons] at hmarks hflags
    exact List.forall_mem_cons.mpr ⟨ht hd, ih hmarks.2 hflags.2⟩
  | flag _ _ ih =>
    rw [List.forall_mem_cons] at hmarks hflags
    exact List.forall_mem_cons.mpr ⟨hflags.1 rfl, ih hmarks.2 hflags.2⟩

/-! ## Matches -/

variable {scope : Scope} {s t : Attempt} {log : List Move} {n : Nat} {b : Bool} {p : Pattern}

/-- When a match has used up all arguments, it has noted whether the options were ended. -/
theorem Run.dashes_eq (run : Run scope n false p s log b t) (hs : Tokenized s.argv.tokens)
    (hd : s.argv.dashes = false) (hex : t.argv.isExhausted = true)
    (hended : s.argv.marks ≠ [] → ∃ d lits, Ended d lits s.argv.tokens) :
    t.argv.checkDash.dashes = true ↔ s.argv.marks ≠ [] := by
  obtain ⟨hguards, hsteady⟩ := (Guards.closed scope).run_steady (fun _ _ => trivial) run
  by_cases hmarks : s.argv.marks = []
  · obtain ⟨ht, hdashes⟩ := hsteady.unmarked (Argv.unmarked_iff.mpr hmarks)
    have hhead : t.argv.tokens.head?.any Token.isDoubleDash = false := by
      cases hx : t.argv.tokens.head? with
      | none => rfl
      | some x => exact ht x (List.mem_of_mem_head? hx)
    simp [Argv.checkDash, hhead, hdashes, hd, hmarks]
  · obtain ⟨d, lits, he⟩ := hended hmarks
    obtain ⟨left, -, -, he⟩ := hguards.ended hs he
    have hhead : t.argv.tokens.head?.any Token.isDoubleDash = true := by
      unfold Argv.isExhausted at hex
      cases htokens : t.argv.tokens with
      | nil =>
        rw [htokens] at he
        cases he
      | cons x rest =>
        rw [htokens] at hex
        cases rest with
        | nil => exact (Bool.and_eq_true_iff.mp hex).2
        | cons => cases hex
    simp [Argv.checkDash, hhead, hmarks]

/-! ## Reports of commands -/

/-- How often the command at a spot was met. -/
def hitsAt (slots : Slots) (x : Pattern × Bool) : ℕ :=
  match x.1 with
  | .command leaf => (slots.get leaf.slot).count?.getD 0
  | _ => 0

/-- A value counts as often as all of some spots were met. -/
def Sums (hits : List ℕ) (v : Value) : Prop := v.count? = some (hits.sum : ℤ)

theorem Sums.isTruthy_iff {hits : List ℕ} (h : Sums hits v) :
    v.isTruthy = true ↔ ∃ n ∈ hits, n ≠ 0 := by
  have hsum : v.isTruthy = true ↔ hits.sum ≠ 0 := by
    unfold Sums at h
    generalize hits.sum = n at h ⊢
    rcases Value.eq_of_count? h with ⟨b, rfl, hb⟩ | rfl
    · cases b <;> simp_all [Value.isTruthy]
    · simp [Value.isTruthy]
  rw [hsum, ne_eq, List.sum_eq_zero_iff]
  simp

theorem Sums.append_of {u : Value} (hv : Sums xs v) (hw : Sums ys w)
    (hu : ∀ {x y : ℤ}, v.count? = some x → w.count? = some y → u.count? = some (x + y)) :
    Sums (xs ++ ys) u := by
  unfold Sums
  rw [hu hv hw, List.sum_append, Int.natCast_add]

namespace Reporter

variable {r : Reporter} {slots : Slots} {key : String}

theorem sums_collect (hr : ∀ x ∈ r.scope.registry.options, key ∉ x.1.names.toList)
    (hp : p.Leafwise (Bears .hits key))
    (hfits : ∀ q ∈ p.leaves, ∀ c ∈ q.ownRecord?, c.kind.fits (slots.get c.slot) = true) :
    Shows (fun xs r => ∃ v, r = some v ∧ Sums (xs.map (hitsAt slots)) v) (r.collect slots false p)
      key (p.spots key false) := by
  apply shows_spots hr hp
  · intro leaf again hx
    have hmem := Pattern.mem_leaves_of_placed (Pattern.mem_spots.mp hx).1
    refine ⟨_, rfl, ?_⟩
    simp [Sums, hitsAt, Slot.count?_hits (hfits _ hmem _ rfl)]
  · intro leaf again hx
    obtain ⟨hplaced, -, hname⟩ := Pattern.mem_spots.mp hx
    cases hp _ (Pattern.mem_leaves_of_placed hplaced) hname
  · rintro xs ys _ _ ⟨v, rfl, hv⟩ ⟨w, rfl, hw⟩
    rw [List.map_append]
    exact ⟨_, rfl, hv.append_of hw (Value.count?_merge key)⟩

theorem sums_neutral (hr : ∀ x ∈ r.scope.registry.options, key ∉ x.1.names.toList)
    (hplain : p.Plain) (hp : p.Leafwise (Bears .hits key)) :
    Shows (fun xs => Sums (xs.map fun _ => 0)) (r.neutral false p) key (p.spots key false) := by
  apply shows_spots_neutral hr hp hplain
  · intro leaf again _ _
    cases again <;> rfl
  · rintro leaf again - ⟨⟩
  · intro xs ys v w hv hw
    rw [List.map_append]
    apply hv.append_of hw
    intro x y hx hy
    rw [mergeNeutral, hx, hy]
    rfl
  · intro xs ys v w _ hv hw
    simpa [Sums] using hw

end Reporter

/-! ## Results -/

namespace Grammar

variable {g : Grammar} {config : Config} {doc : String} {raw : List String} {argv : Argv}
  {m : Mapping} {i : Nat} {u : Pattern}

/-- What stands under `--` comes from the commands of that name, if there are any. -/
theorem find?_dashes_assemble {slots : Slots} (dashes : Bool)
    (hoption : ∀ o ∈ g.options, "--" ∉ o.names.toList) (hplain : ∀ u ∈ g.usages, u.Plain)
    (hbears : ∀ u ∈ g.usages, u.Leafwise (Reporter.Bears .hits "--")) (hu : g.usages[i]? = some u)
    (hfits : ∀ q ∈ u.leaves, ∀ c ∈ q.ownRecord?, c.kind.fits (slots.get c.slot) = true) :
    ∃ reported : Mapping, (g.assemble i slots dashes).find? "--" =
        some (dashesValue g.config ((reported.find? "--").getD (.bool dashes))) ∧
      Shows Sums reported "--" ((u.spots "--" false).map (hitsAt slots) ++
        (g.usages.eraseIdx i).flatMap fun u => (u.spots "--" false).map fun _ => 0) := by
  have hr : ∀ x ∈ g.registry.options, "--" ∉ x.1.names.toList :=
    fun _ hx => hoption _ (mem_options_of_registry hx)
  have hmem := List.mem_of_getElem? hu
  have hmatched := Shows.map_iff.mpr (shows_reported
    (Reporter.sums_collect (r := g.reporter) hr (hbears u hmem) hfits))
  have hneutral : ∀ u ∈ g.usages.eraseIdx i, Shows Sums (g.reporter.neutral false u) "--"
      ((u.spots "--" false).map fun _ => 0) := by
    intro u hu
    have hu := List.mem_of_mem_eraseIdx hu
    exact Shows.map_iff.mpr
      (Reporter.sums_neutral (r := g.reporter) hr (hplain u hu) (hbears u hu))
  refine ⟨_, ?_, shows_others ?_ hneutral hmatched⟩
  · unfold assemble
    rw [OrderedMap.find?_insert, if_pos rfl, find?_declared hr, hu]
  · intro u _ xs v w hv hw
    have hcount := count?_reshape hw hv
    simpa [Sums] using hcount

/-- Some usage has a command `--`. -/
def HasDashes (g : Grammar) : Prop :=
  ∃ u ∈ g.usages, ∃ leaf, .command leaf ∈ u.leaves ∧ "--" ∈ leaf.names.toList

theorem mem_spots_command (hbears : u.Leafwise (Reporter.Bears .hits "--")) {x : Pattern × Bool}
    (hx : x ∈ u.spots "--" false) :
    ∃ leaf, x.1 = .command leaf ∧ .command leaf ∈ u.leaves ∧ "--" ∈ leaf.names.toList := by
  obtain ⟨hplaced, hword, hname⟩ := Pattern.mem_spots.mp hx
  have hmem := Pattern.mem_leaves_of_placed hplaced
  obtain ⟨q, again⟩ := x
  cases q with
  | command leaf => exact ⟨leaf, rfl, hmem, hname⟩
  | argument leaf => cases hbears _ hmem hname
  | option | group | either | shortcut => cases hword

theorem exists_spot {leaf : Leaf} (hleaf : .command leaf ∈ u.leaves)
    (hname : "--" ∈ leaf.names.toList) : ∃ again, (.command leaf, again) ∈ u.spots "--" false := by
  rw [← u.map_fst_placed false] at hleaf
  obtain ⟨⟨q, again⟩, hx, rfl⟩ := List.mem_map.mp hleaf
  exact ⟨again, Pattern.mem_spots.mpr ⟨hx, rfl, hname⟩⟩

theorem hasDashes_iff (hbears : ∀ u ∈ g.usages, u.Leafwise (Reporter.Bears .hits "--")) :
    g.HasDashes ↔ ∃ u ∈ g.usages, u.spots "--" false ≠ [] := by
  constructor
  · rintro ⟨u, hu, leaf, hleaf, hname⟩
    obtain ⟨again, hx⟩ := exists_spot hleaf hname
    exact ⟨u, hu, List.ne_nil_of_mem hx⟩
  · rintro ⟨u, hu, hne⟩
    obtain ⟨x, hx⟩ := List.exists_mem_of_ne_nil _ hne
    obtain ⟨leaf, -, hleaf, hname⟩ := mem_spots_command (hbears u hu) hx
    exact ⟨u, hu, leaf, hleaf, hname⟩

/-- A command `--` of the usage was met. -/
def MetDashes (u : Pattern) (slots : Slots) : Prop :=
  ∃ leaf, .command leaf ∈ u.leaves ∧ "--" ∈ leaf.names.toList ∧
    (slots.get leaf.slot).isTruthy = true

theorem exists_hit_iff {slots : Slots} (hbears : u.Leafwise (Reporter.Bears .hits "--"))
    (hfits : ∀ q ∈ u.leaves, ∀ c ∈ q.ownRecord?, c.kind.fits (slots.get c.slot) = true) :
    (∃ n ∈ (u.spots "--" false).map (hitsAt slots), n ≠ 0) ↔ MetDashes u slots := by
  constructor
  · rintro ⟨n, hn, hmet⟩
    obtain ⟨⟨q, again⟩, hx, rfl⟩ := List.mem_map.mp hn
    obtain ⟨leaf, rfl, hleaf, hname⟩ := mem_spots_command hbears hx
    refine ⟨leaf, hleaf, hname, ?_⟩
    exact (Slot.isTruthy_iff_of_hits (hfits _ hleaf _ rfl)).mpr (Nat.pos_of_ne_zero hmet)
  · rintro ⟨leaf, hleaf, hname, hmet⟩
    obtain ⟨again, hx⟩ := exists_spot hleaf hname
    refine ⟨_, List.mem_map_of_mem hx, Nat.pos_iff_ne_zero.mp ?_⟩
    exact (Slot.isTruthy_iff_of_hits (hfits _ hleaf _ rfl)).mp hmet

/-- So it is the report of the usage that matched that decides, or else the arguments. -/
theorem dashes_assemble {slots : Slots} (dashes : Bool) (hauto : g.config.autoDoubleDash = true)
    (hfirst : g.config.optionsFirst = false) (hoption : ∀ o ∈ g.options, "--" ∉ o.names.toList)
    (hplain : ∀ u ∈ g.usages, u.Plain)
    (hbears : ∀ u ∈ g.usages, u.Leafwise (Reporter.Bears .hits "--")) (hu : g.usages[i]? = some u)
    (hfits : ∀ q ∈ u.leaves, ∀ c ∈ q.ownRecord?, c.kind.fits (slots.get c.slot) = true) :
    ∃ b, (g.assemble i slots dashes).find? "--" = some (.bool b) ∧
      (g.HasDashes → (b = true ↔ MetDashes u slots)) ∧ (¬ g.HasDashes → b = dashes) := by
  obtain ⟨reported, hfind, hshows⟩ :=
    find?_dashes_assemble dashes hoption hplain hbears hu hfits
  have hvalue (v : Value) : dashesValue g.config v = .bool v.isTruthy := by
    simp [dashesValue, hauto, hfirst]
  rw [hvalue] at hfind
  have hspots := hasDashes_iff hbears
  rw [exists_usage_iff hu] at hspots
  by_cases hhas : g.HasDashes
  · have hne : (u.spots "--" false).map (hitsAt slots) ++
        (g.usages.eraseIdx i).flatMap (fun u => (u.spots "--" false).map fun _ => 0) ≠ [] := by
      rcases hspots.mp hhas with h | ⟨u', hu', h⟩
      · simp [h]
      · simp only [ne_eq, List.append_eq_nil_iff, List.flatMap_eq_nil_iff, List.map_eq_nil_iff]
        exact fun hnil => h (hnil.2 u' hu')
    obtain ⟨v, hv, hsum⟩ := (Shows.iff_of_ne hne).mp hshows
    rw [hv, Option.getD_some] at hfind
    refine ⟨v.isTruthy, hfind, fun _ => ?_, absurd hhas⟩
    rw [hsum.isTruthy_iff, ← exists_hit_iff (hbears u (List.mem_of_getElem? hu)) hfits]
    simp [or_and_right, exists_or]
  · obtain ⟨hown, hothers⟩ := not_or.mp (mt hspots.mpr hhas)
    have hnil : (g.usages.eraseIdx i).flatMap (fun u => (u.spots "--" false).map fun _ => 0) = [] := by
      refine List.flatMap_eq_nil_iff.mpr fun u' hu' => List.map_eq_nil_iff.mpr ?_
      by_contra h
      exact hothers ⟨u', hu', h⟩
    rw [not_not.mp hown, hnil, List.map_nil, List.append_nil, Shows.nil_iff] at hshows
    rw [hshows, Option.getD_none] at hfind
    exact ⟨dashes, hfind, fun h => absurd h hhas, fun _ => rfl⟩

theorem readAs_of_tokenize (h : g.tokenize raw = .ok argv) :
    ReadAs g.config argv.tokens ∧ argv.dashes = false := by
  obtain ⟨ts, hts, h⟩ := Except.bind_eq_ok.mp h
  obtain rfl := Except.ok.inj h
  exact ⟨readAs_of_tokensOf hts, rfl⟩

/-- A command `--` is met only behind the end of the options, or by the rest of a stack. -/
theorem marked_of_met {n : ℕ} {log : List Move} {t : Attempt} (hg : compile config doc = .ok g)
    (hauto : g.config.autoDoubleDash = true) (ht : g.tokenize raw = .ok argv) (hu : u ∈ g.usages)
    (run : Run g.scope n false u ⟨.blank g.slotCount, argv⟩ log true t) (hmet : MetDashes u t.slots) :
    argv.marks ≠ [] ∨ ∃ x ∈ argv.tokens, x.kind = .flag ∧ x.text.toList.getLast? = some '-' := by
  by_contra hnone
  rw [not_or, not_not, not_exists] at hnone
  obtain ⟨hmarks, hflags⟩ := hnone
  have hdashless : Dashless argv.tokens := by
    apply (readAs_of_tokenize ht).1.dashless
    · simp [Config.honorsDoubleDash, hauto]
    · exact Argv.unmarked_iff.mpr hmarks
    · exact fun x hx hk hlast => hflags x ⟨hx, hk, hlast⟩
  obtain ⟨leaf, hleaf, hname, hmet⟩ := hmet
  have hnames := ((classed_of_compile hg u hu _ hleaf).command hname).1
  have howned : g.Owns (.command leaf) :=
    owns_of_reaches hu (Pattern.reaches_of_mem_atoms (Pattern.mem_atoms_of_mem_leaves hleaf rfl))
  have hunset := run.isSet_eq_false (i := leaf.slot) ?_ (tokenized_of_tokenize ht) hdashless
    (.blank g.slotCount)
  · simp [Slot.isSet, hmet] at hunset
  · intro q hq hslot
    have hq := owns_of_reaches hu hq
    exact ⟨leaf, apart_of_distinct (distinct_of_compile hg) q _ hq howned _ hslot rfl, hnames⟩

/-- When a usage has matched and used up all arguments, the end of the options has been noted. -/
theorem dashes_of_matchAlternative {i : Nat} {t : Attempt} (ht : g.tokenize raw = .ok argv)
    (hm : g.matchAlternative i ⟨.blank g.slotCount, argv⟩ = .ok true t)
    (hex : t.argv.isExhausted = true) : t.argv.checkDash.dashes = true ↔ argv.marks ≠ [] := by
  rcases run_of_matchAlternative hm with ⟨-, hb, -⟩ | ⟨u, n, log, -, run⟩
  · cases hb
  · obtain ⟨hread, hdashes⟩ := readAs_of_tokenize ht
    exact run.dashes_eq (tokenized_of_tokenize ht) hdashes hex
      fun hmarks => hread.exists_ended (by simpa [Argv.marks] using hmarks)

/-- Without a command `--`, a result says whether the options were ended. With one, it says
whether the usage that matched has met such a command. -/
theorem matchArgs_dashes (hg : compile config doc = .ok g) (hauto : g.config.autoDoubleDash = true)
    (hfirst : g.config.optionsFirst = false) (hoption : ∀ o ∈ g.options, "--" ∉ o.names.toList)
    (ht : g.tokenize raw = .ok argv) (hm : g.matchArgs raw = .ok m) :
    ∃ i u t b, g.usages[i]? = some u ∧
      g.matchAlternative i ⟨.blank g.slotCount, argv⟩ = .ok true t ∧
      m.find? "--" = some (.bool b) ∧ (¬ g.HasDashes → (b = true ↔ argv.marks ≠ [])) ∧
      (g.HasDashes → (b = true ↔ MetDashes u t.slots)) ∧
      (b = true → argv.marks ≠ [] ∨
        ∃ x ∈ argv.tokens, x.kind = .flag ∧ x.text.toList.getLast? = some '-') := by
  obtain ⟨argv', i, t, ht', ha, hex, rfl⟩ := exists_of_matchArgs hm
  obtain rfl := Except.ok.inj (ht'.symm.trans ht)
  rcases run_of_matchAlternative ha with ⟨-, hb, -⟩ | ⟨u, n, log, hu, run⟩
  · cases hb
  have hmem := List.mem_of_getElem? hu
  have hbears := bears_of_classed (k := .hits) (classed_of_compile hg) hoption (by decide)
  obtain ⟨b, hfind, hmet, hnone⟩ := dashes_assemble t.argv.checkDash.dashes hauto hfirst
    hoption (plain_of_compile hg) hbears hu (fits_of_run (distinct_of_compile hg) hmem run)
  have hended := dashes_of_matchAlternative ht ha hex
  refine ⟨i, u, t, b, hu, ha, hfind, fun h => hnone h ▸ hended, hmet, fun hb => ?_⟩
  by_cases hhas : g.HasDashes
  · exact marked_of_met hg hauto ht hmem run ((hmet hhas).mp hb)
  · exact .inl (hended.mp (hnone hhas ▸ hb))

/-- The first `--` ends the options, and the command takes the second one. -/
theorem command_takes_second_dashes : ∃ g m,
    compile {} "Usage: prog [--] <file>" = .ok g ∧ g.matchArgs ["--", "--", "x"] = .ok m ∧
      m.find? "--" = some (.bool true) := by
  obtain ⟨g, hg, hauto, hfirst, hoptions, husages, argv, ht, ⟨t, ha, hmet⟩, m, hm, -⟩ : ∃ g,
      compile {} "Usage: prog [--] <file>" = .ok g ∧ g.config.autoDoubleDash = true ∧
        g.config.optionsFirst = false ∧ g.options = [] ∧
        g.usages = [.required [.optional [.command ⟨.singleton "--", 0⟩],
          .argument ⟨.singleton "<file>", 1⟩]] ∧
        ∃ argv, g.tokenize ["--", "--", "x"] = .ok argv ∧
          (∃ t, g.matchAlternative 0 ⟨.blank g.slotCount, argv⟩ = .ok true t ∧
            (t.slots.get 0).isTruthy = true) ∧
          ∃ m, g.matchArgs ["--", "--", "x"] = .ok m ∧ True := by decide +kernel
  obtain ⟨i, u, t', b, hu, ha', hfind, -, hcommand, -⟩ :=
    matchArgs_dashes hg hauto hfirst (by simp [hoptions]) ht hm
  rw [husages, List.getElem?_singleton] at hu
  obtain ⟨rfl, rfl⟩ : i = 0 ∧ _ = u := by simpa using hu
  obtain ⟨-, rfl⟩ := EStateM.Result.ok.inj (ha.symm.trans ha')
  have hleaf : Pattern.command ⟨.singleton "--", 0⟩ ∈ (Pattern.required
      [.optional [.command ⟨.singleton "--", 0⟩], .argument ⟨.singleton "<file>", 1⟩]).leaves :=
    List.mem_cons_self
  have hhas : g.HasDashes := ⟨_, husages ▸ List.mem_cons_self, _, hleaf, by decide⟩
  rw [(hcommand hhas).mpr ⟨_, hleaf, by decide, hmet⟩] at hfind
  exact ⟨g, m, hg, hm, hfind⟩

/-- In `[--] <file>`, the `--` ends the options, and so the command of that name is not met. -/
theorem ended_options_not_reported : ∃ g argv m,
    compile {} "Usage: prog [--] <file>" = .ok g ∧ g.config.autoDoubleDash = true ∧
      g.config.optionsFirst = false ∧ g.options = [] ∧ g.tokenize ["--", "x"] = .ok argv ∧
      argv.marks ≠ [] ∧ g.matchArgs ["--", "x"] = .ok m ∧ m.find? "--" = some (.bool false) := by
  have hrun : ∃ g, compile {} "Usage: prog [--] <file>" = .ok g ∧ g.config.autoDoubleDash = true ∧
      g.config.optionsFirst = false ∧ g.options = [] ∧ ∃ argv, g.tokenize ["--", "x"] = .ok argv ∧
        argv.marks ≠ [] ∧ ∃ m, g.matchArgs ["--", "x"] = .ok m ∧
          m.find? "--" = some (.bool false) := by decide +kernel
  obtain ⟨g, hg, hauto, hfirst, hoptions, argv, ht, hmarks, m, hm, hfalse⟩ := hrun
  exact ⟨g, argv, m, hg, hauto, hfirst, hoptions, ht, hmarks, hm, hfalse⟩

end Grammar

end Synopsis
