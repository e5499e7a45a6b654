import Synopsis.Proofs.Grammar.Appeared
import Synopsis.Proofs.Grammar.Given
import Synopsis.Proofs.Matcher.ArgvOrder

/-! # Lists of values

An option with a list of values that its usage mentions once reports all that it got, in the
order in which it got it. If no stack hides the option behind another one, then this is the
order of the arguments.
-/

namespace Synopsis.Grammar

open Argv (occurrences)
open Pattern (Built Plain Reaches slots)

variable {g : Grammar} {config : Config} {doc key : String} {raw : List String} {argv : Argv}
  {m : Mapping} {o : OptionAtom} {p q u w : Pattern} {again inRepeat : Bool} {i n : ℕ}
  {S : Slots} {texts : List String} {dashes : Bool}

/-! ## Mentions -/

theorem WordyValues.valuesApart (hv : g.WordyValues) (names : Names) : g.ValuesApart names := by
  rintro p hp v hval q hq o rfl
  have hwordy := hv p hp v hval
  rcases hq.mem_atoms_or_behind (Pattern.leafwise_of_wordy hwordy) (i := o.slot) rfl with
    hq | ⟨s, hs, -⟩
  · cases Pattern.positional?_of_mem_atoms hwordy hq
  · cases hwordy _ hs

section

variable (hc : g.Coherent) (hd : Pattern.Distinct g.scope g.usages) (hv : g.ValuesApart o.names)
  (ho : o ∈ g.options) (hkey : key ∈ o.names.toList)
include hc hd hv ho hkey

theorem elsewhere_of_mentions (hleaves : ∀ c ∈ p.leaves, c ∈ g.leaves)
    (hnil : g.reporter.mentions o.names false p = []) (hq : Reaches g.scope p q) : Elsewhere o q where
  names_apart := by
    rintro p' rfl name hname
    rcases names_apart_or_value hc hleaves ho rfl hnil hq with ⟨-, hapart⟩ | ⟨o', ho', v, hv', h⟩
    · exact hapart name hname
    · exact (hv o' ho' v hv' _ h p' rfl name hname).1
  slots_apart _ hi := slots_apart hc hd hv hleaves ho rfl hkey hnil hq hi

omit hv hkey in
theorem line_of_owns {kind : GroupKind} {ps : List Pattern} {repeats : Bool}
    (hagain : repeats = true → again = true)
    (hleaves : ∀ c ∈ (Pattern.group kind ps repeats).leaves, c ∈ g.leaves)
    (howns : ∀ q, Reaches g.scope (.group kind ps repeats) q → g.Owns q) :
    o.Line g.scope again kind ps repeats where
  again_eq := hagain
  lenders r hr hi := by
    refine slot_ne_of_pattern_mem hc hd (hleaves _ ?_) ho hi rfl
    obtain ⟨c, hmem, hr⟩ := List.mem_flatMap.mp hr
    exact Pattern.mem_leaves_group.mpr ⟨c, hmem, hr⟩
  unique q q' i hq hq' hi hi' := by
    refine apart_of_distinct hd q q' (howns q hq) (fun _ _ => ?_) i hi hi'
    obtain ⟨p, hp, hleaf⟩ := List.mem_flatMap.mp (hc.option_mem_leaves_iff.mpr ho)
    refine ⟨p, hp, ?_⟩
    rw [Pattern.atoms_eq_flatMap_leaves]
    exact List.mem_flatMap.mpr ⟨_, hleaf, hq'⟩

/-- A pattern that mentions an option at most there is built around it. -/
theorem built_of_mentions (hplain : Plain p) (hleaves : ∀ c ∈ p.leaves, c ∈ g.leaves)
    (howns : ∀ q, Reaches g.scope p q → g.Owns q)
    (hm : ∀ x ∈ g.reporter.mentions o.names inRepeat p, x = (o, again)) :
    Built g.scope (o.Part g.scope) (o.Line g.scope again) p := by
  induction hplain generalizing inRepeat with
  | command | argument =>
    exact .part (.inl fun q hq => elsewhere_of_mentions hc hd hv ho hkey hleaves rfl hq)
  | @option o' =>
    by_cases hn : o'.names = o.names
    · rw [Reporter.mentions, if_pos hn, List.forall_mem_singleton] at hm
      exact .part (.inr (congrArg Pattern.option (Prod.mk.inj hm).1))
    · exact .part (.inl fun q hq =>
        elsewhere_of_mentions hc hd hv ho hkey hleaves (if_neg hn) hq)
  | @group kind children repeats _ ih =>
    by_cases hnil : g.reporter.mentions o.names false (.group kind children repeats) = []
    · exact .part (.inl fun q hq => elsewhere_of_mentions hc hd hv ho hkey hleaves hnil hq)
    · rw [Reporter.mentions] at hnil hm
      have hagain : repeats = true → again = true := by
        rintro rfl
        obtain ⟨x, hx⟩ := List.exists_mem_of_ne_nil _ hnil
        rw [Bool.false_or] at hx
        rw [Bool.or_true] at hm
        have hown := hm x hx
        obtain ⟨c, -, hx⟩ := Reporter.mem_mentionsAll.mp hx
        have hagain := Reporter.again_of_mentions hx
        rwa [hown] at hagain
      refine .group (line_of_owns hc hd ho hagain hleaves howns) fun c hmem => ?_
      have hmc : ∀ x ∈ g.reporter.mentions o.names (inRepeat || repeats) c, x = (o, again) :=
        fun x hx => hm x (Reporter.mem_mentionsAll.mpr ⟨c, hmem, hx⟩)
      exact ih c hmem (fun q hq => hleaves q (Pattern.mem_leaves_group.mpr ⟨c, hmem, hq⟩))
        (fun q hq => howns q (.child hmem hq)) hmc
  | @shortcut s =>
    refine .shortcut fun e he => ?_
    have hentry := Pattern.mem_entries_of_visible he
    obtain ⟨o', a, rfl⟩ := hc.registry.entry e hentry
    by_cases hn : o'.names = o.names
    · have hmention : (o', inRepeat || a) ∈ g.reporter.mentions o.names inRepeat (.shortcut s) := by
        refine List.mem_filter.mpr ⟨?_, decide_eq_true hn⟩
        exact List.mem_map.mpr ⟨(o', a), List.mem_filterMap.mpr ⟨_, he, rfl⟩, rfl⟩
      obtain ⟨rfl, hagain⟩ := Prod.mk.inj (hm _ hmention)
      refine .group (line_of_owns hc hd ho ?_ (mem_leaves_of_entry hentry) fun q hq =>
        howns q (.entry he hq)) (List.forall_mem_singleton.mpr (.part (.inr rfl)))
      rintro rfl
      rw [← hagain, Bool.or_true]
    · refine .part (.inl fun q hq =>
        elsewhere_of_mentions hc hd hv ho hkey (mem_leaves_of_entry hentry) ?_ hq)
      simp [Reporter.mentions, Reporter.mentionsAll, hn]

end

/-! ## Matches -/

section Matched

variable {log : List Move} {t : Attempt} (hc : g.Coherent)
  (hd : Pattern.Distinct g.scope g.usages) (hplain : ∀ u ∈ g.usages, u.Plain)
  (hv : g.WordyValues) (hu : u ∈ g.usages) (ho : o ∈ g.options) (hkey : key ∈ o.names.toList)
  (hm : g.reporter.mentions o.names false u = [(o, again)]) (ht : g.tokenize raw = .ok argv)
  (run : Run g.scope n false u ⟨.blank g.slotCount, argv⟩ log true t)
include hc hd hplain hv hu ho hkey hm ht run

/-- The value of an option that is mentioned once holds what the option got. -/
theorem texts_of_run (hw : o.value = some w) (hl : InLine again w) :
    w.texts t.slots = (o.got argv log).map (·.1) ∧
      (again = false ∨ (∀ x ∈ argv.tokens, x.Exposed argv.style o.names) →
        ((o.got argv log).map (·.2)).Pairwise (· < ·)) := by
  have hnodup : (slots [.option o]).Nodup := by
    have hall := nodup_slots_leaves hd
    rw [Pattern.slots_eq_flatMap, List.nodup_flatMap] at hall
    exact hall.1 _ (hc.option_mem_leaves_iff.mpr ho)
  have hmention : ∀ x ∈ g.reporter.mentions o.names false u, x = (o, again) := by
    rw [hm]
    exact fun x hx => List.mem_singleton.mp hx
  have hbuilt : Built g.scope (o.Part g.scope) (o.Line g.scope again) u :=
    built_of_mentions hc hd (hv.valuesApart _) ho hkey (hplain u hu) (mem_leaves_of_usage hu)
      (fun _ hq => owns_of_reaches hu hq) hmention
  have htok := tokenized_of_tokenize ht
  have hfirst : argv.tokens.zipIdx.map (·.1) = argv.tokens := List.zipIdx_map_fst 0 _
  have hblank (i : ℕ) : ((Slots.blank g.slotCount).get i).texts = [] := by
    rw [Slots.get_blank]
    rfl
  constructor
  · have hdelivers := hbuilt.run (Delivers.carries hw hl hnodup g.scope argv.style) run
    obtain ⟨-, htexts⟩ := hdelivers.delivered rfl htok fun _ => .inr fun i _ => hblank i
    rw [OptionOf.got, htexts _ hfirst, hl.worded.texts_eq_nil fun i _ => hblank i, List.nil_append]
  · intro hshown
    have hascends := hbuilt.run (Ascends.carries hw hl.worded hnodup g.scope argv.style) run
    have hsorted : (argv.tokens.zipIdx.map (·.2)).Pairwise (· < ·) := by
      rw [List.zipIdx_map_snd]
      exact List.pairwise_lt_range'
    have hbound : Bound argv.style again o 0 (.blank g.slotCount) argv.tokens.zipIdx := by
      refine ⟨fun ha e he => ⟨?_, fun _ => Nat.zero_le _⟩, fun _ => .inr rfl⟩
      refine hshown.resolve_left (by simp [ha]) e.1 ?_
      exact hfirst ▸ List.mem_map_of_mem he
    obtain ⟨_, hclimbs, -⟩ := hascends.ascends rfl htok 0 _ hfirst hsorted hbound
    exact hclimbs.ascending

omit hplain in
/-- An option that occurs among the arguments is met. -/
theorem isTruthy_of_occurrences (hdash : "--" ∉ o.names.toList) (hex : t.argv.isExhausted = true)
    (hocc : 0 < occurrences argv.style g.takes o.names argv.tokens) :
    (t.slots.get o.slot).isTruthy = true := by
  have hty : Typed g.Owns t.slots :=
    (Typed.closed (apart_of_distinct hd)).run (fun q hq => owns_of_reaches hu hq) run (Typed.blank _)
  have hhits : CountsHits t.slots o :=
    hty (.option o) (fun _ _ => List.mem_flatMap.mp (mem_atoms_of_mem_options ho)) _ rfl
  obtain ⟨own, hown, hmet, hzero⟩ :=
    met_of_run hc hv hd (fun p hp name hname => reckons hv hc hp hname) ho hkey hdash ht hu run hex
  rw [hm] at hmet
  have hone : metTogether t.slots [(o, again)] = (t.slots.get o.slot).count?.getD 0 := by
    simp [metTogether, metNumber]
  rw [hone] at hmet
  rw [Slot.isTruthy_iff_of_hits hhits, hmet]
  rw [← hown] at hocc
  cases hs : g.reporter.shortcutsFor o.names u with
  | nil => simpa [hs, hzero hs] using hocc
  | cons s rest =>
    rw [List.length_cons]
    rw [Nat.add_pos_iff_pos_or_pos] at hocc ⊢
    exact hocc.imp_right fun hpos => Nat.mul_pos rest.length.succ_pos hpos

end Matched

/-! ## Results -/

theorem declaredReported_list (h : texts ≠ [] ∨ o.default = none) :
    declaredReported o again (.list texts) = .list texts := by
  unfold declaredReported
  cases texts with
  | nil =>
    rw [h.resolve_left (by simp)]
    cases o.takesValue <;> cases again <;> rfl
  | cons text texts =>
    cases o.default <;> cases o.takesValue <;> cases again <;> rfl

theorem reshape_list (v : Value) : reshape v (.list texts) = .list texts := by
  cases v <;> rfl

/-- A list that the one mention reports stands in the result. -/
theorem tells_list (hr : AptRegistry g.registry (fun _ => True) o.names)
    (husages : ∀ u ∈ g.usages, u.Leafwise (AptLeaf (fun _ => True) o.names))
    (hdefault : texts ≠ [] ∨ ∀ p ∈ g.options, p.names = o.names → p.default = none)
    (hdash : "--" ∉ o.names.toList) (hu : g.usages[i]? = some u)
    (hm : g.reporter.mentions o.names false u = [(o, again)])
    (hreport : g.reporter.option S again o = some (.list texts)) :
    Tells (· = .list texts) (g.assemble i S dashes) o.names := by
  have hmatched : Tells (· = .list texts) (.ofList ((g.reporter.collect S false u).entries.filterMap
      fun e => e.2.map (e.1, ·))) o.names := by
    refine tells_of_shows (R := fun _ v => v = .list texts) (List.cons_ne_nil (o, again) [])
      (fun key hkey => shows_reported ?_) fun _ => id
    have hshows := Reporter.shows_collect (R := Alone fun x v => v = g.reporter.option S x.2 x.1)
      hkey hr (fun _ _ _ => .singleton rfl) (fun _ _ _ _ => Alone.append) false
      (husages u (List.mem_of_getElem? hu))
    rw [hm] at hshows
    obtain ⟨v, hv, -, hsole⟩ := (Shows.iff_of_ne (List.cons_ne_nil _ _)).mp hshows
    exact (Shows.iff_of_ne (List.cons_ne_nil _ _)).mpr
      ⟨v, hv, .list texts, (hsole _ rfl).trans hreport, rfl⟩
  obtain ⟨hallows, htells⟩ := allows_others (P := (· = .list texts))
    (R := fun _ _ => True) hr (fun _ _ _ => trivial) (fun _ _ _ _ _ _ => trivial)
    (fun _ _ _ _ _ _ => trivial) (fun u hu => husages u (List.mem_of_mem_eraseIdx hu))
    (fun _ _ v w hv _ => hv ▸ reshape_list w) False.elim (.inl hmatched)
  have hdeclares : ∀ x ∈ g.registry.options, x.1.names = o.names →
      Declares g S (· = .list texts) (· = .list texts) False x := by
    refine fun x hx hn => ⟨?_, False.elim⟩
    rintro _ rfl
    exact declaredReported_list (hdefault.imp_right fun h => h _ (mem_options_of_registry hx) hn)
  have hdeclared := (allows_declared (fun _ => id) hr.apt hdeclares hallows).2 (htells (.inl hmatched))
  unfold assemble
  rw [hu]
  exact hdeclared.insert_dashes hdash

theorem option_eq_list (hmet : (S.get o.slot).isTruthy = true) (hw : o.value = some w)
    (hwidth : o.width again = .many) : g.reporter.option S again o = some (.list (w.texts S)) := by
  simp [Reporter.option, hmet, hwidth, hw]

/-- An option with a list of values, mentioned once, reports the values that it got: with one
argument at a time wherever it stands, with several arguments in line where it is met only once.
The values stand in the order of the arguments, unless a stack hides the option. -/
theorem matchArgs_lists_values (hg : compile config doc = .ok g) (hv : g.WordyValues)
    (ht : g.tokenize raw = .ok argv) (hm : g.matchArgs raw = .ok m) :
    ∃ i u n log t, g.usages[i]? = some u ∧
      g.matchAlternative i ⟨.blank g.slotCount, argv⟩ = .ok true t ∧
      Run g.scope n false u ⟨.blank g.slotCount, argv⟩ log true t ∧
      ∀ o w again, g.reporter.mentions o.names false u = [(o, again)] → o.value = some w →
        InLine again w → o.width again = .many → "--" ∉ o.names.toList →
        (∀ u ∈ g.usages, ∀ leaf, .command leaf ∈ u.leaves →
          ∀ name ∈ leaf.names.toList, name ∉ o.names.toList) →
        0 < occurrences argv.style g.takes o.names argv.tokens → ∀ name ∈ o.names.toList,
          (o.got argv log ≠ [] ∨ (∀ p ∈ g.options, p.names = o.names → p.default = none) →
            m.find? name = some (.list ((o.got argv log).map (·.1)))) ∧
          (again = false ∨ (∀ x ∈ argv.tokens, x.Exposed argv.style o.names) →
            ((o.got argv log).map (·.2)).Pairwise (· < ·)) := by
  obtain ⟨argv', i, t, ht', ha, hex, rfl⟩ := exists_of_matchArgs hm
  obtain rfl := Except.ok.inj (ht.symm.trans ht')
  have hc := coherent_of_compile hg
  have hd := distinct_of_compile hg
  have hplain := plain_of_compile hg
  rcases run_of_matchAlternative ha with ⟨-, hb, -⟩ | ⟨u, n, log, hu, run⟩
  · cases hb
  refine ⟨i, u, n, log, t, hu, ha, run, ?_⟩
  intro o w again hmention hw hl hwidth hdash hcommand hocc name hname
  have hmem := List.mem_of_getElem? hu
  obtain ⟨ho, -⟩ : o ∈ g.options ∧ o.names = o.names :=
    mem_options_of_mentions hmem (hmention ▸ List.mem_singleton_self (o, again))
  obtain ⟨htexts, hsorted⟩ := texts_of_run hc hd hplain hv hmem ho hname hmention ht run hw hl
  refine ⟨fun hgot => ?_, hsorted⟩
  have hmet := isTruthy_of_occurrences hc hd hv hmem ho hname hmention ht run hdash hex hocc
  have hreport := option_eq_list (g := g) hmet hw hwidth
  rw [htexts] at hreport
  have hdefault : (o.got argv log).map (·.1) ≠ [] ∨ ∀ p ∈ g.options, p.names = o.names →
      p.default = none := hgot.imp_left fun hne => by simpa using hne
  obtain ⟨_, hfind, rfl⟩ := tells_list (hc.aptRegistry ho fun _ _ _ => trivial)
    (hc.aptLeaf ho (fun _ _ _ => trivial) hcommand) hdefault hdash hu hmention hreport name hname
  exact hfind

/-- All values of `-b` stand in their order, and so do the two of `--opt`. -/
theorem two_lists_in_order : ∃ g argv m log, ∃ b p : OptionAtom,
    compile {} "Usage: prog [-b<x>]... --opt=(<y> [<z>]) [-a]" = .ok g ∧
      g.tokenize ["-b1", "--opt", "7", "8", "-a", "-b", "2"] = .ok argv ∧
      g.matchArgs ["-b1", "--opt", "7", "8", "-a", "-b", "2"] = .ok m ∧
      m.find? "-b" = some (.list ((b.got argv log).map (·.1))) ∧
      (b.got argv log).map (·.1) = ["1", "2"] ∧ ((b.got argv log).map (·.2)).Pairwise (· < ·) ∧
      m.find? "--opt" = some (.list ((p.got argv log).map (·.1))) ∧
      (p.got argv log).map (·.1) = ["7", "8"] ∧ ((p.got argv log).map (·.2)).Pairwise (· < ·) := by
  let b : OptionAtom := ⟨.singleton "-b", some (.required [.argument ⟨.singleton "<x>", 1⟩]), none, 0⟩
  let value : Pattern := .required [.argument ⟨.singleton "<y>", 3⟩,
    .optional [.argument ⟨.singleton "<z>", 4⟩]]
  let p : OptionAtom := ⟨.singleton "--opt", some value, none, 2⟩
  let a : OptionAtom := ⟨.singleton "-a", none, none, 5⟩
  obtain ⟨g, hg, hoptions, hmentions, hcommands, ⟨m, hm, hmb, hmp⟩, argv, ht, hocc, hexposed⟩ : ∃ g,
      compile {} "Usage: prog [-b<x>]... --opt=(<y> [<z>]) [-a]" = .ok g ∧ g.options = [b, p, a] ∧
        (∀ u ∈ g.usages, g.reporter.mentions b.names false u = [(b, true)] ∧
          g.reporter.mentions p.names false u = [(p, false)]) ∧
        g.usages.flatMap Pattern.leaves = [.option b, .option p, .option a] ∧
        (∃ m, g.matchArgs ["-b1", "--opt", "7", "8", "-a", "-b", "2"] = .ok m ∧
          m.find? "-b" = some (.list ["1", "2"]) ∧ m.find? "--opt" = some (.list ["7", "8"])) ∧
        ∃ argv, g.tokenize ["-b1", "--opt", "7", "8", "-a", "-b", "2"] = .ok argv ∧
          (0 < occurrences argv.style g.takes b.names argv.tokens ∧
            0 < occurrences argv.style g.takes p.names argv.tokens) ∧
          ∀ x ∈ argv.tokens, x.Exposed argv.style b.names := by decide +kernel
  have hserial : Serial (.required [.argument ⟨.singleton "<x>", 1⟩]) ⟨.singleton "<x>", 1⟩ :=
    .group .argument
  have hlast : Orderly (.optional [.argument ⟨.singleton "<z>", 4⟩]) :=
    .gradual (.group (List.forall_mem_singleton.mpr .argument))
  have horderly : Orderly value := .group (List.forall_mem_singleton.mpr .argument) hlast
  have hv : g.WordyValues := by
    have hb : (Pattern.required [.argument ⟨.singleton "<x>", 1⟩]).Wordy :=
      List.forall_mem_singleton.mpr rfl
    have hp : value.Wordy := List.forall_mem_cons.mpr ⟨rfl, List.forall_mem_singleton.mpr rfl⟩
    simp [WordyValues, hoptions, b, p, a, hb, hp]
  have hcommand (names : Names) : ∀ u ∈ g.usages, ∀ leaf, .command leaf ∈ u.leaves →
      ∀ name ∈ leaf.names.toList, name ∉ names.toList := by
    intro u hu leaf hleaf
    have hmem := List.mem_flatMap.mpr ⟨u, hu, hleaf⟩
    rw [hcommands] at hmem
    simp at hmem
  have hdefault (names : Names) : ∀ q ∈ g.options, q.names = names → q.default = none := by
    rw [hoptions]
    simp [b, p, a]
  obtain ⟨i, u, n, log, t, hu, -, -, hlists⟩ := matchArgs_lists_values hg hv ht hm
  obtain ⟨hb, hp⟩ := hmentions u (List.mem_of_getElem? hu)
  obtain ⟨hfirst, hsorted⟩ := hlists b _ true hb rfl (.serial hserial) rfl (by decide) (hcommand _)
    hocc.1 "-b" (by decide)
  obtain ⟨hsecond, hsorted'⟩ := hlists p _ false hp rfl (.orderly rfl horderly) (by decide)
    (by decide) (hcommand _) hocc.2 "--opt" (by decide)
  have hfirst := hfirst (.inr (hdefault _))
  have hsecond := hsecond (.inr (hdefault _))
  refine ⟨g, argv, m, log, b, p, hg, ht, hm, hfirst, ?_, hsorted (.inr hexposed), hsecond, ?_,
    hsorted' (.inl rfl)⟩
  · simpa [hmb] using hfirst.symm
  · simpa [hmp] using hsecond.symm

/-- Of two arguments of one value, each holds its own texts of all passes. And a stack hides
`-b`, so that a later `-b` is taken first. -/
theorem lists_out_of_order :
    (∃ g, compile {} "Usage: prog (--opt=(<a> <b>))..." = .ok g ∧
      ∃ m, g.matchArgs ["--opt", "1", "2", "--opt", "3", "4"] = .ok m ∧
        m.find? "--opt" = some (.list ["1", "3", "2", "4"])) ∧
    ∃ g, compile {} "Usage: prog [-b<x>]... [-a]" = .ok g ∧
      ∃ m, g.matchArgs ["-ab", "1", "-b", "2"] = .ok m ∧ m.find? "-b" = some (.list ["2", "1"]) := by
  decide +kernel

end Synopsis.Grammar
