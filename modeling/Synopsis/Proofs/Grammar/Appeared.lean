import Synopsis.Proofs.Grammar.Counting
import Synopsis.Proofs.Grammar.Keys
import Synopsis.Proofs.Outcomes

/-! # Options that appeared

If options that do not appear are left out, then the names of an option are in a result
just if one of its mentions was met. Neither the usages that did not match nor the
declarations put the names of an option there that was not met.
-/

namespace Synopsis

open Argv (occurrences)

variable {names : Names} {key : String} {slots : Slots}

/-! ## Reports -/

/-- The slot of an option counts how often it is met. -/
def CountsHits (slots : Slots) (o : OptionAtom) : Prop :=
  RecordKind.hits.fits (slots.get o.slot) = true

namespace Reporter

variable {r : Reporter}

theorem isSome_option (happ : r.appearedOnly = true) {x : Mention} (hx : CountsHits slots x.1) :
    (r.option slots x.2 x.1).isSome = true ↔ 0 < metTogether slots [x] := by
  have hmet : metTogether slots [x] = (slots.get x.1.slot).count?.getD 0 := by
    simp [metTogether, metNumber]
  have hsome : (r.option slots x.2 x.1).isSome = (slots.get x.1.slot).isTruthy := by
    unfold Reporter.option
    dsimp only
    rw [happ, if_pos rfl]
    split
    next htruthy =>
      rw [htruthy]
      split <;> rfl
    next htruthy => exact (Bool.eq_false_iff.mpr htruthy).symm
  rw [hsome, hmet, Slot.isTruthy_iff_of_hits hx]

theorem isSome_merge {a b : Reported} :
    (Reported.merge key a b).isSome = true ↔ a.isSome = true ∨ b.isSome = true := by
  cases a <;> cases b <;> simp [Reported.merge]

/-- The report of a usage that matched has a value under a name just if a mention of the
name was met. -/
theorem says_collect_iff (happ : r.appearedOnly = true) (hkey : key ∈ names.toList)
    (hr : AptRegistry r.scope.registry (CountsHits slots) names) {u : Pattern}
    (hu : u.Leafwise (AptLeaf (CountsHits slots) names)) :
    Says (r.collect slots false u) key ↔ 0 < metTogether slots (r.mentions names false u) := by
  have hmerge (xs ys : List Mention) (a b : Reported)
      (ha : a.isSome = true ↔ 0 < metTogether slots xs)
      (hb : b.isSome = true ↔ 0 < metTogether slots ys) :
      (Reported.merge key a b).isSome = true ↔ 0 < metTogether slots (xs ++ ys) := by
    rw [isSome_merge, metTogether_append, ha, hb, Nat.add_pos_iff_pos_or_pos]
  have hshows : Shows (fun xs v => v.isSome = true ↔ 0 < metTogether slots xs)
      (r.collect slots false u) key (r.mentions names false u) :=
    shows_collect hkey hr (fun x _ hx => isSome_option happ hx) hmerge false hu
  by_cases hx : r.mentions names false u = []
  · rw [hx, Shows.nil_iff] at hshows
    simp [Says, hx, hshows, metTogether]
  · obtain ⟨v, hv, hmet⟩ := (Shows.iff_of_ne hx).mp hshows
    rw [← hmet, Says, hv]
    cases v <;> simp

/-- A usage that did not match has nothing to say about options. -/
theorem notMem_neutral (happ : r.appearedOnly = true) (hkey : key ∈ names.toList)
    {A : OptionAtom → Prop} (hr : AptRegistry r.scope.registry A names) {u : Pattern}
    (hu : u.Leafwise (AptLeaf A names)) : key ∉ (r.neutral false u).keys := by
  have hshows := shows_neutral (R := fun _ _ => True) hkey hr (fun _ _ _ => trivial)
    (fun _ _ _ _ _ _ => trivial) false hu (fun _ _ _ _ _ _ => trivial)
  rw [neutralMentions, if_pos happ, Shows.nil_iff] at hshows
  simp [OrderedMap.mem_keys_iff, hshows]

end Reporter

namespace Grammar

variable {g : Grammar} {config : Config} {doc : String} {raw : List String} {argv : Argv}
  {m : Mapping} {o : OptionAtom} {name : String}

/-! ## Results -/

/-- A declaration gives a name that is there to the other names of its option. -/
theorem mem_keys_declared_iff (happ : g.config.appearedOnly = true) {A : OptionAtom → Prop} {P : Prop}
    {xs : List Mention} (hx : ∀ x ∈ xs, Apt A names x.1)
    (hm : ∀ key ∈ names.toList, key ∈ m.keys ↔ P) :
    ∀ key ∈ names.toList,
      key ∈ (xs.foldl (fun m (o, repeats) => g.addDeclared slots m o repeats) m).keys ↔ P := by
  induction xs generalizing m with
  | nil => exact hm
  | cons x xs ih =>
    obtain ⟨hx, hxs⟩ := List.forall_mem_cons.mp hx
    refine ih hxs fun key hkey => ?_
    rw [mem_keys_addDeclared, happ, hm key hkey]
    refine or_iff_left_of_imp ?_
    rintro ⟨hown, hthere⟩
    obtain ⟨name, hname, hthere⟩ := hthere.resolve_left nofun
    exact (hm name ((hx.of_mem hkey hown).1 ▸ hname)).mp hthere

theorem mem_keys_assemble_iff (happ : g.config.appearedOnly = true) {i : Nat} {u : Pattern}
    {dashes : Bool} (hu : g.usages[i]? = some u) (hr : AptRegistry g.registry (CountsHits slots) names)
    (husages : ∀ u ∈ g.usages, u.Leafwise (AptLeaf (CountsHits slots) names))
    (hdash : "--" ∉ names.toList) : ∀ key ∈ names.toList,
      key ∈ (g.assemble i slots dashes).keys ↔
        0 < metTogether slots (g.reporter.mentions names false u) := by
  intro key hkey
  unfold assemble
  rw [hu, OrderedMap.mem_keys_insert, or_iff_right (ne_of_mem_of_not_mem hkey hdash)]
  refine mem_keys_declared_iff happ hr.apt (fun key hkey => ?_) key hkey
  rw [mem_keys_others, mem_keys_reported, Reporter.says_collect_iff happ hkey hr
    (husages u (List.mem_of_getElem? hu))]
  refine or_iff_left ?_
  rintro ⟨u', hu', hthere⟩
  exact Reporter.notMem_neutral happ hkey hr (husages u' (List.mem_of_mem_eraseIdx hu')) hthere

/-- If options that do not appear are left out, a result has all names of an option that
occurs among the arguments, and none of one that does not. -/
theorem matchArgs_appeared (hg : compile config doc = .ok g) (happ : g.config.appearedOnly = true)
    (hv : g.WordyValues) (ho : o ∈ g.options) (hdash : "--" ∉ o.names.toList)
    (hcommand : ∀ u ∈ g.usages, ∀ leaf, .command leaf ∈ u.leaves →
      ∀ name ∈ leaf.names.toList, name ∉ o.names.toList)
    (ht : g.tokenize raw = .ok argv) (hm : g.matchArgs raw = .ok m) :
    ∀ name ∈ o.names.toList,
      name ∈ m.keys ↔ 0 < occurrences argv.style g.takes o.names argv.tokens := by
  obtain ⟨argv', i, t, ht', ha, hex, rfl⟩ := exists_of_matchArgs hm
  obtain rfl := Except.ok.inj (ht'.symm.trans ht)
  have hc := coherent_of_compile hg
  have hd := distinct_of_compile hg
  rcases run_of_matchAlternative ha with ⟨-, hb, -⟩ | ⟨u, k, log, hu, run⟩
  · cases hb
  have hmem := List.mem_of_getElem? hu
  have hty : Typed g.Owns t.slots :=
    (Typed.closed (apart_of_distinct hd)).run (fun q hq => owns_of_reaches hmem hq) run (Typed.blank _)
  have hhits (p : OptionAtom) (hp : p ∈ g.options) (_ : p.names = o.names) : CountsHits t.slots p :=
    hty (.option p) (fun i hi => List.mem_flatMap.mp (mem_atoms_of_mem_options hp)) _ rfl
  intro name hname
  rw [mem_keys_assemble_iff happ hu (hc.aptRegistry ho hhits) (hc.aptLeaf ho hhits hcommand) hdash
    name hname]
  obtain ⟨own, hocc, hmet, hzero⟩ := met_of_run hc hv hd
    (fun p hp name hname => reckons hv hc hp hname) ho hname hdash ht hmem run hex
  rw [hmet, ← hocc]
  cases hs : g.reporter.shortcutsFor o.names u with
  | nil => simp [hzero hs]
  | cons s rest =>
    rw [List.length_cons, Nat.add_pos_iff_pos_or_pos, Nat.add_pos_iff_pos_or_pos]
    exact or_congr_right (Nat.mul_pos_iff_of_pos_left rest.length.succ_pos)

/-- The default of `-o` is left out, and so is its mention in the other usage. -/
theorem unseen_default_left_out : ∃ g m,
    compile { appearedOnly := true }
        "Usage:\n  prog [options] go\n  prog -o F run\n\nOptions:\n  -v, --verbose  V.\n  -o F  O. [default: x]" =
        .ok g ∧
      g.matchArgs ["-v", "go"] = .ok m ∧ "--verbose" ∈ m.keys ∧ "-v" ∈ m.keys ∧ "-o" ∉ m.keys := by
  let value (i : Nat) : Pattern := .required [.argument ⟨.singleton "F", i⟩]
  obtain ⟨g, hg, happ, hoptions, hleaves, ⟨m, hm, -⟩, argv, ht, hverbose, hunseen⟩ : ∃ g,
      compile { appearedOnly := true }
        "Usage:\n  prog [options] go\n  prog -o F run\n\nOptions:\n  -v, --verbose  V.\n  -o F  O. [default: x]" =
        .ok g ∧
      g.config.appearedOnly = true ∧
      g.options = [⟨.ofList ["--verbose", "-v"], none, none, 0⟩,
        ⟨.singleton "-o", some (value 2), some "x", 1⟩, ⟨.singleton "-o", some (value 5), none, 4⟩] ∧
      g.usages.flatMap Pattern.leaves = [.shortcut { title := "", hidden := .empty },
        .command ⟨.singleton "go", 3⟩, .option ⟨.singleton "-o", some (value 5), none, 4⟩,
        .command ⟨.singleton "run", 6⟩] ∧
      (∃ m, g.matchArgs ["-v", "go"] = .ok m ∧ True) ∧
      ∃ argv, g.tokenize ["-v", "go"] = .ok argv ∧
        occurrences argv.style g.takes (.ofList ["--verbose", "-v"]) argv.tokens = 1 ∧
        occurrences argv.style g.takes (.singleton "-o") argv.tokens = 0 := by decide +kernel
  have hword (i : Nat) : (value i).Wordy := List.forall_mem_singleton.mpr rfl
  have hv : g.WordyValues := by
    simp [WordyValues, hoptions, hword]
  have hcommand {names : Names} (hgo : "go" ∉ names.toList) (hrun : "run" ∉ names.toList) :
      ∀ u ∈ g.usages, ∀ leaf, .command leaf ∈ u.leaves → ∀ name ∈ leaf.names.toList,
        name ∉ names.toList := by
    intro u hu leaf hleaf
    have hmem := List.mem_flatMap.mpr ⟨u, hu, hleaf⟩
    rw [hleaves] at hmem
    simp only [List.mem_cons, reduceCtorEq, Pattern.command.injEq, List.not_mem_nil, false_or,
      or_false] at hmem
    rcases hmem with rfl | rfl
    · exact List.forall_mem_singleton.mpr hgo
    · exact List.forall_mem_singleton.mpr hrun
  have hfirst := matchArgs_appeared (o := ⟨.ofList ["--verbose", "-v"], none, none, 0⟩) hg happ hv
    (by simp [hoptions]) (by decide) (hcommand (by decide) (by decide)) ht hm
  have hsecond := matchArgs_appeared (o := ⟨.singleton "-o", some (value 2), some "x", 1⟩) hg happ hv
    (by simp [hoptions]) (by decide) (hcommand (by decide) (by decide)) ht hm
  rw [hverbose] at hfirst
  rw [hunseen] at hsecond
  exact ⟨g, m, hg, hm, (hfirst _ (by decide)).mpr Nat.one_pos, (hfirst _ (by decide)).mpr Nat.one_pos,
    fun h => Nat.lt_irrefl 0 ((hsecond _ (by decide)).mp h)⟩

end Grammar

end Synopsis
