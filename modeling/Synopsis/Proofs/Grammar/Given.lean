import Synopsis.Proofs.Grammar.Conservation
import Synopsis.Proofs.Grammar.Mentions
import Synopsis.Proofs.Outcomes

/-! # Values that were given

An option of a single argument, which usages mention at most once, has the value that it
comes with among the arguments. Only an empty one gives way to the default.
-/

namespace Synopsis

open Pattern (slots)
open Argv (values)

variable {names : Names} {key text : String} {o p : OptionAtom} {leaf : Leaf} {v w u : Pattern}
  {s : Slots}

/-! ## Single arguments -/

namespace SoleArgument

theorem texts_eq (h : SoleArgument w leaf) : w.texts s = (s.get leaf.slot).texts := by
  induction h with
  | argument => rfl
  | group _ ih => simp [Pattern.texts, Pattern.textsAll, ih]

theorem of_unnumbered (h : SoleArgument w leaf) (he : v.unnumbered = w.unnumbered) :
    ∃ leaf', SoleArgument v leaf' := by
  induction h generalizing v with
  | argument =>
    cases v with
    | argument leaf' => exact ⟨leaf', .argument⟩
    | option o => simp [Pattern.unnumbered] at he
    | command | group | either | shortcut => simp [Pattern.unnumbered] at he
  | @group p leaf _ ih =>
    cases v with
    | group kind ps repeats =>
      simp only [Pattern.unnumbered, Pattern.unnumberedAll_eq_map, Pattern.group.injEq,
        List.map_cons, List.map_nil] at he
      obtain ⟨rfl, hps, rfl⟩ := he
      obtain ⟨c, rfl, hc⟩ := List.map_eq_singleton_iff.mp hps
      obtain ⟨leaf', h⟩ := ih hc
      exact ⟨leaf', .group h⟩
    | option o => simp [Pattern.unnumbered] at he
    | command | argument | either | shortcut => simp [Pattern.unnumbered] at he

end SoleArgument

/-- An option with a value that is a single argument. -/
def OptionOf.TakesOne (o : OptionAtom) : Prop := ∃ v leaf, o.value = some v ∧ SoleArgument v leaf

namespace OptionOf.TakesOne

theorem width_eq (h : o.TakesOne) : o.width false = .one := by
  obtain ⟨v, leaf, hv, hsole⟩ := h
  simp only [OptionOf.width, hv, Bool.false_eq_true, if_false, hsole.arity_eq]
  rfl

theorem of_agree (h : o.TakesOne) (ha : Grammar.Agree o p) : p.TakesOne := by
  obtain ⟨w, leaf, hw, hsole⟩ := h
  have hvalue : o.unnumbered.value = p.unnumbered.value := by
    refine ha.value_eq.resolve_right fun hflag => ?_
    have harity := hflag.1
    rw [OptionOf.valueArity, hw] at harity
    exact absurd (hsole.arity_eq.symm.trans harity) (by decide)
  rw [OptionOf.unnumbered, OptionOf.unnumbered, hw] at hvalue
  obtain ⟨v, hv, he⟩ := Option.map_eq_some_iff.mp hvalue.symm
  obtain ⟨leaf', hsole'⟩ := hsole.of_unnumbered he
  exact ⟨v, leaf', hv, hsole'⟩

end OptionOf.TakesOne

/-! ## Reports of single mentions -/

/-- A value is right for a mention that stands alone. Nothing is said of several. -/
def Alone {ν : Type} (P : Mention → ν → Prop) (xs : List Mention) (a : ν) : Prop :=
  xs ≠ [] ∧ ∀ x, xs = [x] → P x a

namespace Alone

variable {ν : Type} {P : Mention → ν → Prop} {xs ys : List Mention} {x : Mention} {a b c : ν}

theorem singleton (h : P x a) : Alone P [x] a :=
  ⟨List.cons_ne_nil x [], fun _ he => (List.cons.inj he).1 ▸ h⟩

theorem append (hx : Alone P xs a) (hy : Alone P ys b) : Alone P (xs ++ ys) c := by
  refine ⟨by simp [hx.1], fun x he => ?_⟩
  rcases List.append_eq_singleton_iff.mp he with ⟨hnil, -⟩ | ⟨-, hnil⟩
  · exact absurd hnil hx.1
  · exact absurd hnil hy.1

end Alone

namespace Reporter

/-- An option that holds a single text reports it. -/
theorem option_eq_of_text {r : Reporter} (hw : o.value = some w) (hsole : SoleArgument w leaf)
    (hmet : (s.get o.slot).isTruthy = true) (htext : s.get leaf.slot = .text text) :
    r.option s false o = some (.str text) := by
  have hwidth : o.width false = .one := OptionOf.TakesOne.width_eq ⟨w, leaf, hw, hsole⟩
  simp [Reporter.option, hmet, hwidth, hw, hsole.texts_eq, htext, Slot.texts]

end Reporter

/-! ## Matches -/

namespace Grammar

variable {g : Grammar} {config : Config} {doc : String} {raw : List String} {argv : Argv}
  {m : Mapping} {i : Nat} {t : Attempt} {dashes : Bool}

/-- No usage mentions an option of some names twice, or where it can be met again. -/
def MentionsOnce (g : Grammar) (names : Names) : Prop :=
  ∀ u ∈ g.usages, g.reporter.mentions names false u = [] ∨
    ∃ p, g.reporter.mentions names false u = [(p, false)]

/-- What a declared option says where it was given a text. -/
def orDefault (o : OptionAtom) (text : String) : String :=
  if text = "" then o.default.getD "" else text

theorem reshape_null (v : Value) : reshape .null v = v := by
  cases v <;> rfl

theorem declaredReported_str (o : OptionAtom) (text : String) :
    declaredReported o false (.str text) = .str (orDefault o text) := by
  unfold declaredReported orDefault
  by_cases ht : text = ""
  · have hempty : ("" : String).isEmpty = true := rfl
    cases o.default <;> simp [ht, Value.isTruthy, hempty]
  · simp [ht, Value.isTruthy]

theorem orDefault_orDefault (o : OptionAtom) (text : String) :
    orDefault o (orDefault o text) = orDefault o text := by
  unfold orDefault
  by_cases ht : text = ""
  · by_cases hd : o.default.getD "" = "" <;> simp [ht, hd]
  · simp [ht]

/-- Every mention is one of an option of the grammar. -/
theorem mem_options_of_mentions {x : Mention} (hu : u ∈ g.usages)
    (hx : x ∈ g.reporter.mentions names false u) : x.1 ∈ g.options ∧ x.1.names = names := by
  have hmem := List.mem_map_of_mem (f := fun x : Mention => x.1) hx
  rw [Reporter.options_mentions, List.mem_flatMap] at hmem
  obtain ⟨q, hq, hmem⟩ := hmem
  obtain ⟨y, hy, he⟩ := List.mem_map.mp hmem
  cases q with
  | option p =>
    by_cases hn : p.names = names
    · rw [Reporter.mentions, if_pos hn, List.mem_singleton] at hy
      rw [← he, hy]
      exact ⟨mem_options_of_usage hu hq, hn⟩
    · rw [Reporter.mentions, if_neg hn] at hy
      cases hy
  | shortcut s =>
    obtain ⟨hy, hn⟩ := List.mem_filter.mp hy
    obtain ⟨a, hdeclared, -⟩ := Reporter.mem_behind hy
    rw [← he]
    exact ⟨mem_options_of_registry hdeclared, of_decide_eq_true hn⟩
  | command | argument => cases hy
  | group | either => cases Pattern.isInner_of_mem_leaves hq

/-- Once a usage has matched, the one option that it mentions holds the value that was given. -/
theorem given_of_run {n : Nat} {log : List Move} (hc : g.Coherent)
    (hd : Pattern.Distinct g.scope g.usages) (hplain : Pattern.Plain u)
    (htable : g.table = .ofList g.options) (ho : o ∈ g.options) (hone : o.TakesOne)
    (hkey : key ∈ o.names.toList) (hvalues : g.ValuesApart o.names) (hdash : "--" ∉ o.names.toList)
    (hu : u ∈ g.usages) (hm : ∀ x ∈ g.reporter.mentions o.names false u, x = (o, false))
    (ht : g.tokenize raw = .ok argv)
    (hgiven : text ∈ values argv.style g.table.takes o.names argv.tokens)
    (run : Run g.scope n false u ⟨.blank g.slotCount, argv⟩ log true t)
    (hex : t.argv.isExhausted = true) :
    g.reporter.mentions o.names false u ≠ [] ∧
      g.reporter.option t.slots false o = some (.str text) := by
  obtain ⟨w, leaf, hw, hsole⟩ := hone
  have hne : o.slot ≠ leaf.slot := by
    have hnodup := nodup_slots_leaves hd
    rw [Pattern.slots_eq_flatMap, List.nodup_flatMap] at hnodup
    have hown := hnodup.1 _ (hc.option_mem_leaves_iff.mpr ho)
    rw [Pattern.slots_option hw] at hown
    exact fun he => (List.nodup_cons.mp hown).1 (he ▸ hsole.slot_mem)
  have hcontains : o.names.contains "--" = false := by
    rwa [← Bool.not_eq_true, OrderedSet.contains_iff]
  have hleads := leads_of_mentions hc hd hvalues htable ho rfl hkey hw hsole hplain
    (mem_leaves_of_usage hu) hm
  obtain ⟨hmet, htext⟩ := hleads.given hsole hw hne hcontains run
    ⟨rfl, tokenized_of_tokenize ht, .inr (Slots.get_blank _ _), .inl hgiven⟩ hex
  refine ⟨fun hnil => ?_, Reporter.option_eq_of_text hw hsole hmet htext⟩
  have hget := (run.untouched (i := o.slot) fun q hq => (beside_of_mentions hc hd hvalues
    (mem_leaves_of_usage hu) htable ho rfl hkey hw hsole hnil hq).slot_ne).get_eq
  rw [hget, Slots.get_blank] at hmet
  cases hmet

/-- The result reports the text of the one mention, or the default for an empty one. -/
theorem tells_of_text (hkey : key ∈ o.names.toList) (hr : AptRegistry g.registry OptionOf.TakesOne o.names)
    (husages : ∀ u ∈ g.usages, u.Leafwise (AptLeaf OptionOf.TakesOne o.names))
    (ho : (o, false) ∈ g.registry.options) (honce : g.MentionsOnce o.names)
    (hdash : "--" ∉ o.names.toList) (hu : g.usages[i]? = some u)
    (hm : g.reporter.mentions o.names false u = [(p, false)])
    (hreport : g.reporter.option s false p = some (.str text)) :
    Tells (· = .str (orDefault o text)) (g.assemble i s dashes) o.names := by
  have hmatched : Tells (· = .str text) (.ofList ((g.reporter.collect s false u).entries.filterMap
      fun e => e.2.map (e.1, ·))) o.names := by
    refine tells_of_shows (R := fun _ v => v = .str text) (List.cons_ne_nil (p, false) [])
      (fun key hkey => shows_reported ?_) fun _ => id
    have hshows := Reporter.shows_collect (R := Alone fun x v => v = g.reporter.option s x.2 x.1)
      hkey hr (fun _ _ _ => .singleton rfl) (fun _ _ _ _ => Alone.append) false
      (husages u (List.mem_of_getElem? hu))
    rw [hm] at hshows
    obtain ⟨v, hv, -, hsole⟩ := (Shows.iff_of_ne (List.cons_ne_nil _ _)).mp hshows
    exact (Shows.iff_of_ne (List.cons_ne_nil _ _)).mpr
      ⟨v, hv, .str text, (hsole _ rfl).trans hreport, rfl⟩
  -- Another usage expects no particular value under the names, or nothing at all.
  have hreshape : ∀ u ∈ g.usages.eraseIdx i, ∀ v w, v = .str text ∨ v = .str (orDefault o text) →
      Alone (fun x w => x.2 = false → w = .null) (g.reporter.neutralMentions o.names false [u]) w →
      reshape w v = .str text ∨ reshape w v = .str (orDefault o text) := by
    intro u hu v w hv hw
    rw [Reporter.neutralMentions_singleton] at hw
    split at hw
    · exact absurd rfl hw.1
    · rcases honce u (List.mem_of_mem_eraseIdx hu) with hnil | ⟨p', hp'⟩
      · exact absurd hnil hw.1
      · rwa [hw.2 _ hp' rfl, reshape_null]
  have hallowed : Allows (fun v => v = .str text ∨ v = .str (orDefault o text)) False
      (.ofList ((g.reporter.collect s false u).entries.filterMap fun e => e.2.map (e.1, ·)))
      o.names := .inl (hmatched.imp fun _ => .inl)
  have hothers := (allows_others hr
    (fun x _ hone => .singleton fun hx => by rw [hx, Reporter.neutralOption, hone.width_eq])
    (fun _ _ _ _ => Alone.append) (fun _ _ _ _ => Alone.append)
    (fun u hu => husages u (List.mem_of_mem_eraseIdx hu)) hreshape False.elim
    hallowed).1
  have hdeclares : ∀ x ∈ g.registry.options, x.1.names = o.names →
      Declares g s (fun v => v = .str text ∨ v = .str (orDefault o text))
        (· = .str (orDefault o text)) False x := by
    rintro ⟨o', a⟩ hx hn
    obtain ⟨rfl, rfl⟩ := Prod.mk.inj (hr.proper.option_unique ho hx hkey (hn ▸ hkey))
    refine ⟨fun v hv => ?_, False.elim⟩
    rcases hv with rfl | rfl
    · exact declaredReported_str o text
    · rw [declaredReported_str, orDefault_orDefault]
  have htells := (allows_declared (fun _ => .inr) hr.apt hdeclares hothers).1 (.inl ⟨_, ho, rfl⟩)
  unfold assemble
  rw [hu]
  exact htells.insert_dashes hdash

/-- An option that was given a text says it in the result, or its default instead. -/
theorem tells_given (hg : compile config doc = .ok g) (ho : (o, false) ∈ g.registry.options)
    (hone : o.TakesOne) (honce : g.MentionsOnce o.names) (hvalues : g.ValuesApart o.names)
    (hdash : "--" ∉ o.names.toList)
    (hcommand : ∀ u ∈ g.usages, ∀ leaf, .command leaf ∈ u.leaves →
      ∀ name ∈ leaf.names.toList, name ∉ o.names.toList)
    (ht : g.tokenize raw = .ok argv) (hm : g.matchArgs raw = .ok m)
    (hgiven : text ∈ values argv.style g.table.takes o.names argv.tokens) :
    Tells (· = .str (orDefault o text)) m o.names := by
  intro key hkey
  obtain ⟨argv', i, t, ht', ha, hex, rfl⟩ := exists_of_matchArgs hm
  obtain rfl := Except.ok.inj (ht'.symm.trans ht)
  have hc := coherent_of_compile hg
  have hd := distinct_of_compile hg
  have hdeclared := mem_options_of_registry ho
  obtain ⟨source, registry, usages, hb, -⟩ := build_of_compile hg
  have htable : g.table = .ofList g.options := (eq_of_build hb).2.2.2.2.2
  rcases run_of_matchAlternative ha with ⟨-, hb, -⟩ | ⟨u, k, log, hu, run⟩
  · cases hb
  have hmem := List.mem_of_getElem? hu
  have hsame (p : OptionAtom) (hp : p ∈ g.options) (hn : p.names = o.names) : p.TakesOne :=
    hone.of_agree (hc.agree o hdeclared p hp key hkey (hn ▸ hkey))
  obtain ⟨p, hmentions, hreport⟩ : ∃ p, g.reporter.mentions o.names false u = [(p, false)] ∧
      g.reporter.option t.slots false p = some (.str text) := by
    rcases honce u hmem with hnil | ⟨p, hp⟩
    · have hnone := (given_of_run hc hd (plain_of_compile hg u hmem) htable hdeclared hone hkey
        hvalues hdash hmem (by simp [hnil]) ht hgiven run hex).1
      exact absurd hnil hnone
    · obtain ⟨hpo, hn⟩ := mem_options_of_mentions hmem (hp ▸ List.mem_singleton_self (p, false))
      dsimp only at hpo hn
      refine ⟨p, hp, ?_⟩
      rw [← hn] at hp hkey hvalues hdash hgiven
      exact (given_of_run hc hd (plain_of_compile hg u hmem) htable hpo (hsame p hpo hn) hkey
        hvalues hdash hmem (by simp [hp]) ht hgiven run hex).2
  exact tells_of_text hkey (hc.aptRegistry hdeclared hsame) (hc.aptLeaf hdeclared hsame hcommand)
    ho honce hdash hu hmentions hreport key hkey

/-- An option of a single argument that was given a text has it in the result, under all its
names, whatever its default is. Only an empty text gives way to a default. -/
theorem matchArgs_keeps_given (hg : compile config doc = .ok g)
    (ho : (o, false) ∈ g.registry.options) (hone : o.TakesOne) (honce : g.MentionsOnce o.names)
    (hvalues : g.ValuesApart o.names) (hdash : "--" ∉ o.names.toList)
    (hcommand : ∀ u ∈ g.usages, ∀ leaf, .command leaf ∈ u.leaves →
      ∀ name ∈ leaf.names.toList, name ∉ o.names.toList)
    (ht : g.tokenize raw = .ok argv) (hm : g.matchArgs raw = .ok m)
    (hgiven : text ∈ values argv.style g.table.takes o.names argv.tokens) :
    (text ≠ "" ∨ o.default = none → Tells (· = .str text) m o.names) ∧
      ∀ fallback, text = "" → o.default = some fallback → Tells (· = .str fallback) m o.names := by
  have htells := tells_given hg ho hone honce hvalues hdash hcommand ht hm hgiven
  unfold orDefault at htells
  constructor
  · rintro (htext | hnone)
    · rwa [if_neg htext] at htells
    · rwa [hnone, Option.getD_none, ite_eq_right_iff.mpr Eq.symm] at htells
  · intro fallback htext hd
    rwa [if_pos htext, hd, Option.getD_some] at htells

/-- Where values are single arguments, they mention no options. -/
theorem valuesApart_of_takesOne (h : ∀ p ∈ g.options, p.value = none ∨ p.TakesOne) :
    g.ValuesApart names := by
  intro p hp v hv q hq
  obtain ⟨w, leaf, hw, hsole⟩ := (h p hp).resolve_left (by simp [hv])
  obtain rfl := Option.some.inj (hv.symm.trans hw)
  rintro o rfl
  clear hv hw
  induction hsole with
  | argument => cases hq
  | group _ ih =>
    cases hq with
    | child hc hq => exact ih (List.mem_singleton.mp hc ▸ hq)

/-- The value of `-o` stands in the result, though a default is declared. -/
theorem given_value_beats_default : ∃ g m o,
    compile {} "Usage:\n  prog [options] go\n  prog -o F run\n\nOptions:\n  -o F  Out [default: x]" = .ok g ∧
      g.matchArgs ["run", "-oy"] = .ok m ∧ g.registry.options = [(o, false)] ∧
      o.default = some "x" ∧ o.names = .singleton "-o" ∧ Tells (· = .str "y") m o.names := by
  let leaf : Leaf := ⟨.singleton "F", 1⟩
  let leaf' : Leaf := ⟨.singleton "F", 4⟩
  let o : OptionAtom := ⟨.singleton "-o", some (.required [.argument leaf]), some "x", 0⟩
  let p : OptionAtom := ⟨.singleton "-o", some (.required [.argument leaf']), none, 3⟩
  let u : Pattern := .required [.shortcut { title := "" }, .command ⟨.singleton "go", 2⟩]
  let u' : Pattern := .required [.option p, .command ⟨.singleton "run", 5⟩]
  obtain ⟨g, hg, ho, hu, hmentions, hmentions', ⟨m, hm, -⟩, argv, ht, hgiven⟩ : ∃ g,
      compile {} "Usage:\n  prog [options] go\n  prog -o F run\n\nOptions:\n  -o F  Out [default: x]" = .ok g ∧
        g.registry.options = [(o, false)] ∧ g.usages = [u, u'] ∧
        g.reporter.mentions (.singleton "-o") false u = [(o, false)] ∧
        g.reporter.mentions (.singleton "-o") false u' = [(p, false)] ∧
        (∃ m, g.matchArgs ["run", "-oy"] = .ok m ∧ True) ∧
        ∃ argv, g.tokenize ["run", "-oy"] = .ok argv ∧
          values argv.style g.table.takes (.singleton "-o") argv.tokens = ["y"] := by decide +kernel
  have hone : o.TakesOne := ⟨_, leaf, rfl, .group .argument⟩
  have hone' : p.TakesOne := ⟨_, leaf', rfl, .group .argument⟩
  have hleaves : u.leaves = [.shortcut { title := "" }, .command ⟨.singleton "go", 2⟩] := rfl
  have hleaves' : u'.leaves = [.option p, .command ⟨.singleton "run", 5⟩] := rfl
  have hoptions (q : OptionAtom) (hq : q ∈ g.options) : q = o ∨ q = p := by
    simpa [mem_options_iff, ho, hu, hleaves, hleaves'] using hq
  refine ⟨g, m, o, hg, hm, ho, rfl, rfl, ?_⟩
  refine (matchArgs_keeps_given hg (by simp [ho]) hone ?_ ?_ (by decide) ?_ ht hm
    (hgiven ▸ List.mem_singleton_self _)).1 (.inl (by decide))
  · simp [MentionsOnce, hu, o, hmentions, hmentions']
  · exact valuesApart_of_takesOne fun q hq =>
      .inr ((hoptions q hq).elim (· ▸ hone) (· ▸ hone'))
  · simp [hu, hleaves, hleaves', o]

/-- An empty value of `-o` gives way to the default. -/
theorem empty_value_is_lost : ∃ g argv m o leaf u,
    compile {} "Usage: prog [options]\n\nOptions:\n  -o FILE  Out [default: x]" = .ok g ∧
      g.tokenize ["-o", ""] = .ok argv ∧ g.matchArgs ["-o", ""] = .ok m ∧
      g.registry.options = [(o, false)] ∧ g.usages = [u] ∧ o.names = .singleton "-o" ∧
      o.value = some (.group .required [.argument leaf] false) ∧
      g.reporter.mentions o.names false u = [(o, false)] ∧
      values argv.style g.table.takes o.names argv.tokens = [""] ∧
      m.find? "-o" = some (.str "x") := by
  let leaf : Leaf := ⟨.singleton "FILE", 1⟩
  let o : OptionAtom := ⟨.singleton "-o", some (.required [.argument leaf]), some "x", 0⟩
  let u : Pattern := .required [.shortcut { title := "" }]
  obtain ⟨g, hg, ho, hu, hmentions, ⟨argv, ht, hgiven⟩, m, hm, hx⟩ :
      ∃ g, compile {} "Usage: prog [options]\n\nOptions:\n  -o FILE  Out [default: x]" = .ok g ∧
        g.registry.options = [(o, false)] ∧ g.usages = [u] ∧
        g.reporter.mentions o.names false u = [(o, false)] ∧
        (∃ argv, g.tokenize ["-o", ""] = .ok argv ∧
          values argv.style g.table.takes o.names argv.tokens = [""]) ∧
        ∃ m, g.matchArgs ["-o", ""] = .ok m ∧ m.find? "-o" = some (.str "x") := by decide +kernel
  exact ⟨g, argv, m, o, leaf, u, hg, ht, hm, ho, hu, rfl, rfl, hmentions, hgiven, hx⟩

end Grammar

end Synopsis
