import Synopsis.Proofs.Grammar.Frame
import Synopsis.Proofs.Matcher.Ellipsis

/-! # Usages that begin with a repeating group

A usage of a repeating group of arguments, with commands and arguments behind it, against plain
words. The words are all taken by the group, and the last ones are lent to what stands behind it.
-/

namespace Synopsis

open Pattern (slots)
open Lending (column Dealt CanLend)

/-- A word that is neither an option nor the end of the options. -/
def PlainWord (w : String) : Prop := looksLikeOption w = false ∧ w ≠ "--"

/-! ## Tokens -/

theorem tokensOf_words {t : OptionTable} {c : Config} {raw : List String} (h : ∀ w ∈ raw, PlainWord w)
    (hc : c.optionsFirst = false) : tokensOf t c 0 raw = .ok (raw.map (Token.mk · .word)) := by
  induction raw with
  | nil => rfl
  | cons w raw ih =>
    obtain ⟨⟨hlooks, hdash⟩, hraw⟩ := List.forall_mem_cons.mp h
    have hne : (w == "--") = false := beq_false_of_ne hdash
    simp only [tokensOf, Nat.lt_irrefl, decide_false, Bool.false_and, Bool.false_eq_true, if_false, hne,
      hlooks, hc, ih hraw]
    rfl

theorem tokensOf_words_ahead {t : OptionTable} {c : Config} {w : String} {raw : List String}
    (hw : PlainWord w) (hc : c.optionsFirst = true) :
    tokensOf t c 0 (w :: raw) = .ok (⟨"--", .doubleDash⟩ :: (w :: raw).map (Token.mk · .literal)) := by
  have hne : (w == "--") = false := beq_false_of_ne hw.2
  simp only [tokensOf, Nat.lt_irrefl, decide_false, Bool.false_and, Bool.false_eq_true, if_false, hne, hw.1,
    hc, if_true]

namespace Grammar

variable {g : Grammar} {raw : List String}

/-- Plain words stand behind an end of the options at most. -/
theorem words_of_plain (g : Grammar) (h : ∀ w ∈ raw, PlainWord w) : ∃ argv front ts,
    g.tokenize raw = .ok argv ∧ Attempt.Words front ts ⟨.blank g.slotCount, argv⟩ ∧
      ts.map (·.text) = raw ∧ (ts = [] → front = []) := by
  have plain {kind : TokenKind} (hk : kind ≠ .doubleDash) : ∀ x ∈ raw.map (Token.mk · kind),
      x.isDoubleDash = false ∧ looksLikeOption x.text = false := by
    intro x hx
    obtain ⟨w, hw, rfl⟩ := List.mem_map.mp hx
    exact ⟨decide_eq_false hk, (h w hw).1⟩
  have texts (kind : TokenKind) : (raw.map (Token.mk · kind)).map (·.text) = raw := by
    simp [Function.comp_def]
  cases hc : g.config.optionsFirst with
  | false =>
    refine ⟨⟨raw.map (Token.mk · .word), g.config.style, g.config.honorsDoubleDash, false, false⟩, [], _,
      ?_, ⟨rfl, .inl rfl, plain (by decide)⟩, texts .word, fun _ => rfl⟩
    rw [tokenize, Argv.tokenize, tokensOf_words h hc]
    rfl
  | true =>
    cases raw with
    | nil => exact ⟨⟨[], g.config.style, g.config.honorsDoubleDash, false, false⟩, [], [], rfl,
        ⟨rfl, .inl rfl, nofun⟩, rfl, fun _ => rfl⟩
    | cons w raw =>
      refine ⟨⟨⟨"--", .doubleDash⟩ :: (w :: raw).map (Token.mk · .literal), g.config.style,
        g.config.honorsDoubleDash, false, false⟩, [⟨"--", .doubleDash⟩], _, ?_,
        ⟨rfl, .inr ⟨_, rfl, rfl, ?_⟩, plain (by decide)⟩, texts .literal, nofun⟩
      · rw [tokenize, Argv.tokenize, tokensOf_words_ahead (h w List.mem_cons_self) hc]
        rfl
      · simp [Config.honorsDoubleDash, hc]

end Grammar

/-! ## Usages -/

variable {kind : GroupKind} {children : List Pattern} {es : List Positional} {P : Nat → Prop}
  {p : Pattern}

theorem Pattern.Nest.bare (h : p.Nest P) : p.Bare := by
  induction h with
  | argument => exact .argument
  | optional _ ih | required _ _ ih => exact .group ih

theorem Positional.bare_pattern (p : Positional) : p.pattern.Bare := by
  cases p with
  | command => exact .command
  | argument => exact .argument

theorem Pattern.slots_positionals (es : List Positional) :
    slots (es.map (·.pattern)) = es.map (·.slot) := by
  induction es with
  | nil => rfl
  | cons p es ih =>
    rw [List.map_cons, slots_cons, ih]
    cases p <;> rfl

namespace Grammar

variable {g : Grammar} {raw : List String} {config : Config} {source : SourceText} {registry : Registry}
  {usages : List Pattern} {i : Nat}

theorem ellipsis_of_usage (hb : build config source registry usages = .ok g)
    (hu : g.usages[i]? = some (.required (.group kind children true :: es.map (·.pattern))))
    (hnest : (Pattern.group kind children false).Nest (0 < ·)) (hne : slots children ≠ [])
    (hes : es ≠ []) : Ellipsis kind children es where
  nest := hnest
  lenders_ne := hne
  borrowers_ne := hes
  nodup := by
    have hd := ((distinct_of_build hb).singleton (List.mem_of_getElem? hu)).children.slots_nodup
    rwa [Pattern.slots_cons, Pattern.slots_group, Pattern.slots_positionals] at hd

/-- The match comes to an answer. It takes all words if and only if the loan can be paid. -/
theorem matchAlternative_words (h : Ellipsis kind children es)
    (hu : g.usages[i]? = some (.required (.group kind children true :: es.map (·.pattern))))
    (hplain : ∀ w ∈ raw, PlainWord w) (hmode : Pattern.Deals kind children raw.length) :
    ∃ argv, g.tokenize raw = .ok argv ∧
      ((∃ t, g.matchAlternative i ⟨.blank g.slotCount, argv⟩ = .ok true t ∧ t.argv.isExhausted = true) ↔
        Ellipsis.Pays kind children es raw) ∧
      ∀ t, g.matchAlternative i ⟨.blank g.slotCount, argv⟩ = .ok true t →
        Ellipsis.Pays kind children es raw ∧ Ellipsis.Paid children es raw t.slots := by
  obtain ⟨argv, front, ts, htokenize, hw, rfl, hfront⟩ := words_of_plain g hplain
  rw [List.length_map] at hmode
  have hbare : (Pattern.required (.group kind children true :: es.map (·.pattern))).Bare := by
    refine .group (List.forall_mem_cons.mpr ⟨.group fun c hc => (h.children_nest c hc).bare, ?_⟩)
    intro c hc
    obtain ⟨p, -, rfl⟩ := List.mem_map.mp hc
    exact p.bare_pattern
  have hfinite : (Pattern.required (.group kind children true :: es.map (·.pattern))).Finite g.scope :=
    fun q hq _ => ⟨_, Pattern.recorded?_isSome_of_nodes_le
      (fun q' hq' => ((hbare.of_reaches hq).of_reaches hq').shortcut?_eq_none) le_rfl⟩
  have hends := matchPattern_ends hfinite ⟨.blank g.slotCount, argv⟩
  have hruns := hends.and (h.matches_line hw hfront hmode (Slots.get_blank g.slotCount))
  obtain ⟨b, t, hm, -, hpays, hpaid⟩ := (hruns.mono (fun _ _ h => h) fun e t he => he.1 he.2).exists_ok
  have halternative : g.matchAlternative i ⟨.blank g.slotCount, argv⟩ = .ok b t := by
    simp only [matchAlternative, hu, MatchM.argv_bind]
    exact hm
  have hexhausted (hb : b = true) : t.argv.isExhausted = true := by
    have htokens := (hpaid hb).1.tokens
    rw [List.append_nil] at htokens
    rcases (hpaid hb).1.front with rfl | ⟨d, rfl, hd, hauto⟩
    · simp [Argv.isExhausted, htokens]
    · simp [Argv.isExhausted, htokens, hd, hauto]
  refine ⟨argv, htokenize, ?_⟩
  rw [halternative]
  refine ⟨⟨?_, fun h => ?_⟩, ?_⟩
  · rintro ⟨u, hu, -⟩
    exact hpays.mp (EStateM.Result.ok.inj hu).1
  · obtain rfl := hpays.mpr h
    exact ⟨t, rfl, hexhausted rfl⟩
  · rintro u hu
    obtain ⟨rfl, rfl⟩ := EStateM.Result.ok.inj hu
    exact ⟨hpays.mp rfl, (hpaid rfl).2⟩

/-- How many words a repeating argument keeps at least. -/
def leastKept : GroupKind → Nat
  | .required => 1
  | .optional => 0

theorem canLend_one {n k : Nat} : CanLend 1 n k kind ↔ k + leastKept kind ≤ n := by
  cases kind with
  | required => exact ⟨And.right, fun h => ⟨Nat.one_dvd k, h⟩⟩
  | optional => exact .rfl

/-- Arguments take any word, so only the commands decide. -/
theorem fitAll_iff (hplain : ∀ w ∈ raw, PlainWord w) (hle : es.length ≤ raw.length) :
    FitAll es (raw.drop (raw.length - es.length)) ↔ ∀ (j : Nat) (leaf : Leaf),
      es[j]? = some (.command leaf) →
        ∃ w, raw[raw.length - es.length + j]? = some w ∧ leaf.names.contains w = true := by
  constructor
  · intro h j leaf hj
    obtain ⟨hlt, -⟩ := List.getElem?_eq_some_iff.mp hj
    have hw : raw[raw.length - es.length + j]? = some _ := List.getElem?_eq_getElem (by omega)
    have hfits := h j _ _ hj (List.getElem?_drop.trans hw)
    exact ⟨_, hw, (Bool.and_eq_true_iff.mp hfits).1⟩
  · rintro h j (leaf | leaf) w hj hw
    · rw [List.getElem?_drop] at hw
      obtain ⟨v, hv, hnames⟩ := h j leaf hj
      obtain rfl := Option.some.inj (hv.symm.trans hw)
      have hlooks := (hplain v (List.mem_of_getElem? hv)).1
      simp [Positional.fits, Positional.accepts, hnames, hlooks]
    · simp [Positional.fits, Positional.accepts]

/-- A repeating argument leaves the last words to the commands and arguments behind it: as many as
there are of these, as long as each command finds its name. It keeps the others. -/
theorem repeating_argument_lends {a : Leaf} (hb : build config source registry usages = .ok g)
    (hu : g.usages[i]? = some (.required (.group kind [.argument a] true :: es.map (·.pattern))))
    (hes : es ≠ []) (hplain : ∀ w ∈ raw, PlainWord w) :
    ∃ argv, g.tokenize raw = .ok argv ∧
      ((∃ t, g.matchAlternative i ⟨.blank g.slotCount, argv⟩ = .ok true t ∧ t.argv.isExhausted = true) ↔
        es.length + leastKept kind ≤ raw.length ∧ ∀ (j : Nat) (leaf : Leaf), es[j]? = some (.command leaf) →
          ∃ w, raw[raw.length - es.length + j]? = some w ∧ leaf.names.contains w = true) ∧
      ∀ t, g.matchAlternative i ⟨.blank g.slotCount, argv⟩ = .ok true t →
        t.slots.get a.slot = .list (raw.take (raw.length - es.length)) ∧
          ∀ (j : Nat) (leaf : Leaf), es[j]? = some (.argument leaf) →
            ∃ w, raw[raw.length - es.length + j]? = some w ∧ t.slots.get leaf.slot = .text w := by
  have hnest : (Pattern.group kind [.argument a] false).Nest (0 < ·) := by
    cases kind with
    | optional => exact .optional (List.forall_mem_singleton.mpr .argument)
    | required => exact .required (List.forall_mem_singleton.mpr .argument) Nat.one_pos
  have h := ellipsis_of_usage hb hu hnest (List.cons_ne_nil _ _) hes
  have hpays : Ellipsis.Pays kind [.argument a] es raw ↔
      es.length + leastKept kind ≤ raw.length ∧ ∀ (j : Nat) (leaf : Leaf), es[j]? = some (.command leaf) →
        ∃ w, raw[raw.length - es.length + j]? = some w ∧ leaf.names.contains w = true := by
    rw [Ellipsis.Pays, slots_argument, List.length_singleton, canLend_one]
    exact and_congr_right fun hle => fitAll_iff hplain (by omega)
  obtain ⟨argv, htokenize, hmatches, hpaid⟩ :=
    matchAlternative_words h hu hplain (.inl (Nat.one_dvd _))
  refine ⟨argv, htokenize, hmatches.trans hpays, fun t hm => ?_⟩
  obtain ⟨hpaid, hlenders, hborrowers⟩ := hpaid t hm
  have hle := (hpays.mp hpaid).1
  constructor
  · rw [hlenders 0 a.slot rfl]
    exact congrArg Slot.list (Lending.column_one _)
  · intro j leaf hj
    obtain ⟨hlt, -⟩ := List.getElem?_eq_some_iff.mp hj
    have hw : raw[raw.length - es.length + j]? = some _ := List.getElem?_eq_getElem (by omega)
    exact ⟨_, hw, hborrowers j _ _ hj hw⟩

/-- In `<a>... go <b>`, the words `1 2 go 3` are shared out. -/
theorem words_are_shared_out : ∃ g argv t, compile {} "Usage: prog <a>... go <b>" = .ok g ∧
    g.tokenize ["1", "2", "go", "3"] = .ok argv ∧
    g.matchAlternative 0 ⟨.blank g.slotCount, argv⟩ = .ok true t ∧
    t.slots.get 0 = .list ["1", "2"] ∧ t.slots.get 2 = .text "3" := by
  obtain ⟨g, hg, hu⟩ : ∃ g, compile {} "Usage: prog <a>... go <b>" = .ok g ∧
      g.usages[0]? = some (.required (.group .required [.argument ⟨.singleton "<a>", 0⟩] true ::
        [Positional.command ⟨.singleton "go", 1⟩, .argument ⟨.singleton "<b>", 2⟩].map (·.pattern))) := by
    decide +kernel
  obtain ⟨_, _, _, hb, -⟩ := build_of_compile hg
  have hplain : ∀ w ∈ ["1", "2", "go", "3"], PlainWord w := by
    unfold PlainWord
    decide +kernel
  obtain ⟨argv, ht, hmatches, hholds⟩ := repeating_argument_lends hb hu (by decide) hplain
  have hgo (j : Nat) (leaf : Leaf) (hj : ([.command ⟨.singleton "go", 1⟩,
      .argument ⟨.singleton "<b>", 2⟩] : List Positional)[j]? = some (.command leaf)) :
      ∃ w, (["1", "2", "go", "3"] : List String)[4 - 2 + j]? = some w ∧ leaf.names.contains w = true := by
    match j with
    | 0 =>
      cases hj
      exact ⟨"go", rfl, by decide +kernel⟩
    | 1 | _ + 2 => cases hj
  obtain ⟨t, hm, -⟩ := hmatches.mpr ⟨by decide, hgo⟩
  obtain ⟨ha, hbs⟩ := hholds t hm
  obtain ⟨w, hw, hget⟩ := hbs 1 ⟨.singleton "<b>", 2⟩ rfl
  obtain rfl := Option.some.inj hw
  exact ⟨g, argv, t, hg, ht, hm, ha, hget⟩

end Grammar

end Synopsis
