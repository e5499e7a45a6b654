import Synopsis.Proofs.Grammar.Conservation
import Synopsis.Proofs.Grammar.Dashes
import Synopsis.Proofs.Grammar.Frame
import Synopsis.Proofs.Matcher.Ranges

/-! # What a match works with is there

Wherever the match of a usage has come to, flags can be cut where they are read, an option is
found inside of its stream, and no number grows beyond what the arguments can make it.
-/

namespace Synopsis

namespace Grammar

variable {g : Grammar} {config : Config} {source : SourceText} {registry : Registry}
  {usages : List Pattern} {raw : List String} {argv : Argv} {i limit words words' budget : Nat}
  {s : Slots} {c : Call}

/-- Options were hit fewer times than the limit, and commands were met no more often than there
are words. -/
structure Counted (g : Grammar) (limit words : Nat) (s : Slots) : Prop where
  option {o : OptionAtom} {n : Nat} (ho : .option o ∈ g.atoms) (hn : s.get o.slot = .count n) :
    n < limit
  command {leaf : Leaf} {n : Nat} (hl : .command leaf ∈ g.atoms) (hn : s.get leaf.slot = .count n) :
    n ≤ words

/-- What a call cuts, looks up and counts stays in range, also when it hits its option and when
it has come to an answer. -/
structure InRange (g : Grammar) (limit words : Nat) (c : Call) : Prop where
  flags : ∀ t ∈ c.state.argv.tokens, t.kind = .flag → Cuttable t.text
  found {names : Names} {found : Argv.Found} {a : Argv}
    (hf : c.state.argv.takeOption? names = some (found, a)) :
    found.index < c.state.argv.tokens.length ∧ a.tokens.length + 1 = c.state.argv.tokens.length
  counted : g.Counted limit words c.state.slots
  hit {o : OptionAtom} {found : Argv.Found} {a : Argv} (ho : c.pattern = .option o)
    (hf : c.state.argv.takeOption? o.names = some (found, a)) :
    g.Counted limit words (c.state.slots.modify o.slot (Slot.hit c.counting))
  answer {b : Bool} {t : Attempt} (ha : c.answer g.scope = .ok b t) : g.Counted limit words t.slots

theorem counted_of_total (hhits : ∀ names, (Tally.hits names).total g.atoms s < limit)
    (hwords : Tally.words.total g.atoms s ≤ words) : g.Counted limit words s where
  option {o n} ho hn := by
    have hyield := (Tally.hits o.names).yield_le_total ho (i := o.slot) rfl s
    rw [Tally.hits_yield, Pattern.hits, if_pos rfl, hn] at hyield
    exact Nat.lt_of_le_of_lt hyield (hhits o.names)
  command {leaf n} hl hn := by
    have hyield := Tally.words.yield_le_total hl (i := leaf.slot) rfl s
    rw [Tally.words_command, hn] at hyield
    exact hyield.trans hwords

/-- A match that begins within its budget keeps to it. -/
theorem solvent_of_comesTo {T : Tally Nat} {F : Tariff T}
    (hb : build config source registry usages = .ok g) (ht : g.tokenize raw = .ok argv)
    (hworth : F.worth argv.style argv.tokens ≤ budget)
    (hc : g.ComesTo i ⟨.blank g.slotCount, argv⟩ c) : c.Solvent F g.atoms g.scope budget := by
  obtain ⟨start, hstart, hl⟩ := hc
  obtain ⟨usage, hu, rfl⟩ := Option.map_eq_some_iff.mp hstart
  refine Call.Solvent.leadsTo (nodup_atoms (distinct_of_build hb)) ⟨tokenized_of_tokenize ht, ?_, ?_⟩ hl
  · intro q hq j hj
    exact List.mem_flatMap.mpr (owns_of_reaches (List.mem_of_getElem? hu) hq j hj)
  · rwa [Tariff.holdings, Tally.total_blank, Nat.zero_add]

theorem worth_of_tokenize (ht : g.tokenize raw = .ok argv) (names : Names) :
    (Tariff.letters names).worth argv.style argv.tokens ≤ optionCharacters raw ∧
      Tariff.words.worth argv.style argv.tokens ≤ raw.length := by
  obtain ⟨ts, hts, ht⟩ := Except.bind_eq_ok.mp ht
  obtain rfl := Except.ok.inj ht
  exact ⟨letters_of_tokensOf hts, words_of_tokensOf hts⟩

theorem inRange_of_comesTo (hb : build config source registry usages = .ok g)
    (hraw : optionCharacters raw < limit) (ht : g.tokenize raw = .ok argv)
    (hc : g.ComesTo i ⟨.blank g.slotCount, argv⟩ c) : g.InRange limit raw.length c := by
  have hall := nodup_atoms (distinct_of_build hb)
  have hhits (names : Names) : c.Solvent (.letters names) g.atoms g.scope (optionCharacters raw) :=
    solvent_of_comesTo hb ht (worth_of_tokenize ht names).1 hc
  have hwords : c.Solvent .words g.atoms g.scope raw.length :=
    solvent_of_comesTo hb ht (worth_of_tokenize ht .empty).2 hc
  refine ⟨fun t htoken hk => (hwords.tokenized.flags t htoken hk).cuttable,
    Argv.index_lt_of_takeOption?, ?_, fun ho hf => ?_, fun ha => ?_⟩
  · refine counted_of_total (fun names => Nat.lt_of_le_of_lt ?_ hraw) ?_
    · exact (Nat.le_add_right _ _).trans (hhits names).within
    · exact (Nat.le_add_right _ _).trans hwords.within
  · exact counted_of_total (fun names => Nat.lt_of_le_of_lt ((hhits names).total_hit hall ho hf) hraw)
      (hwords.total_hit hall ho hf)
  · exact counted_of_total (fun names => Nat.lt_of_le_of_lt ((hhits names).total_answer hall ha) hraw)
      (hwords.total_answer hall ha)

theorem InRange.mono (h : g.InRange limit words c) (hw : words ≤ words') :
    g.InRange limit words' c := by
  have counted {s : Slots} (hs : g.Counted limit words s) : g.Counted limit words' s :=
    ⟨hs.option, fun hl hn => (hs.command hl hn).trans hw⟩
  exact ⟨h.flags, h.found, counted h.counted, fun ho hf => counted (h.hit ho hf),
    fun ha => counted (h.answer ha)⟩

/-- Texts are cut behind whole characters only, options are found inside of their streams, and a
loan has lenders. With fewer than `2 ^ 32` characters of options no option is hit `2 ^ 32` times. A
command is met at most once for each argument, so that its count stays below `2 ^ 32` with fewer
arguments than that. The match comes to an answer. -/
theorem match_stays_in_range (hb : build config source registry usages = .ok g)
    (hv : g.registry.BareValues) (hraw : optionCharacters raw < 2 ^ 32) (i : Nat) :
    (∀ arg ∈ raw, looksLikeOption arg = true → Cuttable arg) ∧
    (∀ slots line loan, Lending.loan? slots line = some loan → loan.lenders.length ≠ 0) ∧
    g.matchArgs raw ≠ .error .outOfFuel ∧ ∀ argv, g.tokenize raw = .ok argv →
      (∀ t, g.matchAlternative i ⟨.blank g.slotCount, argv⟩ ≠ .error .outOfFuel t) ∧
      ∀ c, g.ComesTo i ⟨.blank g.slotCount, argv⟩ c → g.InRange (2 ^ 32) raw.length c ∧
        (raw.length < 2 ^ 32 → g.InRange (2 ^ 32) (2 ^ 32 - 1) c) := by
  have hfinite : g.Finite := fun u _ => Scope.finite_of_bareValues hv u
  refine ⟨fun arg _ hlooks => (dashed_of_looksLikeOption hlooks).cuttable, ?_,
    matchArgs_ne_outOfFuel hfinite raw, ?_⟩
  · intro slots line loan hloan
    obtain ⟨before, children, rest, hsplit⟩ := Lending.splits_of_loan? hloan
    exact fun hzero => hsplit.lenders_ne (List.length_eq_zero_iff.mp hzero)
  · intro argv ht
    constructor
    · intro t he
      exact (matchAlternative_ends hfinite).of_error he rfl
    · intro c hc
      have hrange := inRange_of_comesTo hb hraw ht hc
      exact ⟨hrange, fun hlength => hrange.mono (Nat.le_sub_one_of_lt hlength)⟩

/-- The flag `-éé` can be cut behind its first three bytes, and its two hits are counted. -/
theorem accented_flags_stay_in_range : ∃ g argv start t,
    build {} {} {} [.required [.group .optional [.option ⟨.singleton "-é", none, none, 0⟩] true]] =
      .ok g ∧
    g.tokenize ["-éé"] = .ok argv ∧ argv.tokens = [⟨"-éé", .flag⟩] ∧
      g.call? 0 ⟨.blank g.slotCount, argv⟩ = some start ∧ start.answer g.scope = .ok true t ∧
      t.slots.get 0 = .count 2 ∧ Cuttable "-éé" ∧ g.InRange (2 ^ 32) 1 start ∧
      g.Counted (2 ^ 32) 1 t.slots := by
  obtain ⟨g, hg, hoptions, argv, ht, htokens, start, hs, hstate, t, ha, hcount⟩ :
      ∃ g, build {} {} {}
          [.required [.group .optional [.option ⟨.singleton "-é", none, none, 0⟩] true]] = .ok g ∧
        g.registry.options = [] ∧ ∃ argv, g.tokenize ["-éé"] = .ok argv ∧
          argv.tokens = [⟨"-éé", .flag⟩] ∧ ∃ start,
            g.call? 0 ⟨.blank g.slotCount, argv⟩ = some start ∧
              start.state.argv.tokens = argv.tokens ∧
              ∃ t, start.answer g.scope = .ok true t ∧ t.slots.get 0 = .count 2 := by
    decide +kernel
  have hvalues : g.registry.BareValues := by
    unfold Registry.BareValues
    rw [hoptions]
    exact nofun
  have hraw : optionCharacters ["-éé"] < 2 ^ 32 := by decide +kernel
  obtain ⟨-, -, -, hrange⟩ := match_stays_in_range hg hvalues hraw 0
  obtain ⟨hstart, -⟩ := (hrange argv ht).2 start ⟨start, hs, .refl⟩
  have hflag := hstart.flags ⟨"-éé", .flag⟩ (by simp [hstate, htokens]) rfl
  exact ⟨g, argv, start, t, hg, ht, htokens, hs, ha, hcount, hflag, hstart, hstart.answer ha⟩

end Grammar

end Synopsis
