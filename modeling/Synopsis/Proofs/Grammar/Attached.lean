import Synopsis.Proofs.Argv.Arguments
import Synopsis.Proofs.Grammar.Given
import Synopsis.Proofs.Grammar.Parallel
import Synopsis.Proofs.Matcher.Attested
import Synopsis.Proofs.Outcomes

/-! # Attached and separate values

The value of an option can be attached to its name or follow as an argument of its own.
For an option of a single argument, the result is the same.
-/

namespace Synopsis

open Pattern (Reaches)

/-! ## Reserved arguments -/

namespace OptionTable

variable {wanted : Option Nat} {entries : List (String × Option Nat)} {t : OptionTable}
  {name key arg arg' text v : String} {o : OptionAtom} {style : OptionStyle} {n : Nat}

theorem lookup_insertName (h : ((insertName wanted entries name).lookup key).join = some n) :
    (entries.lookup key).join = some n ∨ key = name ∧ wanted = some n := by
  unfold insertName at h
  split at h
  next =>
    rw [lookup_map entries key fun known n => if known == name then n.or wanted else n] at h
    cases hl : entries.lookup key with
    | none => simp [hl] at h
    | some old =>
      rw [hl, Option.map_some, Option.join_some] at h
      split at h
      next hk =>
        cases old with
        | none => exact .inr ⟨eq_of_beq hk, h⟩
        | some m => exact .inl h
      next => exact .inl h
  next =>
    rw [List.lookup_append] at h
    cases hl : entries.lookup key with
    | some old => exact .inl (by simpa [hl] using h)
    | none =>
      simp only [hl, Option.none_or, List.lookup_cons, List.lookup_nil] at h
      split at h
      next hk => exact .inr ⟨eq_of_beq hk, h⟩
      next => cases h

/-- A name reserves what one of its options reserves. -/
theorem exists_of_valueCount? {os : List OptionAtom} (h : (ofList os).valueCount? key = some n) :
    ∃ o ∈ os, key ∈ o.names.toList ∧ reserved o = some n := by
  have hinsert {t : OptionTable} {o : OptionAtom} (h : (t.insert o).valueCount? key = some n) :
      t.valueCount? key = some n ∨ key ∈ o.names.toList ∧ reserved o = some n := by
    have hnames (names : List String) (entries : List (String × Option Nat))
        (h : ((names.foldl (insertName (reserved o)) entries).lookup key).join = some n) :
        (entries.lookup key).join = some n ∨ key ∈ names ∧ reserved o = some n := by
      induction names generalizing entries with
      | nil => exact .inl h
      | cons name names ih =>
        rcases ih _ h with h | ⟨hmem, h⟩
        · exact (lookup_insertName h).imp_right (And.imp_left fun he : key = name => he ▸ List.mem_cons_self)
        · exact .inr ⟨List.mem_cons_of_mem _ hmem, h⟩
    exact hnames _ _ h
  suffices hall : ∀ t : OptionTable, (os.foldl insert t).valueCount? key = some n →
      t.valueCount? key = some n ∨ ∃ o ∈ os, key ∈ o.names.toList ∧ reserved o = some n from
    (hall {} h).resolve_left (by simp [valueCount?])
  clear h
  induction os with
  | nil => exact fun _ => .inl
  | cons o os ih =>
    intro t h
    rcases ih _ h with h | ⟨p, hp, hkey, h⟩
    · exact (hinsert h).imp_right fun hkey => ⟨o, List.mem_cons_self, hkey⟩
    · exact .inr ⟨p, List.mem_cons_of_mem _ hp, hkey, h⟩

theorem resolve_congr (h : t.resolve name arg = .ok key) : t.resolve name arg' = .ok key := by
  unfold resolve at h ⊢
  split at h
  next hc => rw [if_pos hc, h]
  next hc =>
    rw [if_neg hc]
    split at h
    next => exact h
    next => cases h
    next => cases h

/-- A long option, as a flag that wants a value, and with its value attached. -/
theorem normalize_long (harg : arg.startsWith "--" = true) (hname : '=' ∉ name.toList)
    (hcount : t.valueCount? name = some 1) (h : t.normalize style arg = .ok (name, n)) :
    arg.toList <+: name.toList ∧ n = 1 ∧
      t.normalize style (arg ++ "=" ++ v) = .ok (name ++ "=" ++ v, 0) := by
  have hwhole : style.readsWhole arg = true := by rw [OptionStyle.readsWhole, harg, Bool.true_or]
  have hwhole' : style.readsWhole (arg ++ "=" ++ v) = true := by
    obtain ⟨cs, hcs⟩ := (Argv.startsWith_dashes_iff arg).mp harg
    rw [OptionStyle.readsWhole, (Argv.startsWith_dashes_iff _).mpr ⟨cs ++ '=' :: v.toList, by simp [hcs]⟩,
      Bool.true_or]
  unfold normalize at h
  rw [if_pos hwhole] at h
  split at h
  next given value hcut =>
    obtain ⟨known, -, h⟩ := Except.bind_eq_ok.mp h
    obtain ⟨rfl, -⟩ := Prod.mk.inj (Except.ok.inj h)
    exact absurd (by simp) hname
  next hcut =>
    obtain ⟨known, hknown, h⟩ := Except.bind_eq_ok.mp h
    obtain ⟨rfl, rfl⟩ := Prod.mk.inj (Except.ok.inj h)
    refine ⟨toList_prefix_of_resolve hknown, by rw [hcount]; rfl, ?_⟩
    have hnone : '=' ∉ arg.toList := fun hmem => hname ((toList_prefix_of_resolve hknown).subset hmem)
    have hknown' : t.resolve arg (arg ++ "=" ++ v) = .ok known := resolve_congr hknown
    rw [normalize, if_pos hwhole', Text.cutString?_append hnone]
    dsimp only
    rw [hknown']
    rfl

/-- A short option, as a flag that wants a value, and with its value attached. -/
theorem normalize_short {c : Char} (hstyle : style = ⟨true, true, true⟩) (hc : c ≠ '-')
    (harg : arg.toList = ['-', c]) (hcount : t.valueCount? arg = some 1) (hv : v ≠ "")
    (h : t.normalize style arg = .ok (name, n)) :
    name = arg ∧ n = 1 ∧ t.normalize style (arg ++ v) = .ok (arg ++ v, 0) := by
  subst hstyle
  have hshort {text : String} {cs : List Char} (ht : text.toList = '-' :: c :: cs) :
      OptionStyle.readsWhole ⟨true, true, true⟩ text = false := Argv.readsWhole_eq_false ht rfl hc
  have hargname : String.ofList ['-', c] = arg := by rw [← harg, String.ofList_toList]
  have hlist : (arg ++ v).toList = '-' :: c :: v.toList := by simp [harg]
  have hne : v.toList.isEmpty = false := by
    rw [List.isEmpty_eq_false_iff]
    exact fun he => hv (String.toList_inj.mp he)
  unfold normalize at h
  rw [hshort harg] at h
  simp only [Bool.false_eq_true, if_false, harg, List.drop_succ_cons, List.drop_zero, stackReserve, hargname,
    hcount, List.isEmpty_nil, if_true] at h
  obtain ⟨m, hm, h⟩ := Except.bind_eq_ok.mp h
  obtain ⟨rfl, rfl⟩ := Prod.mk.inj (Except.ok.inj h)
  split at hm
  next => cases hm
  next hknown =>
    obtain rfl := Except.ok.inj hm
    refine ⟨rfl, rfl, ?_⟩
    rw [normalize, hshort hlist]
    simp only [Bool.false_eq_true, if_false, hlist, List.drop_succ_cons, List.drop_zero, stackReserve,
      hargname, if_neg hknown, hcount, hne, if_true]
    rfl

end OptionTable

/-! ## Spellings -/

section Spellings

variable {style : OptionStyle} {name v : String}

theorem looksLikeOption_of_leads {text : String} (hd : name.startsWith "--" = true)
    (hl : looksLikeOption name = true) (ht : name.toList <+: text.toList) : looksLikeOption text = true := by
  obtain ⟨cs, hcs⟩ := (Argv.startsWith_dashes_iff name).mp hd
  obtain ⟨rest, hrest⟩ := ht
  rw [hcs] at hrest
  by_contra hno
  have hdashed : Dashed text := ⟨'-', cs ++ rest, hrest.symm⟩
  obtain rfl := hdashed.eq_of_not_looksLikeOption (Bool.not_eq_true _ ▸ hno)
  -- A name in front of `--` is `--` itself.
  have hnil : cs ++ rest = [] := by simpa using hrest
  have hname : name = "--" := String.toList_inj.mp (by simp [hcs, (List.append_eq_nil_iff.mp hnil).1])
  simp [hname, looksLikeOption] at hl

theorem attaches_long (hs : style.attached = true) (hd : name.startsWith "--" = true)
    (hl : looksLikeOption name = true) (hname : '=' ∉ name.toList) :
    Attaches style name v (name ++ "=" ++ v) := by
  have hleads : name.toList <+: (name ++ "=" ++ v).toList := ⟨'=' :: v.toList, by simp⟩
  have hd' : (name ++ "=" ++ v).startsWith "--" = true := by
    rw [String.startsWith_string_iff] at hd ⊢
    exact hd.trans hleads
  refine ⟨hs, hl, looksLikeOption_of_leads hd hl hleads, fun names => ?_, fun names => ?_⟩
  · simp [Argv.spelledBy?, OptionStyle.readsWhole, hd, Text.cutString?_eq_none hname]
  · simp [Argv.spelledBy?, OptionStyle.readsWhole, hd', Text.cutString?_append hname]

theorem attaches_short {c : Char} (hstyle : style = ⟨true, true, true⟩) (hc : c ≠ '-')
    (hname : name.toList = ['-', c]) (hv : v ≠ "") : Attaches style name v (name ++ v) := by
  subst hstyle
  have hlist : (name ++ v).toList = '-' :: c :: v.toList := by simp [hname]
  have hname' : String.ofList ['-', c] = name := by rw [← hname, String.ofList_toList]
  have hne : v.toList ≠ [] := fun he => hv (String.toList_inj.mp he)
  refine ⟨rfl, Argv.looksLikeOption_of_short hname hc, Argv.looksLikeOption_of_short hlist hc,
    fun names => ?_, fun names => ?_⟩
  · rw [Argv.spelledBy?_of_short hname (Argv.readsWhole_eq_false hname rfl hc), hname', if_pos rfl]
  · rw [Argv.spelledBy?_of_short hlist (Argv.readsWhole_eq_false hlist rfl hc), hname', if_neg hne,
      String.ofList_toList]

end Spellings

/-! ## Grammars -/

namespace Grammar

variable {g : Grammar} {config : Config} {doc name v arg : String} {o : OptionAtom}
  {before after : List String} {argv : Argv}

/-- Declared options without options in their values do not lead back to a shortcut. -/
theorem housed_of_compile (hg : compile config doc = .ok g)
    (hfree : ∀ o ∈ g.options, ∀ w, o.value = some w → w.OptionFree) : Housed g.scope g.leaves where
  grounded e he q hq := by
    obtain ⟨o, a, rfl⟩ := (coherent_of_compile hg).registry.entry e he
    cases hq with
    | refl => rfl
    | child hc hq =>
      rw [List.mem_singleton.mp hc] at hq
      cases hq with
      | refl => rfl
      | value hw hq =>
        have ho : o ∈ g.options := mem_options_of_registry (List.mem_filterMap.mpr ⟨_, he, rfl⟩)
        cases q with
        | shortcut sc => exact absurd rfl (((hfree o ho _ hw).of_reaches hq).2 sc)
        | option | command | argument | group | either => rfl
  nodup := nodup_slots_leaves (distinct_of_compile hg)
  declared _ he := mem_leaves_of_entry he
  values o w ho := hfree o ((coherent_of_compile hg).option_mem_leaves_iff.mp ho) w

theorem reserved_of_takesOne (h : o.TakesOne) : OptionTable.reserved o = some 1 := by
  obtain ⟨w, leaf, hw, hsole⟩ := h
  simp only [OptionTable.reserved, hw, Option.map_some, hsole.arity_eq]
  rfl

/-- All mentions of an option of a single argument reserve one argument. -/
theorem valueCount?_of_takesOne (hg : compile config doc = .ok g) (ho : o ∈ g.options) (hone : o.TakesOne)
    (hname : name ∈ o.names.toList) : g.table.valueCount? name = some 1 := by
  obtain ⟨source, registry, usages, hb, -⟩ := build_of_compile hg
  rw [show g.table = .ofList g.options from (eq_of_build hb).2.2.2.2.2]
  have htakes : (OptionTable.ofList g.options).takes name = true := by
    obtain ⟨w, leaf, hw, -⟩ := hone
    exact OptionTable.takes_ofList.mpr ⟨o, ho, hname, by simp [OptionOf.takesValue, hw]⟩
  obtain ⟨n, hn⟩ := Option.isSome_iff_exists.mp htakes
  obtain ⟨p, hp, hname', hreserved⟩ := OptionTable.exists_of_valueCount? hn
  have hagree := (coherent_of_compile hg).agree o ho p hp name hname hname'
  rw [reserved_of_takesOne (hone.of_agree hagree)] at hreserved
  rw [hn, hreserved]

/-- Arguments that are tokenized alike but for the two spellings have the same result, or none. -/
theorem matchArgs_toOption_eq {joined : String} {front : List Token} {raw raw' : List String}
    {rest : Except MatchError (List Token)} (hg : compile config doc = .ok g)
    (hfree : ∀ o ∈ g.options, ∀ w, o.value = some w → w.OptionFree)
    (ho : o ∈ g.options) (hone : o.TakesOne) (hname : name ∈ o.names.toList)
    (ha : Attaches g.config.style name v joined) (hfront : ∀ x ∈ front, x.isDoubleDash = false)
    (hr : tokensOf g.table g.config 0 raw =
      rest.map fun ts => front ++ ([⟨name, .flag⟩, ⟨v, .value⟩] ++ ts))
    (hr' : tokensOf g.table g.config 0 raw' = rest.map fun ts => front ++ ([⟨joined, .flag⟩] ++ ts)) :
    (g.matchArgs raw').toOption = (g.matchArgs raw).toOption := by
  have hL := housed_of_compile hg hfree
  unfold matchArgs tokenize Argv.tokenize
  rw [hr, hr']
  cases rest with
  | error e => rfl
  | ok ts =>
    have hfirst : FlagsFirst (AttachedPart name v joined) := by
      rintro _ _ ⟨⟩
      exact ⟨_, _, _, _, rfl, rfl, ⟨rfl, ha.looks⟩, ⟨rfl, ha.looks_joined⟩⟩
    have hones : ∀ p, .option p ∈ g.leaves → name ∈ p.names.toList →
        ∃ w leaf, p.value = some w ∧ SoleArgument w leaf := fun p hp hname' =>
      have hc := coherent_of_compile hg
      hone.of_agree (hc.agree o ho p (hc.option_mem_leaves_iff.mp hp) name hname hname')
    refine matchFrom_parallel (σ := g.config.style) (Replaced.akin hfirst)
      (Attested.blank g.leaves g.slotCount) hL.grounded
      (fun u hu _ => hL.follows ha hones (mem_leaves_of_usage hu)) ?_ g.usages 0 _ _
    exact ⟨.part .intro hfront, rfl, rfl, rfl, rfl, rfl⟩

/-- The value of an option of a single argument can be attached to a long name behind a `=`, to a
short name as it is, or it can follow the name: the result is the same, or there is none. -/
theorem matchArgs_attached_eq_separate (hg : compile config doc = .ok g)
    (hstyle : config.style = ⟨true, true, true⟩)
    (hfree : ∀ o ∈ g.options, ∀ w, o.value = some w → w.OptionFree)
    (ho : o ∈ g.options) (hone : o.TakesOne) (hname : name ∈ o.names.toList)
    (ht : g.tokenize (before ++ [arg]) = .ok argv)
    (hflag : argv.tokens.getLast? = some ⟨name, .flag⟩) (hv : v ≠ "--") :
    (name.startsWith "--" = true →
      (g.matchArgs (before ++ (arg ++ "=" ++ v) :: after)).toOption =
        (g.matchArgs (before ++ arg :: v :: after)).toOption) ∧
    (name.length = 2 → v ≠ "" →
      (g.matchArgs (before ++ (arg ++ v) :: after)).toOption =
        (g.matchArgs (before ++ arg :: v :: after)).toOption) := by
  obtain ⟨source, registry, usages, hb, -⟩ := build_of_compile hg
  have hstyle' : g.config.style = ⟨true, true, true⟩ := by rw [(eq_of_build hb).1, hstyle]
  have hcount := valueCount?_of_takesOne hg ho hone hname
  have hmark := ((coherent_of_compile hg).optionName o ho name hname).unassigned
  obtain ⟨ts, hts, hargv⟩ := Except.bind_eq_ok.mp ht
  obtain rfl := Except.ok.inj hargv
  obtain ⟨hlooks, ⟨n, hn⟩, front, hfront, hrest⟩ := exists_front_of_tokensOf hts hflag
  -- The flag wants one value, and gets it.
  have hseparate (h : n = 1) : tokensOf g.table g.config 0 (before ++ arg :: v :: after) =
      (tokensOf g.table g.config 0 after).map fun ts =>
        front ++ ([⟨name, .flag⟩, ⟨v, .value⟩] ++ ts) := by
    rw [hrest, tokensOf_flag hlooks hn, h, tokensOf_value hv]
    cases tokensOf g.table g.config 0 after <;> rfl
  have hattached {arg' joined : String} (hl : looksLikeOption arg' = true)
      (hn : g.table.normalize g.config.style arg' = .ok (joined, 0)) :
      tokensOf g.table g.config 0 (before ++ arg' :: after) =
        (tokensOf g.table g.config 0 after).map fun ts => front ++ ([⟨joined, .flag⟩] ++ ts) := by
    rw [hrest, tokensOf_flag hl hn]
    cases tokensOf g.table g.config 0 after <;> rfl
  -- Names are given in full, but for long options.
  have hwritten (harg : ¬ arg.startsWith "--" = true) : name = arg := by
    rw [OptionTable.normalize, hstyle', if_neg (by simp [OptionStyle.readsWhole, harg])] at hn
    obtain ⟨_, -, hn⟩ := Except.bind_eq_ok.mp hn
    exact (Prod.mk.inj (Except.ok.inj hn)).1.symm
  constructor
  · intro hlong
    have harg : arg.startsWith "--" = true := by_contra fun harg => harg (hwritten harg ▸ hlong)
    obtain ⟨hleads, hwanted, hn'⟩ := OptionTable.normalize_long harg hmark hcount hn (v := v)
    have hlooks' : looksLikeOption (arg ++ "=" ++ v) = true :=
      looksLikeOption_of_leads harg hlooks ⟨'=' :: v.toList, by simp⟩
    have ha : Attaches g.config.style name v (name ++ "=" ++ v) :=
      attaches_long (by rw [hstyle']) hlong (looksLikeOption_of_leads harg hlooks hleads) hmark
    exact matchArgs_toOption_eq hg hfree ho hone hname ha hfront (hseparate hwanted)
      (hattached hlooks' hn')
  · intro hshort hne
    obtain ⟨c, cs, hlist⟩ := dashed_of_looksLikeOption hlooks
    have harg : ¬ arg.startsWith "--" = true := by
      intro harg
      obtain ⟨hleads, -⟩ := OptionTable.normalize_long harg hmark hcount hn (v := v)
      have hlooks' := looksLikeOption_of_leads harg hlooks hleads
      rw [String.startsWith_string_iff] at harg
      obtain ⟨ds, hds⟩ := (Argv.startsWith_dashes_iff name).mp
        (String.startsWith_string_iff.mpr (harg.trans hleads))
      have hnil : ds = [] := by
        rw [← String.length_toList, hds] at hshort
        simpa using hshort
      have hdashes : name = "--" := String.toList_inj.mp (by simp [hds, hnil])
      simp [hdashes, looksLikeOption] at hlooks'
    obtain rfl := hwritten harg
    have hnil : cs = [] := by
      rw [← String.length_toList, hlist] at hshort
      simpa using hshort
    subst hnil
    have hc : c ≠ '-' := by
      rintro rfl
      exact harg ((Argv.startsWith_dashes_iff name).mpr ⟨[], hlist⟩)
    obtain ⟨-, hwanted, hn'⟩ := OptionTable.normalize_short hstyle' hc hlist hcount hne hn
    have ha := attaches_short hstyle' hc hlist hne
    exact matchArgs_toOption_eq hg hfree ho hone hname ha hfront (hseparate hwanted)
      (hattached ha.looks_joined hn')

theorem spelled_usage : ∃ g a b x y long short m, compile {} "Usage: prog [-n<x>] [--long=<y>]" = .ok g ∧
    g.options = [a, b] ∧ a.names = .singleton "-n" ∧ b.names = .singleton "--long" ∧
    a.value = some (.required [.argument x]) ∧ b.value = some (.required [.argument y]) ∧
    g.tokenize ([] ++ ["--lo"]) = .ok long ∧ long.tokens.getLast? = some ⟨"--long", .flag⟩ ∧
    g.tokenize (["--lo", "1"] ++ ["-n"]) = .ok short ∧ short.tokens.getLast? = some ⟨"-n", .flag⟩ ∧
    g.matchArgs ["--lo", "1", "-n", "2"] = .ok m := by
  obtain ⟨g, hg, hoptions, ⟨long, hl, hlong⟩, ⟨short, hs, hshort⟩, m, hm, -⟩ :
      ∃ g, compile {} "Usage: prog [-n<x>] [--long=<y>]" = .ok g ∧
        g.options = [⟨.singleton "-n", some (.required [.argument ⟨.singleton "<x>", 1⟩]), none, 0⟩,
          ⟨.singleton "--long", some (.required [.argument ⟨.singleton "<y>", 3⟩]), none, 2⟩] ∧
        (∃ long, g.tokenize ([] ++ ["--lo"]) = .ok long ∧
          long.tokens.getLast? = some ⟨"--long", .flag⟩) ∧
        (∃ short, g.tokenize (["--lo", "1"] ++ ["-n"]) = .ok short ∧
          short.tokens.getLast? = some ⟨"-n", .flag⟩) ∧
        ∃ m, g.matchArgs ["--lo", "1", "-n", "2"] = .ok m ∧ True := by decide +kernel
  exact ⟨g, _, _, _, _, long, short, m, hg, hoptions, rfl, rfl, rfl, rfl, hl, hlong, hs, hshort, hm⟩

/-- A long option, abbreviated, and a short one. -/
theorem attached_values_match : ∃ g m, compile {} "Usage: prog [-n<x>] [--long=<y>]" = .ok g ∧
    g.matchArgs ["--lo", "1", "-n", "2"] = .ok m ∧
    (g.matchArgs ["--lo=1", "-n", "2"]).toOption = some m ∧
    (g.matchArgs ["--lo", "1", "-n2"]).toOption = some m := by
  obtain ⟨g, a, b, x, y, long, short, m, hg, hoptions, ha, hb, hx, hy, hl, hlong, hs, hshort, hm⟩ := spelled_usage
  have hfree : ∀ o ∈ g.options, ∀ w, o.value = some w → w.OptionFree := by
    simp [hoptions, hx, hy, Pattern.OptionFree, Pattern.options, Pattern.shortcuts, Pattern.required,
      Pattern.leaves, Pattern.option?, Pattern.shortcut?]
  have hattached : (g.matchArgs ([] ++ ("--lo" ++ "=" ++ "1") :: ["-n", "2"])).toOption =
      (g.matchArgs ([] ++ "--lo" :: "1" :: ["-n", "2"])).toOption :=
    (matchArgs_attached_eq_separate hg rfl hfree (o := b) (by simp [hoptions])
      ⟨_, y, hy, .group .argument⟩ (by simp [hb]) hl hlong (by decide)).1
      ((Argv.startsWith_dashes_iff _).mpr ⟨"long".toList, by simp⟩)
  have hattached' : (g.matchArgs (["--lo", "1"] ++ ("-n" ++ "2") :: [])).toOption =
      (g.matchArgs (["--lo", "1"] ++ "-n" :: "2" :: [])).toOption :=
    (matchArgs_attached_eq_separate hg rfl hfree (o := a) (by simp [hoptions])
      ⟨_, x, hx, .group .argument⟩ (by simp [ha]) hs hshort (by decide)).2 (by decide) (by decide)
  have hm' : (g.matchArgs ["--lo", "1", "-n", "2"]).toOption = some m := by rw [hm]; rfl
  exact ⟨g, m, hg, hm, hattached.trans hm', hattached'.trans hm'⟩

end Grammar

end Synopsis
