import Synopsis.Proofs.Argv.Arguments
import Synopsis.Proofs.Grammar.Abbreviations
import Synopsis.Proofs.Grammar.Ahead
import Synopsis.Proofs.Grammar.Attached
import Synopsis.Proofs.Grammar.Termination
import Synopsis.Proofs.Matcher.Supply

/-! # Stacked and separate flags

Flags in one argument, and the same flags in an argument each. The results are the same
where a usage can only take the first flag of the stack, however often it is repeated, and
where it has options that do not repeat in front of its commands and arguments.
-/

namespace Synopsis

open Pattern (Reaches Distinct)

/-! ## Tokens -/

variable {t : OptionTable} {c : Config} {cs : List Char} {name token : String} {wanted n : Nat}

namespace OptionTable

variable {style : OptionStyle}

/-- A stack of flags reserves nothing, and all of them are known. -/
theorem stackReserve_flags (hcombined : style.combined = true)
    (hcs : ∀ d ∈ cs, t.valueCount? (stackOf [d]).text = none)
    (h : t.stackReserve style token wanted cs = .ok n) :
    n = wanted ∧ ∀ d ∈ cs, t.contains (stackOf [d]).text = true := by
  induction cs with
  | nil => exact ⟨(Except.ok.inj h).symm, nofun⟩
  | cons d ds ih =>
    obtain ⟨hd, hds⟩ := List.forall_mem_cons.mp hcs
    have hd' : t.valueCount? (String.ofList ['-', d]) = none := hd
    simp only [stackReserve, hd', hcombined, Bool.not_true, Bool.or_false] at h
    split at h
    next => cases h
    next hknown =>
      have hknown' : t.contains (stackOf [d]).text = true := by simpa [stackOf] using hknown
      split at h
      next hnil =>
        obtain rfl := List.isEmpty_iff.mp hnil
        exact ⟨(Except.ok.inj h).symm, List.forall_mem_singleton.mpr hknown'⟩
      next =>
        obtain ⟨hn, hall⟩ := ih hds h
        exact ⟨hn, List.forall_mem_cons.mpr ⟨hknown', hall⟩⟩

theorem normalize_stack {d : Char} (hs : style.standard = true) (hcombined : style.combined = true)
    (hd : d ≠ '-') (hcs : ∀ e ∈ d :: cs, t.valueCount? (stackOf [e]).text = none)
    (h : t.normalize style (stackOf (d :: cs)).text = .ok (name, n)) :
    n = 0 ∧ ∀ e ∈ d :: cs, t.contains (stackOf [e]).text = true := by
  rw [normalize, Argv.readsWhole_eq_false (toList_stackOf _) hs hd] at h
  simp only [Bool.false_eq_true, if_false, toList_stackOf, List.drop_succ_cons, List.drop_zero] at h
  obtain ⟨m, hm, h⟩ := Except.bind_eq_ok.mp h
  obtain ⟨-, rfl⟩ := Prod.mk.inj (Except.ok.inj h)
  exact stackReserve_flags hcombined hcs hm

theorem normalize_flag {d : Char} (hs : style.standard = true) (hd : d ≠ '-')
    (hnone : t.valueCount? (stackOf [d]).text = none) (hknown : t.contains (stackOf [d]).text = true) :
    t.normalize style (stackOf [d]).text = .ok ((stackOf [d]).text, 0) := by
  have hknown' : t.contains (String.ofList ['-', d]) = true := hknown
  have hnone' : t.valueCount? (String.ofList ['-', d]) = none := hnone
  rw [normalize, Argv.readsWhole_eq_false (toList_stackOf _) hs hd]
  simp only [Bool.false_eq_true, if_false, toList_stackOf, List.drop_succ_cons, List.drop_zero,
    stackReserve, hknown', hnone', Bool.not_true, List.isEmpty_nil, Bool.true_or, if_true]
  rfl

end OptionTable

theorem tokensOf_unstacked (hs : c.style.standard = true) (hcs : '-' ∉ cs)
    (hnone : ∀ d ∈ cs, t.valueCount? (stackOf [d]).text = none)
    (hknown : ∀ d ∈ cs, t.contains (stackOf [d]).text = true) (rest : List String) :
    tokensOf t c 0 ((unstacked cs).map (·.text) ++ rest) =
      (tokensOf t c 0 rest).map (unstacked cs ++ ·) := by
  induction cs with
  | nil => cases hrest : tokensOf t c 0 rest <;> simp [unstacked, hrest, Except.map]
  | cons d ds ih =>
    obtain ⟨hd, hds⟩ := List.forall_mem_cons.mp hnone
    obtain ⟨hk, hks⟩ := List.forall_mem_cons.mp hknown
    rw [List.mem_cons, not_or] at hcs
    have hlooks : looksLikeOption (stackOf [d]).text = true := (isOption_stackOf (Ne.symm hcs.1)).looks
    have hrest : tokensOf t c 0 ((unstacked (d :: ds)).map (·.text) ++ rest) =
        (tokensOf t c 0 ((unstacked ds).map (·.text) ++ rest)).map (stackOf [d] :: ·) :=
      tokensOf_flag hlooks (OptionTable.normalize_flag hs (Ne.symm hcs.1) hd hk) _
    rw [hrest, ih hcs.2 hds hks]
    cases tokensOf t c 0 rest <;> rfl

/-! ## Usages -/

/-- Options that do not repeat, in front of the commands and arguments of a usage. The names tell them
apart, and they take no value or a single argument, of which the table knows. -/
structure Pattern.Flat (scope : Scope) (table : OptionTable) (style : OptionStyle) (size : Nat)
    (os : List Pattern) (ps : List Positional) (u : Pattern) : Prop where
  eq : u = .required (os ++ ps.map (·.pattern))
  loose : ∀ c ∈ os, c.Loose scope
  distinct : Distinct scope [u]
  placed : ∀ i, u.Writes scope i → i < size
  apart : ∀ o p, Offers scope os o → Offers scope os p →
    ∀ name ∈ o.names.toList, name ∈ p.names.toList → o = p
  value : ∀ o, Offers scope os o → ∀ v ∈ o.value, ∃ leaf, SoleArgument v leaf
  attached : ∀ o, Offers scope os o → o.value.isSome = true → style.attached = true
  knows : table.Knows (Offers scope os)

namespace Pattern.Flat

variable {scope : Scope} {table : OptionTable} {style : OptionStyle} {size : Nat} {os : List Pattern}
  {ps : List Positional} {u : Pattern} {a b : Argv} {s : Attempt}
  (h : u.Flat scope table style size os ps)
include h

theorem offer : Offer (Offers scope os) := by
  have hd := h.distinct
  rw [h.eq] at hd
  exact Offers.offer h.value hd.children (fun c hc => List.mem_append_left _ hc) h.loose h.apart

theorem mixed {n : Nat} (hn : Suffices scope (n + 1) u) : Synopsis.Mixed scope n ps os := by
  have hd := h.distinct
  rw [h.eq] at hd hn
  have hline : Told scope (os ++ ps.map (·.pattern)) := by
    refine ⟨hd.children, fun c hc => ?_⟩
    rcases List.mem_append.mp hc with hc | hc
    · exact (h.loose c hc).isTold
    · obtain ⟨p, -, rfl⟩ := List.mem_map.mp hc
      cases p <;> exact .inl rfl
  exact
    { told := hline.perm List.perm_append_comm
      loose := h.loose
      suffices_positionals := fun p hp => hn _ (List.mem_append_right _ (List.mem_map_of_mem hp))
      suffices_options := fun c hc => hn c (List.mem_append_left _ hc) }

omit h in
theorem sound_blank {O : OptionAtom → Prop} (hs : a.style = style) (hc : Chained style O a.tokens) :
    Sound style a.autoDashes O ⟨.blank size, a⟩ where
  style := hs
  autoDashes := rfl
  chained := hc
  empty _ _ _ i _ _ := by rw [Slots.get_blank]; rfl

/-- The usage takes all of a stream if it takes all of one that asks for the same, and records the
same. -/
theorem accepts (hg : scope.Grounded) (ha : a.style = style) (hb : b.style = style)
    (hauto : b.autoDashes = a.autoDashes) (hca : Chained style (Offers scope os) a.tokens)
    (hcb : Chained style (Offers scope os) b.tokens)
    (hasks : ∀ rs ls, Asks style a.autoDashes (Offers scope os) a.tokens rs ls →
      Asks style a.autoDashes (Offers scope os) b.tokens rs ls) {t : Attempt}
    (hm : matchPattern scope (scope.fuel u a) false u ⟨.blank size, a⟩ = .ok true t)
    (hex : t.argv.isExhausted = true) :
    ∃ v, matchPattern scope (scope.fuel u b) false u ⟨.blank size, b⟩ = .ok true v ∧
      v.argv.isExhausted = true ∧ v.slots = t.slots := by
  have heq := h.eq
  subst heq
  have hlength := Grammar.length_of_matchPattern h.placed hm
  have deep (c : Argv) :
      let n := scope.fuel (.required (os ++ ps.map (·.pattern))) c - 1
      Synopsis.Mixed scope n ps os ∧ ∀ o ∈ os, (o.recorded? scope n).isSome := by
    have hn := suffices_fuel scope (.required (os ++ ps.map (·.pattern))) c
    have hrec := isSome_recorded?_fuel hg (.required (os ++ ps.map (·.pattern))) c
    rw [fuel_eq_succ] at hn hrec
    exact ⟨h.mixed hn, fun o ho => isSome_recorded?_of_mem (List.mem_append_left _ ho) hrec⟩
  have hsb : Sound style a.autoDashes (Offers scope os) ⟨.blank size, b⟩ := hauto ▸ sound_blank hb hcb
  rw [fuel_eq_succ] at hm
  obtain ⟨v, hv, hlevel⟩ := (deep a).1.matchPattern_supplied (deep b).1 h.offer h.attached
    (deep a).2 (deep b).2 (sound_blank ha hca) hsb (Slots.get_blank _) (Slots.get_blank _) hasks hm hex
  rw [← fuel_eq_succ] at hv
  refine ⟨v, hv, ?_, Slots.ext_get ?_ hlevel.get_eq⟩
  · rw [Argv.isExhausted, hlevel.tokens_eq, hlevel.autoDashes]
    exact hex
  · rw [Grammar.length_of_matchPattern h.placed hv, hlength]

end Pattern.Flat

/-! ## Results -/

namespace Grammar

variable {g : Grammar} {before after : List String} {argv : Argv}

/-- What a compiled grammar knows of such options, and the slots that it has for them. -/
theorem flat_of_compile {config : Config} {doc : String} {os : List Pattern} {ps : List Positional}
    {u : Pattern} (hg : compile config doc = .ok g) (hu : u ∈ g.usages)
    (heq : u = .required (os ++ ps.map (·.pattern)))
    (hloose : ∀ c ∈ os, c.Loose g.scope)
    (hapart : ∀ o p, Offers g.scope os o → Offers g.scope os p →
      ∀ name ∈ o.names.toList, name ∈ p.names.toList → o = p)
    (hvalue : ∀ o, Offers g.scope os o → ∀ v ∈ o.value, ∃ leaf, SoleArgument v leaf)
    (hattached : ∀ o, Offers g.scope os o → o.value.isSome = true → g.config.style.attached = true)
    (hflag : ∀ o, Offers g.scope os o → o.value = none →
      ∀ name ∈ o.names.toList, g.table.valueCount? name = none)
    (hdashes : g.table.contains "--" = false) :
    u.Flat g.scope g.table g.config.style g.slotCount os ps := by
  obtain ⟨source, registry, usages, hb, -⟩ := build_of_compile hg
  have hd := (distinct_of_compile hg).singleton hu
  refine ⟨heq, hloose, hd, fun i => lt_slotCount_of_writes hb hu, hapart, hvalue, hattached,
    fun o ho name hname => ?_, hdashes⟩
  cases hv : o.value with
  | none => exact hflag o ho hv name hname
  | some v =>
    obtain ⟨leaf, hsole⟩ := hvalue o ho v hv
    have hoptions : o ∈ g.options := by
      obtain ⟨c, hc, hreach⟩ := ho
      rw [← (coherent_of_compile hg).option_mem_leaves_iff]
      have hleaf := Offers.leaf_of_reaches hvalue (hloose c hc) (fun p hp => ⟨c, hc, hp⟩) hreach
      rcases hleaf.2 with h | ⟨e, he, h⟩
      · refine mem_leaves_of_usage hu _ ?_
        rw [heq, Pattern.required, Pattern.mem_leaves_group]
        exact ⟨c, List.mem_append_left _ hc, h⟩
      · exact mem_leaves_of_entry he _ h
    exact valueCount?_of_takesOne hg hoptions ⟨v, leaf, hv, hsole⟩ hname

section Flat

variable {os : List Pattern} {ps : List Positional} {u : Pattern} {i : Nat} {a b : Argv}
  {raw raw' : List String} (hg : g.scope.Grounded) (hs : g.config.style.standard = true)
  (hcombined : g.config.style.combined = true)
  (h : u.Flat g.scope g.table g.config.style g.slotCount os ps) (hu : g.usages[i]? = some u)
include hg hs hcombined h hu

theorem verdict?_of_flat (ha : g.tokenize raw = .ok a) (hb : g.tokenize raw' = .ok b)
    (hmarks : b.marks = a.marks)
    (hasks : ∀ rs ls, Asks g.config.style g.config.honorsDoubleDash (Offers g.scope os) a.tokens rs ls →
      Asks g.config.style g.config.honorsDoubleDash (Offers g.scope os) b.tokens rs ls) {v : Slots × Bool}
    (hv : verdict? (g.matchAlternative i ⟨.blank g.slotCount, a⟩) = some v) :
    verdict? (g.matchAlternative i ⟨.blank g.slotCount, b⟩) = some v := by
  have tokens {raw : List String} {a : Argv} (ha : g.tokenize raw = .ok a) :
      a.style = g.config.style ∧ a.autoDashes = g.config.honorsDoubleDash ∧
        Chained g.config.style (Offers g.scope os) a.tokens := by
    obtain ⟨ts, hts, ha⟩ := Except.bind_eq_ok.mp ha
    obtain rfl := Except.ok.inj ha
    exact ⟨rfl, rfl, (h.knows.chained hs rfl hcombined (tokenizes_of_tokensOf hts)).1⟩
  obtain ⟨hastyle, haauto, hachained⟩ := tokens ha
  obtain ⟨hbstyle, hbauto, hbchained⟩ := tokens hb
  rw [verdict?_eq_some_iff] at hv ⊢
  obtain ⟨t, hm, hex, rfl⟩ := hv
  have hm' := hm
  rw [matchAlternative_of_usage hu] at hm'
  obtain ⟨w, hw, hwex, hslots⟩ := h.accepts hg hastyle hbstyle (hbauto.trans haauto.symm) hachained
    hbchained (by rwa [haauto]) hm' hex
  rw [← matchAlternative_of_usage hu (s := ⟨.blank g.slotCount, b⟩)] at hw
  refine ⟨w, hw, hwex, Prod.ext hslots ?_⟩
  rw [Bool.eq_iff_iff, dashes_of_matchAlternative hb hw hwex, dashes_of_matchAlternative ha hm hex,
    hmarks]

/-- A usage with its options in front gets the same from streams that ask for the same. -/
theorem concurs_of_flat (ha : g.tokenize raw = .ok a) (hb : g.tokenize raw' = .ok b)
    (hmarks : b.marks = a.marks)
    (hasks : ∀ rs ls, Asks g.config.style g.config.honorsDoubleDash (Offers g.scope os) a.tokens rs ls ↔
      Asks g.config.style g.config.honorsDoubleDash (Offers g.scope os) b.tokens rs ls) :
    Concurs (g.matchAlternative i ⟨.blank g.slotCount, a⟩)
      (g.matchAlternative i ⟨.blank g.slotCount, b⟩) := by
  have ends {c : Argv} (t : Attempt) :
      g.matchAlternative i ⟨.blank g.slotCount, c⟩ ≠ .error .outOfFuel t :=
    fun he => (matchAlternative_ends fun u _ => hg.finite u).of_error he rfl
  refine ⟨Option.ext fun v => ⟨?_, ?_⟩, ends, ends⟩
  · exact verdict?_of_flat hg hs hcombined h hu hb ha hmarks.symm fun rs ls => (hasks rs ls).mpr
  · exact verdict?_of_flat hg hs hcombined h hu ha hb hmarks fun rs ls => (hasks rs ls).mp

end Flat

/-- A usage gets the same from a stack and from its flags one by one. -/
theorem concurs_stacked {u : Pattern} {i : Nat} {front ts : List Token} {a : Argv} {raw raw' : List String}
    (hg : g.scope.Grounded) (hs : g.config.style.standard = true)
    (hcombined : g.config.style.combined = true) (hcs : '-' ∉ cs)
    (hflags : ∀ d ∈ cs, g.table.valueCount? (stackOf [d]).text = none)
    (hlead : (∀ o, Reaches g.scope u (.option o) → o.Leads cs) ∨
      ∃ os ps, u.Flat g.scope g.table g.config.style g.slotCount os ps)
    (hu : g.usages[i]? = some u) (hne : cs ≠ []) (hfront : ∀ x ∈ front, x.isDoubleDash = false)
    (ha : g.tokenize raw = .ok { a with tokens := front ++ (stacked cs ++ ts) })
    (hb : g.tokenize raw' = .ok { a with tokens := front ++ (unstacked cs ++ ts) }) :
    Concurs (g.matchAlternative i ⟨.blank g.slotCount, { a with tokens := front ++ (stacked cs ++ ts) }⟩)
      (g.matchAlternative i ⟨.blank g.slotCount, { a with tokens := front ++ (unstacked cs ++ ts) }⟩) := by
  obtain ⟨d, ds, rfl⟩ := List.exists_cons_of_ne_nil hne
  rcases hlead with hleads | ⟨os, ps, hflat⟩
  · have hparts : Replaced (StackedPart (d :: ds)) (front ++ (stacked (d :: ds) ++ ts))
        (front ++ (unstacked (d :: ds) ++ ts)) := .part (.intro (List.suffix_refl _)) hfront
    have hstyle : a.style = g.config.style := by
      obtain ⟨ts, -, ha⟩ := Except.bind_eq_ok.mp ha
      exact congrArg Argv.style (Except.ok.inj ha).symm
    refine concurs_of_follows (I := fun _ => True) (Replaced.akin (flagsFirst_stackedPart hcs)) trivial hg
      (fun u' hu' n => ?_) ⟨hparts, hstyle, rfl, rfl, rfl, rfl⟩
    obtain rfl := Option.some.inj (hu.symm.trans hu')
    exact follows_stack hg hs hcombined hcs hleads
  · have hmarks : (unstacked (d :: ds)).filter Token.isDoubleDash = [] := by
      simp [unstacked, stackOf, Token.isDoubleDash]
    have hunended : Unended g.config.honorsDoubleDash front := fun x hx => by
      rw [hfront x hx, Bool.and_false]
    refine concurs_of_flat hg hs hcombined hflat hu ha hb ?_ fun rs ls =>
      (asks_behind_iff hs hcombined hcs hunended ?_).symm
    · simp only [Argv.marks, List.filter_append, hmarks]
      rfl
    · exact fun e he o ho hname => hflat.knows.value_eq_none ho hname (hflags e he)

/-- A stack of flags has the same result as the flags one by one, or there is none for both, if each
usage has no option that is named in the stack only behind a flag of another one, or has its options
in front, and none of them repeats. -/
theorem matchArgs_stacked_eq_separate (hg : g.scope.Grounded) (hs : g.config.style.standard = true)
    (hcombined : g.config.style.combined = true) (hcs : '-' ∉ cs)
    (hflags : ∀ d ∈ cs, g.table.valueCount? (stackOf [d]).text = none)
    (hlead : ∀ u ∈ g.usages, (∀ o, Reaches g.scope u (.option o) → o.Leads cs) ∨
      ∃ os ps, u.Flat g.scope g.table g.config.style g.slotCount os ps)
    (ht : g.tokenize (before ++ [(stackOf cs).text]) = .ok argv)
    (hflag : argv.tokens.getLast? = some (stackOf cs)) :
    (g.matchArgs (before ++ ((unstacked cs).map (·.text) ++ after))).toOption =
      (g.matchArgs (before ++ (stackOf cs).text :: after)).toOption := by
  obtain ⟨ts, hts, hargv⟩ := Except.bind_eq_ok.mp ht
  obtain rfl := Except.ok.inj hargv
  obtain ⟨hlooks, ⟨n, hn⟩, front, hfront, hrest⟩ := exists_front_of_tokensOf hts hflag
  cases cs with
  | nil => simp [stackOf, looksLikeOption] at hlooks
  | cons d ds =>
    have hd : d ≠ '-' := ne_of_mem_of_not_mem List.mem_cons_self hcs
    obtain ⟨rfl, hknown⟩ := OptionTable.normalize_stack hs hcombined hd hflags hn
    let a : Argv := ⟨[], g.config.style, g.config.honorsDoubleDash, false, false⟩
    have hstack : g.tokenize (before ++ (stackOf (d :: ds)).text :: after) =
        (tokensOf g.table g.config 0 after).map fun ts =>
          { a with tokens := front ++ (stacked (d :: ds) ++ ts) } := by
      rw [tokenize, Argv.tokenize, hrest, tokensOf_flag hlooks hn]
      cases tokensOf g.table g.config 0 after <;> rfl
    have hseparate : g.tokenize (before ++ ((unstacked (d :: ds)).map (·.text) ++ after)) =
        (tokensOf g.table g.config 0 after).map fun ts =>
          { a with tokens := front ++ (unstacked (d :: ds) ++ ts) } := by
      rw [tokenize, Argv.tokenize, hrest, tokensOf_unstacked hs hcs hflags hknown]
      cases tokensOf g.table g.config 0 after <;> rfl
    rw [matchArgs, matchArgs, hstack, hseparate]
    cases hafter : tokensOf g.table g.config 0 after with
    | error e => rfl
    | ok ts =>
      rw [hafter] at hstack hseparate
      refine matchFrom_congr (fun i => ?_) g.usages 0 _ _
      cases hu : g.usages[i]? with
      | none =>
        unfold matchAlternative
        rw [hu]
        exact .ok rfl
      | some u =>
        exact concurs_stacked hg hs hcombined hcs hflags (hlead u (List.mem_of_getElem? hu)) hu
          (List.cons_ne_nil d ds) hfront hstack hseparate

/-- A counter and a pair of flags, each with a usage of its own. -/
theorem flag_usages : ∃ g v a b x y counted flags argv argv',
    compile {} "Usage:\n  prog [-v]... <x>\n  prog [-a] [-b] <y>" = .ok g ∧ g.registry.entries = [] ∧
    g.usages = [.required [.group .optional [.option v] true, .argument x],
      .required ([.optional [.option a], .optional [.option b]] ++ [Positional.argument y].map (·.pattern))] ∧
    v = ⟨.singleton "-v", none, none, 0⟩ ∧ a = ⟨.singleton "-a", none, none, 2⟩ ∧
    b = ⟨.singleton "-b", none, none, 3⟩ ∧ g.config.style = ⟨true, true, true⟩ ∧
    (∀ d ∈ ['v', 'a', 'b'], g.table.valueCount? (stackOf [d]).text = none) ∧ g.table.contains "--" = false ∧
    (g.tokenize ([] ++ [(stackOf ['v', 'v']).text]) = .ok argv ∧
      argv.tokens.getLast? = some (stackOf ['v', 'v']) ∧ g.matchArgs ["-vv", "1"] = .ok counted) ∧
    g.tokenize ([] ++ [(stackOf ['a', 'b']).text]) = .ok argv' ∧
      argv'.tokens.getLast? = some (stackOf ['a', 'b']) ∧ g.matchArgs ["-ab", "1"] = .ok flags := by
  obtain ⟨g, hg, hentries, husages, hstyle, hflags, hdashes, ⟨argv, ht, hlast⟩, ⟨argv', ht', hlast'⟩,
      ⟨counted, hcounted, -⟩, flags, hm, -⟩ :
      ∃ g, compile {} "Usage:\n  prog [-v]... <x>\n  prog [-a] [-b] <y>" = .ok g ∧ g.registry.entries = [] ∧
        g.usages = [.required [.group .optional [.option ⟨.singleton "-v", none, none, 0⟩] true,
            .argument ⟨.singleton "<x>", 1⟩],
          .required [.optional [.option ⟨.singleton "-a", none, none, 2⟩],
            .optional [.option ⟨.singleton "-b", none, none, 3⟩], .argument ⟨.singleton "<y>", 4⟩]] ∧
        g.config.style = ⟨true, true, true⟩ ∧
        (g.table.valueCount? (stackOf ['v']).text = none ∧ g.table.valueCount? (stackOf ['a']).text = none ∧
          g.table.valueCount? (stackOf ['b']).text = none) ∧ g.table.contains "--" = false ∧
        (∃ argv, g.tokenize ([] ++ [(stackOf ['v', 'v']).text]) = .ok argv ∧
          argv.tokens.getLast? = some (stackOf ['v', 'v'])) ∧
        (∃ argv, g.tokenize ([] ++ [(stackOf ['a', 'b']).text]) = .ok argv ∧
          argv.tokens.getLast? = some (stackOf ['a', 'b'])) ∧
        (∃ m, g.matchArgs ["-vv", "1"] = .ok m ∧ True) ∧
        ∃ m, g.matchArgs ["-ab", "1"] = .ok m ∧ True := by decide +kernel
  exact ⟨g, _, _, _, _, ⟨.singleton "<y>", 4⟩, counted, flags, argv, argv', hg, hentries, husages,
    rfl, rfl, rfl, hstyle, by simpa using hflags, hdashes, ⟨ht, hlast, hcounted⟩, ht', hlast', hm⟩

theorem leads_counter {scope : Scope} {v : OptionAtom} {x : Leaf}
    (hv : v = ⟨.singleton "-v", none, none, 0⟩) (hcs : (∀ c ∈ cs, c = 'v') ∨ 'v' ∉ cs) :
    ∀ o, Reaches scope (.required [.group .optional [.option v] true, .argument x]) (.option o) →
      o.Leads cs := by
  subst hv
  intro o ho before c after hparts hc
  cases ho with
  | child hmem ho =>
    rcases List.mem_pair.mp hmem with rfl | rfl
    · cases ho with
      | child hmem ho =>
        obtain rfl := List.mem_singleton.mp hmem
        cases ho with
        | refl =>
          have hname : (stackOf [c]).text = "-v" := by simpa using OrderedSet.contains_iff.mp hc
          have hlist := toList_stackOf [c]
          rw [hname] at hlist
          obtain rfl : 'v' = c := by simpa using hlist
          refine ⟨rfl, fun d hd => ?_⟩
          have hmem : 'v' ∈ cs := by simp [hparts]
          rw [hcs.resolve_right (not_not_intro hmem) d (hparts ▸ List.mem_append_left _ hd)]
          rfl
        | value hw => cases hw
    · cases ho

theorem flat_flags {a b : OptionAtom} {y : Leaf} {config : Config} {doc : String} {u : Pattern}
    (hg : compile config doc = .ok g) (hu : u ∈ g.usages)
    (heq : u = .required ([.optional [.option a], .optional [.option b]] ++
      [Positional.argument y].map (·.pattern)))
    (ha : a = ⟨.singleton "-a", none, none, 2⟩) (hb : b = ⟨.singleton "-b", none, none, 3⟩)
    (hflags : ∀ d ∈ ['v', 'a', 'b'], g.table.valueCount? (stackOf [d]).text = none)
    (hdashes : g.table.contains "--" = false) :
    u.Flat g.scope g.table g.config.style g.slotCount [.optional [.option a], .optional [.option b]]
      [.argument y] := by
  subst ha hb
  have offered (o : OptionAtom) (ho : Offers g.scope [.optional [.option ⟨.singleton "-a", none, none, 2⟩],
      .optional [.option ⟨.singleton "-b", none, none, 3⟩]] o) :
      o = ⟨.singleton "-a", none, none, 2⟩ ∨ o = ⟨.singleton "-b", none, none, 3⟩ := by
    obtain ⟨c, hc, ho⟩ := ho
    rcases List.mem_pair.mp hc with rfl | rfl
    all_goals
      cases ho with
      | child hmem ho =>
        obtain rfl := List.mem_singleton.mp hmem
        cases ho with
        | refl => simp
        | value hw => cases hw
  refine flat_of_compile hg hu heq ?_ ?_ ?_ ?_ ?_ hdashes
  · intro c hc
    rcases List.mem_pair.mp hc with rfl | rfl
    all_goals
      refine .optional fun c hc => ?_
      obtain rfl := List.mem_singleton.mp hc
      exact .option (by decide +kernel)
  · intro o p ho hp name hname hname'
    rcases offered o ho with rfl | rfl <;> rcases offered p hp with rfl | rfl <;> simp_all
  · intro o ho v hv
    rcases offered o ho with rfl | rfl <;> cases hv
  · intro o ho hv
    rcases offered o ho with rfl | rfl <;> cases hv
  · intro o ho _ name hname
    rcases offered o ho with rfl | rfl
    · obtain rfl := List.mem_singleton.mp hname
      exact hflags 'a' (by simp)
    · obtain rfl := List.mem_singleton.mp hname
      exact hflags 'b' (by simp)

/-- The flag of a counter twice in a stack, and two flags of another usage in a stack. -/
theorem stacked_flags_match : ∃ g counted flags,
    compile {} "Usage:\n  prog [-v]... <x>\n  prog [-a] [-b] <y>" = .ok g ∧
    g.matchArgs ["-vv", "1"] = .ok counted ∧ (g.matchArgs ["-v", "-v", "1"]).toOption = some counted ∧
    g.matchArgs ["-ab", "1"] = .ok flags ∧ (g.matchArgs ["-a", "-b", "1"]).toOption = some flags := by
  obtain ⟨g, v, a, b, x, y, counted, flags, argv, argv', hg, hentries, husages, hv, ha, hb, hstyle,
    hflags, hdashes, ⟨ht, hlast, hcounted⟩, ht', hlast', hm⟩ := flag_usages
  have hgrounded : g.scope.Grounded := by simp [Scope.Grounded, Grammar.scope, hentries]
  have hlead {cs : List Char} (hcs : (∀ c ∈ cs, c = 'v') ∨ 'v' ∉ cs) : ∀ u ∈ g.usages,
      (∀ o, Reaches g.scope u (.option o) → o.Leads cs) ∨
        ∃ os ps, u.Flat g.scope g.table g.config.style g.slotCount os ps := by
    intro u hu
    have hmem := hu
    rw [husages] at hmem
    rcases List.mem_pair.mp hmem with rfl | heq
    · exact .inl (leads_counter hv hcs)
    · exact .inr ⟨_, _, flat_flags hg hu heq ha hb hflags hdashes⟩
  have hcount : (g.matchArgs ([] ++ ((unstacked ['v', 'v']).map (·.text) ++ ["1"]))).toOption =
      (g.matchArgs ([] ++ (stackOf ['v', 'v']).text :: ["1"])).toOption :=
    matchArgs_stacked_eq_separate hgrounded (by rw [hstyle]) (by rw [hstyle]) (by decide)
      (fun d hd => hflags d (by simp_all)) (hlead (.inl (by simp))) ht hlast
  have hpair : (g.matchArgs ([] ++ ((unstacked ['a', 'b']).map (·.text) ++ ["1"]))).toOption =
      (g.matchArgs ([] ++ (stackOf ['a', 'b']).text :: ["1"])).toOption :=
    matchArgs_stacked_eq_separate hgrounded (by rw [hstyle]) (by rw [hstyle]) (by decide)
      (fun d hd => hflags d (List.mem_cons_of_mem _ hd)) (hlead (.inr (by decide))) ht' hlast'
  have toOption {raw : List String} {m : Mapping} (h : g.matchArgs raw = .ok m) :
      (g.matchArgs raw).toOption = some m := by rw [h]; rfl
  exact ⟨g, counted, flags, hg, hcounted, hcount.trans (toOption hcounted), hm, hpair.trans (toOption hm)⟩

/-- With `1` behind `-b`, the group `(-a <z>)` gives `-a` back, and `-b` is not found behind it. -/
theorem stacked_flag_is_not_found : ∃ g argv m, compile {} "Usage: prog [-b] (-a <z>)" = .ok g ∧
    g.tokenize ([] ++ [(stackOf ['a', 'b']).text]) = .ok argv ∧
    argv.tokens.getLast? = some (stackOf ['a', 'b']) ∧
    g.table.valueCount? (stackOf ['a']).text = none ∧ g.table.valueCount? (stackOf ['b']).text = none ∧
    g.matchArgs ["-a", "-b", "1"] = .ok m ∧
    g.matchArgs ["-ab", "1"] = .error (.error .noUsageMatched) := by
  obtain ⟨g, hg, ⟨argv, ht, hlast⟩, ha, hb, ⟨m, hm, -⟩, herror⟩ :
      ∃ g, compile {} "Usage: prog [-b] (-a <z>)" = .ok g ∧
        (∃ argv, g.tokenize ([] ++ [(stackOf ['a', 'b']).text]) = .ok argv ∧
          argv.tokens.getLast? = some (stackOf ['a', 'b'])) ∧
        g.table.valueCount? (stackOf ['a']).text = none ∧
        g.table.valueCount? (stackOf ['b']).text = none ∧
        (∃ m, g.matchArgs ["-a", "-b", "1"] = .ok m ∧ True) ∧
        g.matchArgs ["-ab", "1"] = .error (.error .noUsageMatched) := by decide +kernel
  exact ⟨g, argv, m, hg, ht, hlast, ha, hb, hm, herror⟩

end Grammar

end Synopsis
