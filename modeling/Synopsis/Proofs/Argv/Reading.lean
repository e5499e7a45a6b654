import Synopsis.Proofs.Argv.Letters
import Synopsis.Proofs.Outcomes

/-! # How arguments are read

Each argument becomes one token, and which one depends on the argument and on how many values
are pending. Nothing is lost on the way, and only the long name of an option is changed. The
texts of the tokens, read once more, become the same tokens.
-/

namespace Synopsis

/-! ## Options -/

/-- The part in front of the first `=`, and the part behind it. -/
theorem Text.exists_parts_of_mem {text : String} (h : '=' ∈ text.toList) :
    ∃ name value : String, '=' ∉ name.toList ∧ text = name ++ "=" ++ value := by
  obtain ⟨a, b, ht, ha⟩ := List.eq_append_cons_of_mem h
  refine ⟨String.ofList a, String.ofList b, by simpa using ha, String.toList_inj.mp ?_⟩
  simp [ht]

namespace OptionTable

variable {t : OptionTable} {style : OptionStyle} {arg name known token text : String} {n : Nat}

theorem contains_iff : t.contains name = true ↔ name ∈ t.names := by
  simp [contains, names]

theorem mem_names_of_resolve (h : t.resolve name token = .ok known) : known ∈ t.names := by
  unfold resolve at h
  split at h
  next hc =>
    obtain rfl := Except.ok.inj h
    exact contains_iff.mp hc
  next =>
    split at h
    next only honly =>
      obtain rfl := Except.ok.inj h
      have hmem : only ∈ t.extensions name := by simp [honly]
      exact (List.mem_filter.mp hmem).1
    next => cases h
    next => cases h

/-- What an option becomes: a long one gets its full name, and a stack stays as it is. -/
inductive Normalizes (t : OptionTable) (style : OptionStyle) : String → String → Nat → Prop
  | whole {name known : String} (hw : style.readsWhole name = true) (hname : '=' ∉ name.toList)
      (hk : t.resolve name name = .ok known) :
      Normalizes t style name known ((t.valueCount? known).getD 0)
  | assigned {name known value : String} (hw : style.readsWhole (name ++ "=" ++ value) = true)
      (hname : '=' ∉ name.toList) (hk : t.resolve name (name ++ "=" ++ value) = .ok known) :
      Normalizes t style (name ++ "=" ++ value) (known ++ "=" ++ value) 0
  | stack {arg : String} {n : Nat} (hw : style.readsWhole arg = false)
      (hs : t.stackReserve style arg 0 (arg.toList.drop 1) = .ok n) : Normalizes t style arg arg n

theorem normalize_eq_ok_iff : t.normalize style arg = .ok (text, n) ↔ Normalizes t style arg text n := by
  constructor
  · intro h
    cases hw : style.readsWhole arg with
    | true =>
      rw [normalize, if_pos hw] at h
      by_cases hmark : '=' ∈ arg.toList
      · obtain ⟨name, value, hname, rfl⟩ := Text.exists_parts_of_mem hmark
        rw [Text.cutString?_append hname] at h
        obtain ⟨known, hknown, h⟩ := Except.bind_eq_ok.mp h
        obtain ⟨rfl, rfl⟩ := Prod.mk.inj (Except.ok.inj h)
        exact .assigned hw hname hknown
      · rw [Text.cutString?_eq_none hmark] at h
        obtain ⟨known, hknown, h⟩ := Except.bind_eq_ok.mp h
        obtain ⟨rfl, rfl⟩ := Prod.mk.inj (Except.ok.inj h)
        exact .whole hw hmark hknown
    | false =>
      rw [normalize, hw, if_neg Bool.false_ne_true] at h
      obtain ⟨wanted, hs, h⟩ := Except.bind_eq_ok.mp h
      obtain ⟨rfl, rfl⟩ := Prod.mk.inj (Except.ok.inj h)
      exact .stack hw hs
  · intro h
    cases h with
    | whole hw hname hk =>
      rw [normalize, if_pos hw, Text.cutString?_eq_none hname]
      exact Except.bind_eq_ok.mpr ⟨_, hk, rfl⟩
    | assigned hw hname hk =>
      rw [normalize, if_pos hw, Text.cutString?_append hname]
      exact Except.bind_eq_ok.mpr ⟨_, hk, rfl⟩
    | stack hw hs =>
      rw [normalize, hw, if_neg Bool.false_ne_true]
      exact Except.bind_eq_ok.mpr ⟨_, hs, rfl⟩

end OptionTable

/-! ## Arguments -/

open OptionTable (Normalizes normalize_eq_ok_iff)

/-- What arguments are read as if the first `n` of them are reserved. -/
inductive Tokenizes (t : OptionTable) (c : Config) : Nat → List String → List Token → Prop
  | nil {n : Nat} : Tokenizes t c n [] []
  | value {n : Nat} {arg : String} {args : List String} {ts : List Token} (hne : arg ≠ "--")
      (next : Tokenizes t c n args ts) : Tokenizes t c (n + 1) (arg :: args) (⟨arg, .value⟩ :: ts)
  /-- A `--` is no value, whatever is pending. It ends the options, or is a word. -/
  | marked {n : Nat} {args : List String} (hc : c.honorsDoubleDash = true) :
      Tokenizes t c n ("--" :: args) (⟨"--", .doubleDash⟩ :: args.map (⟨·, .literal⟩))
  | unmarked {n : Nat} {args : List String} {ts : List Token} (hc : c.honorsDoubleDash = false)
      (next : Tokenizes t c 0 args ts) : Tokenizes t c n ("--" :: args) (⟨"--", .word⟩ :: ts)
  | flag {n : Nat} {arg text : String} {args : List String} {ts : List Token}
      (hl : looksLikeOption arg = true) (hn : Normalizes t c.style arg text n)
      (next : Tokenizes t c n args ts) : Tokenizes t c 0 (arg :: args) (⟨text, .flag⟩ :: ts)
  /-- Where options come first, the first word ends them. -/
  | ended {arg : String} {args : List String} (hc : c.optionsFirst = true)
      (hl : looksLikeOption arg = false) (hne : arg ≠ "--") :
      Tokenizes t c 0 (arg :: args) (⟨"--", .doubleDash⟩ :: (arg :: args).map (⟨·, .literal⟩))
  | word {arg : String} {args : List String} {ts : List Token} (hc : c.optionsFirst = false)
      (hl : looksLikeOption arg = false) (hne : arg ≠ "--") (next : Tokenizes t c 0 args ts) :
      Tokenizes t c 0 (arg :: args) (⟨arg, .word⟩ :: ts)

variable {t : OptionTable} {c : Config} {arg text : String} {args raw : List String}
  {ts before after : List Token} {n : Nat} {a : Argv}

theorem tokensOf_unmarked (hc : c.honorsDoubleDash = false) : tokensOf t c n ("--" :: args) =
    (do return ⟨"--", .word⟩ :: (← tokensOf t c 0 args)) := by
  have hfirst : c.optionsFirst = false := (Bool.or_eq_false_iff.mp hc).2
  simp [tokensOf, hc, hfirst, looksLikeOption]

theorem tokenizes_of_tokensOf (h : tokensOf t c n args = .ok ts) : Tokenizes t c n args ts := by
  induction args generalizing n ts with
  | nil =>
    obtain rfl := Except.ok.inj h
    exact .nil
  | cons arg args ih =>
    by_cases hdash : arg = "--"
    · subst hdash
      cases hc : c.honorsDoubleDash with
      | true =>
        simp only [tokensOf, hc, bne_self_eq_false, Bool.and_false, beq_self_eq_true, Bool.and_self,
          Bool.false_eq_true, if_false, if_true] at h
        obtain rfl := Except.ok.inj h
        exact .marked hc
      | false =>
        rw [tokensOf_unmarked hc] at h
        obtain ⟨ts, hts, h⟩ := Except.bind_eq_ok.mp h
        obtain rfl := Except.ok.inj h
        exact .unmarked hc (ih hts)
    · have hne : (arg == "--") = false := beq_false_of_ne hdash
      cases n with
      | succ n =>
        simp only [tokensOf, bne, hne, Nat.zero_lt_succ, decide_true, Bool.not_false, Bool.and_self,
          if_true, Nat.add_sub_cancel] at h
        obtain ⟨ts, hts, h⟩ := Except.bind_eq_ok.mp h
        obtain rfl := Except.ok.inj h
        exact .value hdash (ih hts)
      | zero =>
        simp only [tokensOf, hne, Nat.lt_irrefl, decide_false, Bool.false_and, Bool.false_eq_true,
          if_false] at h
        split at h
        next hl =>
          obtain ⟨⟨text, wanted⟩, hn, h⟩ := Except.bind_eq_ok.mp h
          obtain ⟨ts, hts, h⟩ := Except.bind_eq_ok.mp h
          obtain rfl := Except.ok.inj h
          exact .flag hl (normalize_eq_ok_iff.mp hn) (ih hts)
        next hl =>
          rw [Bool.not_eq_true] at hl
          split at h
          next hc =>
            obtain rfl := Except.ok.inj h
            exact .ended hc hl hdash
          next hc =>
            obtain ⟨ts, hts, h⟩ := Except.bind_eq_ok.mp h
            obtain rfl := Except.ok.inj h
            exact .word (Bool.not_eq_true _ ▸ hc) hl hdash (ih hts)

namespace Tokenizes

theorem tokensOf_eq (h : Tokenizes t c n args ts) : tokensOf t c n args = .ok ts := by
  induction h with
  | nil => rfl
  | value hne _ ih => rw [tokensOf_value hne, ih]; rfl
  | marked hc => simp [tokensOf, hc]
  | unmarked hc _ ih => rw [tokensOf_unmarked hc, ih]; rfl
  | flag hl hn _ ih => rw [tokensOf_flag hl (normalize_eq_ok_iff.mpr hn), ih]; rfl
  | ended hc hl hne => simp [tokensOf, beq_false_of_ne hne, hl, hc]
  | word hc hl hne _ ih => simp [tokensOf, beq_false_of_ne hne, hl, hc, ih]

end Tokenizes

/-! ## Nothing is lost -/

/-- The token of an argument that does not end the options. -/
inductive Renders (t : OptionTable) (arg : String) : Token → Prop
  | verbatim {kind : TokenKind} (hk : kind = .flag ∨ kind = .value ∨ kind = .word) : Renders t arg ⟨arg, kind⟩
  /-- Instead of what stands in front of the first `=`, a known name that begins with it. -/
  | completed {name known rest : String} (harg : arg = name ++ rest) (hname : '=' ∉ name.toList)
      (hrest : rest = "" ∨ rest.startsWith "=" = true) (hknown : known ∈ t.names)
      (hp : known.startsWith name = true) : Renders t arg ⟨known ++ rest, .flag⟩

/-- What arguments become from the end of the options on, if anything ends them. -/
inductive Closes (c : Config) : List String → List Token → Prop
  | never : Closes c [] []
  | marked {args : List String} (hc : c.honorsDoubleDash = true) :
      Closes c ("--" :: args) (⟨"--", .doubleDash⟩ :: args.map (⟨·, .literal⟩))
  /-- A `--` that nobody wrote, in front of the first word. -/
  | inserted {arg : String} {args : List String} (hc : c.optionsFirst = true)
      (hl : looksLikeOption arg = false) (hne : arg ≠ "--") :
      Closes c (arg :: args) (⟨"--", .doubleDash⟩ :: (arg :: args).map (⟨·, .literal⟩))

/-- What the tokens of some arguments say about them. -/
structure Faithful (t : OptionTable) (c : Config) (raw : List String) (ts : List Token) : Prop where
  /-- Up to the end of the options, the tokens are those of the arguments one by one. -/
  arguments : ∃ (args behind : List String) (front closing : List Token), raw = args ++ behind ∧
    ts = front ++ closing ∧ List.Forall₂ (Renders t) args front ∧ Closes c behind closing
  /-- There is at most one end of the options. Literals stand behind it, and only there. -/
  ending : ∀ (before : List Token) (d : Token) (after : List Token),
    ts = before ++ d :: after → d.kind = .doubleDash →
      (∀ x ∈ before, x.kind ≠ .doubleDash ∧ x.kind ≠ .literal) ∧ ∀ x ∈ after, x.kind = .literal
  /-- The values behind a flag are as many arguments as it reserves, up to a `--`. -/
  reserved : ∀ (before : List Token) (text : String) (after : List Token),
    ts = before ++ ⟨text, .flag⟩ :: after →
      ∃ (args : List String) (arg : String) (rest : List String) (n : Nat), raw = args ++ arg :: rest ∧
        args.length = before.length ∧ t.normalize c.style arg = .ok (text, n) ∧
        after.takeWhile (·.kind = .value) = ((rest.take n).takeWhile (· ≠ "--")).map (⟨·, .value⟩)
  /-- Where options come first, nothing behind them is a word. -/
  wordless : c.optionsFirst = true → ∀ x ∈ ts, x.kind ≠ .word

theorem renders_of_normalizes {style : OptionStyle} (h : Normalizes t style arg text n) :
    Renders t arg ⟨text, .flag⟩ := by
  cases h with
  | whole hw hname hk =>
    have hp := String.startsWith_string_iff.mpr (OptionTable.toList_prefix_of_resolve hk)
    rw [← String.append_empty (s := text)]
    exact .completed String.append_empty.symm hname (.inl rfl) (OptionTable.mem_names_of_resolve hk) hp
  | @assigned _ _ value hw hname hk =>
    have hp := String.startsWith_string_iff.mpr (OptionTable.toList_prefix_of_resolve hk)
    have hrest : ("=" ++ value).startsWith "=" = true := by simp [String.startsWith_string_iff]
    rw [String.append_assoc, String.append_assoc]
    exact .completed rfl hname (.inr hrest) (OptionTable.mem_names_of_resolve hk) hp
  | stack => exact .verbatim (.inl rfl)

/-- Every flag comes from the argument in its place, and what follows it from those behind. -/
def Traces (t : OptionTable) (c : Config) (raw : List String) (ts : List Token) : Prop :=
  ∀ (before : List Token) (text : String) (after : List Token), ts = before ++ ⟨text, .flag⟩ :: after →
    ∃ (args : List String) (arg : String) (rest : List String) (n : Nat), raw = args ++ arg :: rest ∧
      args.length = before.length ∧ Normalizes t c.style arg text n ∧ Tokenizes t c n rest after

namespace Traces

theorem cons {x : Token}
    (hx : x.kind = .flag → Normalizes t c.style arg x.text n ∧ Tokenizes t c n raw ts)
    (h : Traces t c raw ts) : Traces t c (arg :: raw) (x :: ts) := by
  intro before text after hts
  cases before with
  | nil =>
    obtain ⟨rfl, rfl⟩ := List.cons.inj hts
    obtain ⟨hn, hnext⟩ := hx rfl
    exact ⟨[], arg, raw, n, rfl, rfl, hn, hnext⟩
  | cons y before =>
    obtain ⟨-, hrest⟩ := List.cons.inj hts
    obtain ⟨args, arg', rest, m, rfl, hlength, hn, hnext⟩ := h before text after hrest
    exact ⟨arg :: args, arg', rest, m, rfl, congrArg (· + 1) hlength, hn, hnext⟩

theorem of_forall_ne (h : ∀ x ∈ ts, x.kind ≠ .flag) : Traces t c raw ts := by
  intro before text after hts
  exact absurd rfl (h ⟨text, .flag⟩ (hts ▸ List.mem_append_right _ List.mem_cons_self))

end Traces

namespace Tokenizes

theorem arguments (h : Tokenizes t c n raw ts) : ∃ args behind front closing, raw = args ++ behind ∧
    ts = front ++ closing ∧ List.Forall₂ (Renders t) args front ∧ Closes c behind closing := by
  -- An argument that does not end the options goes in front of those that are left.
  have next {arg : String} {args : List String} {x : Token} {ts : List Token} (hx : Renders t arg x)
      (ih : ∃ args' behind front closing, args = args' ++ behind ∧ ts = front ++ closing ∧
        List.Forall₂ (Renders t) args' front ∧ Closes c behind closing) :
      ∃ args' behind front closing, arg :: args = args' ++ behind ∧ x :: ts = front ++ closing ∧
        List.Forall₂ (Renders t) args' front ∧ Closes c behind closing := by
    obtain ⟨args', behind, front, closing, rfl, rfl, hr, hc⟩ := ih
    exact ⟨arg :: args', behind, x :: front, closing, rfl, rfl, .cons hx hr, hc⟩
  induction h with
  | nil => exact ⟨[], [], [], [], rfl, rfl, .nil, .never⟩
  | value _ _ ih => exact next (.verbatim (.inr (.inl rfl))) ih
  | marked hc => exact ⟨[], _, [], _, rfl, rfl, .nil, .marked hc⟩
  | unmarked _ _ ih => exact next (.verbatim (.inr (.inr rfl))) ih
  | flag _ hn _ ih => exact next (renders_of_normalizes hn) ih
  | ended hc hl hne => exact ⟨[], _, [], _, rfl, rfl, .nil, .inserted hc hl hne⟩
  | word _ _ _ _ ih => exact next (.verbatim (.inr (.inr rfl))) ih

/-- The values at the front are those that are pending. -/
theorem takeWhile_value (h : Tokenizes t c n raw ts) : ts.takeWhile (·.kind = .value) =
    ((raw.take n).takeWhile (· ≠ "--")).map (⟨·, .value⟩) := by
  induction h with
  | nil => simp
  | value hne _ ih => simpa [hne] using ih
  | @marked n => cases n <;> simp
  | @unmarked n => cases n <;> simp
  | flag | ended | word => simp

theorem traces (h : Tokenizes t c n raw ts) : Traces t c raw ts := by
  induction h with
  | nil | marked | ended => exact .of_forall_ne (by simp)
  | value _ _ ih | unmarked _ _ ih | word _ _ _ _ ih => exact .cons (n := 0) (by simp) ih
  | flag _ hn hnext ih => exact .cons (fun _ => ⟨hn, hnext⟩) ih

theorem ending (h : Tokenizes t c n raw ts) : ∀ (before : List Token) (d : Token) (after : List Token),
    ts = before ++ d :: after → d.kind = .doubleDash →
      (∀ x ∈ before, x.kind ≠ .doubleDash ∧ x.kind ≠ .literal) ∧ ∀ x ∈ after, x.kind = .literal := by
  induction h with
  | nil => simp
  | marked | ended =>
    intro before d after hts hd
    cases before with
    | nil =>
      obtain ⟨-, rfl⟩ := List.cons.inj hts
      exact ⟨nofun, by simp⟩
    | cons y before =>
      -- The other tokens are literals.
      obtain ⟨-, hrest⟩ := List.cons.inj hts
      have hmem : d ∈ before.append (d :: after) := List.mem_append_right _ List.mem_cons_self
      rw [← hrest] at hmem
      obtain ⟨_, -, rfl⟩ := List.mem_map.mp hmem
      cases hd
  | value _ _ ih | unmarked _ _ ih | flag _ _ _ ih | word _ _ _ _ ih =>
    intro before d after hts hd
    cases before with
    | nil =>
      obtain ⟨rfl, -⟩ := List.cons.inj hts
      cases hd
    | cons y before =>
      obtain ⟨rfl, hrest⟩ := List.cons.inj hts
      obtain ⟨hbefore, hafter⟩ := ih before d after hrest hd
      exact ⟨List.forall_mem_cons.mpr ⟨by simp, hbefore⟩, hafter⟩

theorem wordless (h : Tokenizes t c n raw ts) (hc : c.optionsFirst = true) : ∀ x ∈ ts, x.kind ≠ .word := by
  have literals (args : List String) : ∀ x ∈ args.map (Token.mk · .literal), x.kind ≠ .word := by simp
  induction h with
  | nil => exact nofun
  | value _ _ ih | flag _ _ _ ih => exact List.forall_mem_cons.mpr ⟨by simp, ih⟩
  | marked | ended => exact List.forall_mem_cons.mpr ⟨by simp, literals _⟩
  | unmarked hdash => simp [Config.honorsDoubleDash, hc] at hdash
  | word hfirst => simp [hc] at hfirst

end Tokenizes

/-- Tokenizing keeps all arguments in order, changes nothing but long names, reserves for each
option what it wants, and keeps apart what stands behind the end of the options. -/
theorem Argv.tokenize_faithful (h : Argv.tokenize raw t c = .ok a) : Faithful t c raw a.tokens := by
  obtain ⟨ts, hts, h⟩ := Except.bind_eq_ok.mp h
  obtain rfl := Except.ok.inj h
  have hread := tokenizes_of_tokensOf hts
  refine ⟨hread.arguments, hread.ending, fun before text after hflag => ?_, hread.wordless⟩
  obtain ⟨args, arg, rest, n, hraw, hlength, hn, hrest⟩ := hread.traces before text after hflag
  exact ⟨args, arg, rest, n, hraw, hlength, normalize_eq_ok_iff.mpr hn, hrest.takeWhile_value⟩

/-- An abbreviated option keeps its value, and a `--` goes in front of the first word. -/
theorem Argv.first_word_ends_options :
    let t : OptionTable := ⟨[("-a", none), ("--message", some 1)]⟩
    let c : Config := { optionsFirst := true }
    ∃ a, Argv.tokenize ["-a", "--mess", "-5", "--m=x=y", "run", "--", "-a"] t c = .ok a ∧
      a.tokens = [⟨"-a", .flag⟩, ⟨"--message", .flag⟩, ⟨"-5", .value⟩, ⟨"--message=x=y", .flag⟩,
        ⟨"--", .doubleDash⟩, ⟨"run", .literal⟩, ⟨"--", .literal⟩, ⟨"-a", .literal⟩] ∧
      Faithful t c ["-a", "--mess", "-5", "--m=x=y", "run", "--", "-a"] a.tokens := by
  intro t c
  obtain ⟨a, ha, hts⟩ : ∃ a, Argv.tokenize ["-a", "--mess", "-5", "--m=x=y", "run", "--", "-a"] t c = .ok a ∧
      a.tokens = [⟨"-a", .flag⟩, ⟨"--message", .flag⟩, ⟨"-5", .value⟩, ⟨"--message=x=y", .flag⟩,
        ⟨"--", .doubleDash⟩, ⟨"run", .literal⟩, ⟨"--", .literal⟩, ⟨"-a", .literal⟩] := by
    decide +kernel
  exact ⟨a, ha, hts, Argv.tokenize_faithful ha⟩

/-! ## Read once more -/

namespace OptionTable

variable {style : OptionStyle} {name known value : String}

theorem readsWhole_completed (hp : name.toList <+: known.toList) (h : style.readsWhole name = true) :
    style.readsWhole known = true := by
  rw [OptionStyle.readsWhole, Bool.or_eq_true] at h ⊢
  exact h.imp_left (String.startsWith_of_prefix hp)

theorem readsWhole_assigned (hname : '=' ∉ name.toList) :
    style.readsWhole (name ++ "=" ++ value) = style.readsWhole name := by
  have hmark : name.toList <+: (name ++ "=" ++ value).toList := ⟨'=' :: value.toList, by simp⟩
  rw [Bool.eq_iff_iff]
  refine ⟨fun h => ?_, readsWhole_completed hmark⟩
  rw [OptionStyle.readsWhole, Bool.or_eq_true] at h ⊢
  refine h.imp_left fun hd => ?_
  have hwhole := Argv.startsWith_wholeName hd
  rwa [Argv.wholeName, Text.cutString?_append hname] at hwhole

/-- A full name is the one that is meant, even if others begin with it. -/
theorem resolve_self (hk : known ∈ t.names) (token : String) : t.resolve known token = .ok known := by
  rw [resolve, if_pos (contains_iff.mpr hk)]

/-- What an option becomes, stays as it is, and reserves as much. -/
theorem Normalizes.again (hu : ∀ name ∈ t.names, '=' ∉ name.toList) (h : Normalizes t style arg text n) :
    Normalizes t style text text n := by
  cases h with
  | whole hw hname hk =>
    have hknown := mem_names_of_resolve hk
    exact .whole (readsWhole_completed (toList_prefix_of_resolve hk) hw) (hu _ hknown) (resolve_self hknown _)
  | assigned hw hname hk =>
    have hknown := mem_names_of_resolve hk
    refine .assigned ?_ (hu _ hknown) (resolve_self hknown _)
    rw [readsWhole_assigned hname] at hw
    rw [readsWhole_assigned (hu _ hknown)]
    exact readsWhole_completed (toList_prefix_of_resolve hk) hw
  | stack hw hs => exact .stack hw hs

theorem Normalizes.looksLikeOption (hl : looksLikeOption arg = true) (h : Normalizes t style arg text n) :
    Synopsis.looksLikeOption text = true := by
  by_contra hno
  have hdashed := dashed_of_normalize (dashed_of_looksLikeOption hl) (normalize_eq_ok_iff.mpr h)
  have htext := hdashed.eq_of_not_looksLikeOption (Bool.not_eq_true _ ▸ hno)
  cases h with
  | whole hw hname hk =>
    -- What begins a `--` and is no single hyphen is a `--`.
    obtain ⟨d, cs, harg⟩ := dashed_of_looksLikeOption hl
    obtain ⟨rest, hrest⟩ := toList_prefix_of_resolve hk
    have hdashes : '-' :: d :: (cs ++ rest) = ['-', '-'] := by simpa [harg, htext] using hrest
    simp only [List.cons.injEq, true_and, List.append_eq_nil_iff] at hdashes
    obtain rfl : arg = "--" := String.toList_inj.mp (by simp [harg, hdashes])
    simp [Synopsis.looksLikeOption] at hl
  | assigned => simpa using congrArg (fun s : String => '=' ∈ s.toList) htext
  | stack => exact hno hl

end OptionTable

/-- The texts of the tokens are read as the same tokens. -/
theorem Tokenizes.again (hu : ∀ name ∈ t.names, '=' ∉ name.toList) (h : Tokenizes t c n raw ts) :
    Tokenizes t c n (ts.map (·.text)) ts := by
  have literals (args : List String) : (args.map (Token.mk · .literal)).map (·.text) = args := by
    simp [Function.comp_def]
  induction h with
  | nil => exact .nil
  | value hne _ ih => exact .value hne ih
  | marked hc =>
    rw [List.map_cons, literals]
    exact .marked hc
  | unmarked hc _ ih => exact .unmarked hc ih
  | flag hl hn _ ih => exact .flag (hn.looksLikeOption hl) (hn.again hu) ih
  | ended hc hl hne =>
    -- The `--` that was put in is one that was written now.
    rw [List.map_cons, literals]
    exact .marked (by simp [Config.honorsDoubleDash, hc])
  | word hc hl hne _ ih => exact .word hc hl hne ih

end Synopsis
