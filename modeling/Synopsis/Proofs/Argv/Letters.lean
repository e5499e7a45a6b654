import Synopsis.Proofs.Argv.Arguments
import Synopsis.Proofs.Argv.Spent

/-! # What tokens hold

Where the text of a flag can be cut, how many options it can spell, and how many of these and
of texts there are in some arguments.
-/

namespace Synopsis

/-! ## Places to cut -/

/-- A hyphen and the character behind it both end where the bytes of the text can be cut. -/
def Cuttable (text : String) : Prop :=
  ∃ c rest, text.toList = '-' :: c :: rest ∧ (String.Pos.Raw.mk 1).IsValid text ∧
    (String.Pos.Raw.mk (1 + c.utf8Size)).IsValid text

theorem Dashed.cuttable {text : String} (h : Dashed text) : Cuttable text := by
  obtain ⟨c, rest, ht⟩ := h
  refine ⟨c, rest, ht, ?_, ?_⟩
  · refine String.Pos.Raw.isValid_iff_exists_append.mpr ⟨"-", String.ofList (c :: rest), ?_, rfl⟩
    simp [← String.toList_inj, ht]
  · refine String.Pos.Raw.isValid_iff_exists_append.mpr
      ⟨"-" ++ String.singleton c, String.ofList rest, ?_, ?_⟩
    · simp [← String.toList_inj, ht]
    · rw [String.rawEndPos, String.utf8ByteSize_append, String.utf8ByteSize_singleton]
      rfl

namespace Argv

variable {a a' : Argv} {names : Names} {found : Found} {place : Nat} {t : Token}

/-- An option is found inside of the stream, and the rest of its stack fits in where it was. -/
theorem index_lt_of_takeOption? (h : a.takeOption? names = some (found, a')) :
    found.index < a.tokens.length ∧ a'.tokens.length + 1 = a.tokens.length := by
  obtain ⟨t, ht, -, -, rfl⟩ := exists_of_takeOption? h
  obtain ⟨hlt, -⟩ := List.getElem?_eq_some_iff.mp ht
  refine ⟨hlt, ?_⟩
  rw [remove, List.length_eraseIdx_of_lt hlt]
  omega

/-- No command and no argument takes the end of the options. -/
theorem kind_ne_doubleDash (hs : Tokenized a.tokens) (hpl : a.positional.2 = some place)
    (ht : a.tokens[place]? = some t) : t.kind ≠ .doubleDash := by
  intro hk
  rcases positional_cases hpl with ⟨rfl, hhead⟩ | ⟨rfl, d, hd, hdash⟩
  · have hfront := hhead t (List.head?_eq_getElem? ▸ ht)
    simp [Token.isDoubleDash, hk] at hfront
  · have hliteral := literal_behind hs hd hdash ht
    rw [hk] at hliteral
    cases hliteral

end Argv

/-! ## Options and texts of a token -/

/-- How many options a token spells at most. -/
def OptionStyle.letters (style : OptionStyle) (t : Token) : Nat :=
  if t.kind = .flag then if style.readsWhole t.text then 1 else t.text.length - 1 else 0

/-- The end of the options is not a text. -/
def Token.words (t : Token) : Nat := (!t.isDoubleDash).toNat

theorem Token.words_eq_one {t : Token} (hk : t.kind ≠ .doubleDash) : t.words = 1 := by
  simp [words, isDoubleDash, hk]

/-- The characters behind the hyphens of what looks like an option. -/
def optionCharacters (raw : List String) : Nat :=
  ((raw.filter looksLikeOption).map (·.length - 1)).sum

variable {style : OptionStyle} {table : OptionTable} {c : Config} {text arg : String}
  {wanted pending : Nat} {raw : List String} {ts : List Token}

theorem Dashed.two_le_length (h : Dashed text) : 2 ≤ text.length := by
  obtain ⟨c, rest, ht⟩ := h
  rw [← String.length_toList, ht]
  simp

theorem OptionStyle.letters_pos {t : Token} (hk : t.kind = .flag) (hd : Dashed t.text) :
    0 < style.letters t := by
  have hlength := hd.two_le_length
  rw [letters, if_pos hk]
  split <;> omega

theorem String.startsWith_of_prefix {a b : String} (h : a.toList <+: b.toList)
    (ha : a.startsWith "--" = true) : b.startsWith "--" = true :=
  String.startsWith_string_iff.mpr ((String.startsWith_string_iff.mp ha).trans h)

/-- A long option stays a long one when its name is completed. -/
theorem OptionTable.startsWith_of_normalize (harg : arg.startsWith "--" = true)
    (hw : style.readsWhole arg = true) (h : table.normalize style arg = .ok (text, wanted)) :
    text.startsWith "--" = true := by
  have hname := Argv.startsWith_wholeName harg
  rw [normalize, if_pos hw] at h
  rw [Argv.wholeName] at hname
  split at h
  next name value hcut =>
    rw [hcut] at hname
    obtain ⟨known, hknown, h⟩ := Except.bind_eq_ok.mp h
    obtain ⟨rfl, -⟩ := Prod.mk.inj (Except.ok.inj h)
    have hstart := String.startsWith_of_prefix (toList_prefix_of_resolve hknown) hname
    refine String.startsWith_of_prefix ?_ hstart
    simp
  next hcut =>
    obtain ⟨known, hknown, h⟩ := Except.bind_eq_ok.mp h
    obtain ⟨rfl, -⟩ := Prod.mk.inj (Except.ok.inj h)
    exact String.startsWith_of_prefix (toList_prefix_of_resolve hknown) harg

theorem letters_of_normalize (ha : Dashed arg) (h : table.normalize style arg = .ok (text, wanted)) :
    style.letters ⟨text, .flag⟩ ≤ arg.length - 1 := by
  have hlength := ha.two_le_length
  rw [OptionStyle.letters, if_pos rfl]
  cases hw : style.readsWhole arg with
  | true =>
    have hwhole : style.readsWhole text = true := by
      rw [OptionStyle.readsWhole, Bool.or_eq_true] at hw ⊢
      refine hw.imp_left fun hstart => OptionTable.startsWith_of_normalize hstart ?_ h
      simp [OptionStyle.readsWhole, hstart]
    rw [if_pos hwhole]
    omega
  | false =>
    rw [OptionTable.normalize, hw, if_neg Bool.false_ne_true] at h
    obtain ⟨_, -, h⟩ := Except.bind_eq_ok.mp h
    obtain ⟨rfl, -⟩ := Prod.mk.inj (Except.ok.inj h)
    rw [hw, if_neg Bool.false_ne_true]

/-- What the tokens of some arguments begin with: an end of the options with literals behind it,
or what became of the first argument. -/
theorem cases_of_tokensOf (h : tokensOf table c pending (arg :: raw) = .ok ts) :
    (∃ (d : Token) (args : List String), d.kind = .doubleDash ∧ args.length ≤ raw.length + 1 ∧
      ts = d :: args.map (Token.mk · .literal)) ∨
    ∃ x us wanted, ts = x :: us ∧ tokensOf table c wanted raw = .ok us ∧ x.isDoubleDash = false ∧
      (x.kind = .flag → looksLikeOption arg = true ∧
        table.normalize c.style arg = .ok (x.text, wanted)) := by
  cases argumentStep table c pending arg with
  | fails e hstep => cases (hstep raw).symm.trans h
  | ends hstep =>
    obtain ⟨d, args, hd, hlength, heq⟩ := hstep raw
    exact .inl ⟨d, args, hd, hlength, Except.ok.inj (h.symm.trans heq)⟩
  | goes x wanted hx hflag hstep =>
    rw [hstep] at h
    cases hus : tokensOf table c wanted raw with
    | error => cases (hus ▸ h : Except.map _ (.error _) = .ok ts)
    | ok us =>
      rw [hus] at h
      exact .inr ⟨x, us, wanted, (Except.ok.inj h).symm, hus, hx, fun hk => (hflag hk).2⟩

/-- Tokens spell no more options than their arguments have characters. -/
theorem letters_of_tokensOf (h : tokensOf table c pending raw = .ok ts) :
    (ts.map c.style.letters).sum ≤ optionCharacters raw := by
  induction raw generalizing pending ts with
  | nil =>
    obtain rfl := Except.ok.inj h
    exact le_rfl
  | cons arg raw ih =>
    rcases cases_of_tokensOf h with ⟨d, args, hd, -, rfl⟩ | ⟨x, us, wanted, rfl, hus, -, hflag⟩
    · have hliterals : (args.map (c.style.letters ∘ (Token.mk · .literal))).sum = 0 :=
        List.sum_eq_zero (List.forall_mem_map.mpr fun _ _ => rfl)
      simp [OptionStyle.letters, hd, hliterals]
    · rw [List.map_cons, List.sum_cons, optionCharacters, List.filter_cons]
      by_cases hk : x.kind = .flag
      · obtain ⟨hlooks, hnormalize⟩ := hflag hk
        have hown := letters_of_normalize (dashed_of_looksLikeOption hlooks) hnormalize
        rw [← hk] at hown
        rw [if_pos hlooks, List.map_cons, List.sum_cons]
        exact Nat.add_le_add hown (ih hus)
      · rw [OptionStyle.letters, if_neg hk, Nat.zero_add]
        refine (ih hus).trans ?_
        split
        · exact Nat.le_add_left _ _
        · exact le_rfl

/-- They hold no more texts than there are arguments. -/
theorem words_of_tokensOf (h : tokensOf table c pending raw = .ok ts) :
    (ts.map Token.words).sum ≤ raw.length := by
  induction raw generalizing pending ts with
  | nil =>
    obtain rfl := Except.ok.inj h
    exact le_rfl
  | cons arg raw ih =>
    rcases cases_of_tokensOf h with ⟨d, args, hd, hlength, rfl⟩ | ⟨x, us, wanted, rfl, hus, hx, -⟩
    · have hliterals : args.map (Token.words ∘ (Token.mk · .literal)) = args.map fun _ => 1 := rfl
      simpa [hliterals, Token.words, Token.isDoubleDash, hd] using hlength
    · rw [List.map_cons, List.sum_cons, Token.words, hx, List.length_cons, Nat.add_comm]
      exact Nat.add_le_add_right (ih hus) 1

end Synopsis
