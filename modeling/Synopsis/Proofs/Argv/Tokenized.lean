import Synopsis.Argv.Tokenize
import Synopsis.Proofs.Matcher.Steps

/-! # Streams as tokenizing leaves them

A flag has a hyphen in front of at least one more character, and behind a `--` that
ends the options there is nothing but literals.
-/

namespace Synopsis

namespace Text

variable {piece cs before rest : List Char}

theorem eq_append_of_dropPrefix? (h : dropPrefix? piece cs = some rest) : cs = piece ++ rest := by
  induction piece generalizing cs with
  | nil =>
    obtain rfl := Option.some.inj h
    rfl
  | cons p piece ih =>
    cases cs with
    | nil => cases h
    | cons c cs =>
      simp only [dropPrefix?, Option.ite_none_right_eq_some] at h
      obtain ⟨rfl, h⟩ := h
      rw [List.cons_append, ← ih h]

theorem eq_append_of_cutAt? (h : cutAt? piece cs = some (before, rest)) :
    cs = before ++ piece ++ rest := by
  induction cs generalizing before with
  | nil =>
    obtain ⟨_, hd, h⟩ := Option.map_eq_some_iff.mp h
    obtain ⟨rfl, rfl⟩ := Prod.mk.inj h
    exact eq_append_of_dropPrefix? hd
  | cons c cs ih =>
    unfold cutAt? at h
    split at h
    next hd =>
      obtain ⟨rfl, rfl⟩ := Prod.mk.inj (Option.some.inj h)
      exact eq_append_of_dropPrefix? hd
    next =>
      obtain ⟨⟨before, rest⟩, hc, h⟩ := Option.map_eq_some_iff.mp h
      obtain ⟨rfl, rfl⟩ := Prod.mk.inj h
      rw [ih hc]
      rfl

theorem toList_of_cutString? {text a b : String} (h : cutString? "=" text = some (a, b)) :
    text.toList = a.toList ++ '=' :: b.toList := by
  obtain ⟨⟨before, rest⟩, hc, h⟩ := Option.map_eq_some_iff.mp h
  obtain ⟨rfl, rfl⟩ := Prod.mk.inj h
  simpa using eq_append_of_cutAt? hc

end Text

/-- A hyphen with something behind it. -/
def Dashed (text : String) : Prop := ∃ c rest, text.toList = '-' :: c :: rest

theorem dashed_of_looksLikeOption {text : String} (h : looksLikeOption text = true) :
    Dashed text := by
  simp only [looksLikeOption, Bool.and_eq_true, bne_iff_ne, String.startsWith_string_iff] at h
  obtain ⟨⟨⟨rest, hrest⟩, hne⟩, -⟩ := h
  cases rest with
  | nil => exact absurd (String.toList_inj.mp hrest.symm) hne
  | cons c rest => exact ⟨c, rest, hrest.symm⟩

/-- What has a hyphen in front and is no option is a `--`. -/
theorem Dashed.eq_of_not_looksLikeOption {text : String} (h : Dashed text)
    (hl : looksLikeOption text = false) : text = "--" := by
  obtain ⟨c, rest, ht⟩ := h
  have hstart : text.startsWith "-" = true :=
    String.startsWith_string_iff.mpr ⟨c :: rest, ht.symm⟩
  have hne : text ≠ "-" := by
    rintro rfl
    simp at ht
  simpa [looksLikeOption, hstart, hne] using hl

namespace OptionTable

variable {t : OptionTable} {style : OptionStyle} {arg name text : String} {wanted : Nat}

/-- The full name of an option begins with what was written. -/
theorem toList_prefix_of_resolve (h : t.resolve name arg = .ok text) :
    name.toList <+: text.toList := by
  unfold resolve at h
  split at h
  · obtain rfl := Except.ok.inj h
    exact List.prefix_rfl
  · split at h
    next known hknown =>
      obtain rfl := Except.ok.inj h
      have hmem : known ∈ t.extensions name := by simp [hknown]
      have := (List.mem_filter.mp hmem).2
      simp only [Bool.and_eq_true, String.startsWith_string_iff] at this
      exact this.2
    next => cases h
    next => cases h

theorem dashed_of_normalize (ha : Dashed arg) (h : t.normalize style arg = .ok (text, wanted)) :
    Dashed text := by
  obtain ⟨c, rest, ht⟩ := ha
  unfold normalize at h
  split at h
  · split at h
    next name value hcut =>
      obtain ⟨known, hknown, h⟩ := Except.bind_eq_ok.mp h
      obtain ⟨rfl, -⟩ := Prod.mk.inj (Except.ok.inj h)
      obtain ⟨tail, htail⟩ := toList_prefix_of_resolve hknown
      have harg := Text.toList_of_cutString? hcut
      rw [ht] at harg
      cases hname : name.toList with
      | nil => simp [hname] at harg
      | cons d name' =>
        rw [hname] at harg htail
        obtain ⟨rfl, -⟩ := List.cons.inj harg
        have htext : (known ++ "=" ++ value).toList =
            '-' :: (name' ++ tail ++ '=' :: value.toList) := by simp [← htail]
        cases hrest : name' ++ tail ++ '=' :: value.toList with
        | nil => simp at hrest
        | cons c rest => exact ⟨c, rest, htext.trans (by rw [hrest])⟩
    next =>
      obtain ⟨known, hknown, h⟩ := Except.bind_eq_ok.mp h
      obtain ⟨rfl, -⟩ := Prod.mk.inj (Except.ok.inj h)
      obtain ⟨tail, htail⟩ := toList_prefix_of_resolve hknown
      exact ⟨c, rest ++ tail, by simp [← htail, ht]⟩
  · obtain ⟨_, -, h⟩ := Except.bind_eq_ok.mp h
    obtain ⟨rfl, -⟩ := Prod.mk.inj (Except.ok.inj h)
    exact ⟨c, rest, ht⟩

end OptionTable

structure Tokenized (ts : List Token) : Prop where
  flags : ∀ t ∈ ts, t.kind = .flag → Dashed t.text
  literals : (ts.map Token.kind).Pairwise fun a b => a = .doubleDash → b = .literal

namespace Tokenized

variable {t : Token} {ts : List Token}

theorem sublist {us : List Token} (h : Tokenized ts) (hs : us.Sublist ts) : Tokenized us where
  flags t ht := h.flags t (hs.subset ht)
  literals := h.literals.sublist (hs.map _)

theorem cons (h : Tokenized ts) (ht : t.kind = .flag → Dashed t.text)
    (hk : t.kind ≠ .doubleDash) : Tokenized (t :: ts) where
  flags := List.forall_mem_cons.mpr ⟨ht, h.flags⟩
  literals := by
    rw [List.map_cons, List.pairwise_cons]
    exact ⟨fun _ _ he => absurd he hk, h.literals⟩

theorem of_values (h : ∀ t ∈ ts, t.kind = .value) : Tokenized ts := by
  induction ts with
  | nil => exact ⟨nofun, .nil⟩
  | cons t ts ih =>
    obtain ⟨ht, hts⟩ := List.forall_mem_cons.mp h
    exact (ih hts).cons (by simp [ht]) (by simp [ht])

theorem value (text : String) : Tokenized [⟨text, .value⟩] :=
  .of_values (List.forall_mem_singleton.mpr rfl)

theorem literals_only (texts : List String) : Tokenized (texts.map (⟨·, .literal⟩)) where
  flags t ht hk := by
    obtain ⟨text, -, rfl⟩ := List.mem_map.mp ht
    cases hk
  literals := by
    rw [List.map_map, List.pairwise_map]
    exact List.pairwise_of_forall fun _ _ _ => rfl

theorem doubleDash (text : String) (texts : List String) :
    Tokenized (⟨text, .doubleDash⟩ :: texts.map (⟨·, .literal⟩)) where
  flags := List.forall_mem_cons.mpr ⟨nofun, (literals_only texts).flags⟩
  literals := by
    rw [List.map_cons, List.pairwise_cons]
    refine ⟨?_, (literals_only texts).literals⟩
    intro k hk _
    obtain ⟨t, ht, rfl⟩ := List.mem_map.mp hk
    obtain ⟨text, -, rfl⟩ := List.mem_map.mp ht
    rfl

end Tokenized

/-- What arguments are read as. Only where it ends the options, a `--` is no word. -/
inductive ReadAs (c : Config) : List Token → Prop
  | nil : ReadAs c []
  | ended (text : String) (texts : List String) :
      ReadAs c (⟨text, .doubleDash⟩ :: texts.map (⟨·, .literal⟩))
  | value {text : String} {ts : List Token} (ht : text ≠ "--") (h : ReadAs c ts) :
      ReadAs c (⟨text, .value⟩ :: ts)
  | flag {text : String} {ts : List Token} (ht : Dashed text) (h : ReadAs c ts) :
      ReadAs c (⟨text, .flag⟩ :: ts)
  | word {text : String} {ts : List Token} (ht : c.honorsDoubleDash = true → text ≠ "--")
      (h : ReadAs c ts) : ReadAs c (⟨text, .word⟩ :: ts)

theorem readAs_of_tokensOf {table : OptionTable} {c : Config} {pending : Nat} {args : List String}
    {ts : List Token} (h : tokensOf table c pending args = .ok ts) : ReadAs c ts := by
  induction args generalizing pending ts with
  | nil =>
    obtain rfl := Except.ok.inj h
    exact .nil
  | cons arg rest ih =>
    unfold tokensOf at h
    split at h
    next hvalue =>
      obtain ⟨ts, hts, h⟩ := Except.bind_eq_ok.mp h
      obtain rfl := Except.ok.inj h
      exact .value (bne_iff_ne.mp (Bool.and_eq_true_iff.mp hvalue).2) (ih hts)
    next =>
      split at h
      next =>
        obtain rfl := Except.ok.inj h
        exact .ended arg rest
      next hdash =>
        split at h
        next hopt =>
          obtain ⟨⟨text, wanted⟩, hn, h⟩ := Except.bind_eq_ok.mp h
          obtain ⟨ts, hts, h⟩ := Except.bind_eq_ok.mp h
          obtain rfl := Except.ok.inj h
          exact .flag (OptionTable.dashed_of_normalize (dashed_of_looksLikeOption hopt) hn) (ih hts)
        next =>
          split at h
          next =>
            obtain rfl := Except.ok.inj h
            exact .ended "--" (arg :: rest)
          next =>
            obtain ⟨ts, hts, h⟩ := Except.bind_eq_ok.mp h
            obtain rfl := Except.ok.inj h
            exact .word (fun hd => by simpa [hd] using hdash) (ih hts)

theorem ReadAs.tokenized {c : Config} {ts : List Token} (h : ReadAs c ts) : Tokenized ts := by
  induction h with
  | nil => exact ⟨nofun, .nil⟩
  | ended text texts => exact .doubleDash text texts
  | value _ _ ih | word _ _ ih => exact ih.cons nofun nofun
  | flag ht _ ih => exact ih.cons (fun _ => ht) nofun

theorem tokenized_of_tokensOf {table : OptionTable} {c : Config} {pending : Nat}
    {args : List String} {ts : List Token} (h : tokensOf table c pending args = .ok ts) :
    Tokenized ts :=
  (readAs_of_tokensOf h).tokenized

/-- Of a stream that is used up, at most a `--` is left. -/
theorem Argv.kind_ne_flag_of_isExhausted {a : Argv} (h : a.isExhausted = true) :
    ∀ t ∈ a.tokens, t.kind ≠ .flag := by
  unfold isExhausted at h
  split at h
  next he => simp [he]
  next t he =>
    rw [he, List.forall_mem_singleton]
    intro hk
    simp [Token.isDoubleDash, hk] at h
  next => cases h

end Synopsis
