import Synopsis.Matcher.Leaves
import Synopsis.Proofs.Argv.Tokenized
import Synopsis.Proofs.Collections

/-! # How flags spell options

A flag is read as a whole, up to a `=`, or it is a stack, of which the first two
characters are the option and the rest is attached.
-/

namespace Synopsis

namespace Argv

variable {style : OptionStyle} {names : Names} {text name : String} {attached : Option String}

/-- The name of an option that is read as a whole. -/
def wholeName (text : String) : String := (Text.cutString? "=" text).elim text (·.1)

/-- The name in front of a flag, and what is attached to it. -/
inductive Spelled (style : OptionStyle) (text : String) : String → Option String → Prop
  | whole (hw : style.readsWhole text = true) :
      Spelled style text (wholeName text) ((Text.cutString? "=" text).map (·.2))
  | short {c : Char} (hw : style.readsWhole text = false) (ht : text.toList = ['-', c]) :
      Spelled style text (String.ofList ['-', c]) none
  | stack {c : Char} {cs : List Char} (hw : style.readsWhole text = false)
      (ht : text.toList = '-' :: c :: cs) (hne : cs ≠ []) :
      Spelled style text (String.ofList ['-', c]) (some (String.ofList cs))

theorem mem_of_spelledBy? (h : spelledBy? style names text = some (name, attached)) :
    name ∈ names.toList := by
  simp only [spelledBy?, Option.ite_none_right_eq_some] at h
  obtain ⟨hname, h⟩ := h
  obtain ⟨rfl, -⟩ := Prod.mk.inj (Option.some.inj h)
  exact OrderedSet.contains_iff.mp hname

theorem spelled_of_spelledBy? (hd : Dashed text)
    (h : spelledBy? style names text = some (name, attached)) :
    Spelled style text name attached := by
  obtain ⟨c, cs, ht⟩ := hd
  unfold spelledBy? at h
  cases hw : style.readsWhole text with
  | true =>
    have hspelled := Spelled.whole hw
    cases hcut : Text.cutString? "=" text with
    | none | some =>
      simp only [hw, hcut, if_true, Option.ite_none_right_eq_some] at h
      obtain ⟨rfl, rfl⟩ := Prod.mk.inj (Option.some.inj h.2)
      rw [wholeName, hcut] at hspelled
      exact hspelled
  | false =>
    simp only [hw, ht, Bool.false_eq_true, if_false, Option.ite_none_right_eq_some] at h
    obtain ⟨hname, hattached⟩ := Prod.mk.inj (Option.some.inj h.2)
    cases cs with
    | nil =>
      obtain rfl : String.ofList ['-', c] = name := hname
      obtain rfl : none = attached := by simpa using hattached
      exact .short hw ht
    | cons d ds =>
      obtain rfl : String.ofList ['-', c] = name := hname
      obtain rfl : some (String.ofList (d :: ds)) = attached := by simpa using hattached
      exact .stack hw ht (List.cons_ne_nil d ds)

theorem startsWith_dashes_iff (text : String) :
    text.startsWith "--" = true ↔ ∃ cs, text.toList = '-' :: '-' :: cs := by
  have hdashes : "--".toList = ['-', '-'] := by simp
  rw [String.startsWith_string_iff, hdashes]
  exact ⟨fun ⟨cs, h⟩ => ⟨cs, h.symm⟩, fun ⟨cs, h⟩ => ⟨cs, h.symm⟩⟩

/-! ## Short options -/

section Short

variable {c : Char} {cs : List Char} (ht : text.toList = '-' :: c :: cs)
include ht

theorem startsWith_dashes_eq_false (hc : c ≠ '-') : text.startsWith "--" = false := by
  rw [Bool.eq_false_iff]
  intro hd
  obtain ⟨ds, hds⟩ := (startsWith_dashes_iff text).mp hd
  rw [ht] at hds
  exact hc (List.cons.inj (List.cons.inj hds).2).1

theorem readsWhole_eq_false (hs : style.standard = true) (hc : c ≠ '-') : style.readsWhole text = false := by
  rw [OptionStyle.readsWhole, startsWith_dashes_eq_false ht hc, hs]
  rfl

theorem looksLikeOption_of_short (hc : c ≠ '-') : looksLikeOption text = true := by
  have hstart : text.startsWith "-" = true := by
    rw [String.startsWith_string_iff, ht]
    exact ⟨c :: cs, by simp⟩
  have hdash : text ≠ "-" := by
    rintro rfl
    simp at ht
  have hdashes : text ≠ "--" := by
    rintro rfl
    simp [hc.symm] at ht
  simp [looksLikeOption, hstart, hdash, hdashes]

/-- A stack spells its first flag. -/
theorem spelledBy?_of_short (hw : style.readsWhole text = false) (names : Names) :
    spelledBy? style names text = if names.contains (String.ofList ['-', c]) then
      some (String.ofList ['-', c], if cs = [] then none else some (String.ofList cs)) else none := by
  cases cs <;> simp [spelledBy?, hw, ht]

end Short

theorem startsWith_wholeName (h : text.startsWith "--" = true) :
    (wholeName text).startsWith "--" = true := by
  unfold wholeName
  cases hcut : Text.cutString? "=" text with
  | none => exact h
  | some r =>
    obtain ⟨cs, hcs⟩ := (startsWith_dashes_iff _).mp h
    have ht := Text.toList_of_cutString? hcut
    rw [hcs] at ht
    refine (startsWith_dashes_iff _).mpr ?_
    -- The `=` stands behind both hyphens.
    match hr : r.1.toList with
    | [] => simp [hr] at ht
    | [_] => simp [hr] at ht
    | c :: d :: ds =>
      simp only [hr, List.cons_append, List.cons.injEq] at ht
      exact ⟨ds, by rw [← ht.1, ← ht.2.1]⟩

namespace Spelled

/-- Stacks are what has a name with one hyphen under the standard style. -/
theorem isShort_eq (h : Spelled style text name attached) :
    (style.standard && !name.startsWith "--") = !style.readsWhole text := by
  have stacked {c : Char} {cs : List Char} (hw : style.readsWhole text = false)
      (ht : text.toList = '-' :: c :: cs) :
      (style.standard && !(String.ofList ['-', c]).startsWith "--") = true := by
    simp only [OptionStyle.readsWhole, Bool.or_eq_false_iff, Bool.not_eq_false'] at hw
    rw [hw.2, Bool.true_and, Bool.not_eq_true', Bool.eq_false_iff]
    intro hc
    obtain ⟨ds, hds⟩ := (startsWith_dashes_iff _).mp hc
    rw [String.toList_ofList] at hds
    obtain ⟨rfl, -⟩ := List.cons.inj (List.cons.inj hds).2
    rw [(startsWith_dashes_iff _).mpr ⟨cs, ht⟩] at hw
    cases hw.1
  cases h with
  | whole hw =>
    rw [hw, Bool.not_true, Bool.and_eq_false_iff, Bool.not_eq_false']
    rw [OptionStyle.readsWhole, Bool.or_eq_true, Bool.not_eq_true'] at hw
    exact hw.symm.imp_right startsWith_wholeName
  | short hw ht => rw [stacked hw ht, hw, Bool.not_false]
  | stack hw ht hne => rw [stacked hw ht, hw, Bool.not_false]

theorem stack_of_some {rest : String} (h : Spelled style text name (some rest))
    (hw : style.readsWhole text = false) : ∃ c cs, text.toList = '-' :: c :: cs ∧ cs ≠ [] ∧
      name = String.ofList ['-', c] ∧ rest = String.ofList cs := by
  generalize hr : some rest = attached at h
  cases h with
  | whole hw' => simp [hw] at hw'
  | short => cases hr
  | stack _ ht hne =>
    obtain rfl := Option.some.inj hr
    exact ⟨_, _, ht, hne, rfl, rfl⟩

/-- What is attached to an option stands at the end of its flag. -/
theorem suffix_of_some (h : Spelled style text name attached) :
    ∀ rest ∈ attached, rest.toList <:+ text.toList := by
  cases h with
  | whole =>
    intro rest hrest
    obtain ⟨⟨a, b⟩, hcut, rfl⟩ := Option.map_eq_some_iff.mp hrest
    rw [Text.toList_of_cutString? hcut]
    exact (List.suffix_cons _ _).trans (List.suffix_append _ _)
  | short => exact nofun
  | stack _ ht =>
    rintro _ ⟨⟩
    rw [ht, String.toList_ofList]
    exact (List.suffix_cons _ _).trans (List.suffix_cons _ _)

end Spelled

theorem remove_insert_tokens (a : Argv) {i : Nat} {t x : Token} (h : a.tokens[i]? = some t) :
    ((a.remove i).insert i x).tokens = a.tokens.take i ++ x :: a.tokens.drop (i + 1) := by
  have hi : i < a.tokens.length := (List.getElem?_eq_some_iff.mp h).1
  have hlen : (a.tokens.take i).length = i := List.length_take_of_le (Nat.le_of_lt hi)
  simp only [remove, insert, List.eraseIdx_eq_take_drop_succ]
  rw [List.take_append_of_le_length (by omega), List.drop_append_of_le_length (by omega),
    List.take_of_length_le (by omega), List.drop_of_length_le (by omega), List.nil_append]

end Argv

theorem OptionOf.restOfStack_ofList (cs : List Char) :
    restOfStack (String.ofList cs) = ⟨String.ofList ('-' :: cs), .flag⟩ := by
  have hstack : "-" ++ String.ofList cs = String.ofList ('-' :: cs) :=
    String.toList_inj.mp (by simp)
  exact congrArg (Token.mk · .flag) hstack

end Synopsis
