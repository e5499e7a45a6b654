import Mathlib.Algebra.BigOperators.Group.List.Basic
import Mathlib.Algebra.GroupWithZero.Nat
import Synopsis.Proofs.Argv.Spelling

/-! # Occurrences of an option

How often an option stands in the flags of a stream, under any of its names, by itself
or in a stack. A stream gets thinner as options are taken from it: tokens leave it, and
stacks lose options off their front.
-/

namespace Synopsis

/-- Tokens leave a stream or change their texts, and none is new. -/
structure Thinned (ts us : List Token) : Prop where
  kinds : (us.map Token.kind).Sublist (ts.map Token.kind)
  flags : (∀ t ∈ ts, t.kind = .flag → Dashed t.text) → ∀ t ∈ us, t.kind = .flag → Dashed t.text

namespace Thinned

variable {ts us vs : List Token} {t t' : Token} {i : Nat}

theorem refl (ts : List Token) : Thinned ts ts := ⟨.refl _, id⟩

theorem trans (h : Thinned ts us) (h' : Thinned us vs) : Thinned ts vs :=
  ⟨h'.kinds.trans h.kinds, fun ht => h'.flags (h.flags ht)⟩

theorem of_sublist (h : us.Sublist ts) : Thinned ts us :=
  ⟨h.map _, fun ht t hmem => ht t (h.subset hmem)⟩

theorem eraseIdx (ts : List Token) (i : Nat) : Thinned ts (ts.eraseIdx i) :=
  of_sublist (List.eraseIdx_sublist ts i)

/-- The tokens in front stay. -/
theorem append_left (h : Thinned ts us) : Thinned (vs ++ ts) (vs ++ us) where
  kinds := by
    rw [List.map_append, List.map_append]
    exact h.kinds.append_left _
  flags ht := by
    rw [List.forall_mem_append] at ht ⊢
    exact ⟨ht.1, h.flags ht.2⟩

/-- A flag is replaced by the rest of its stack. -/
theorem replace (ht : ts[i]? = some t) (hk : t.kind = .flag) (hk' : t'.kind = .flag)
    (hd : Dashed t.text → Dashed t'.text) : Thinned ts (ts.take i ++ t' :: ts.drop (i + 1)) := by
  obtain ⟨hi, rfl⟩ := List.getElem?_eq_some_iff.mp ht
  have hsplit : ts.take i ++ ts[i] :: ts.drop (i + 1) = ts := by
    rw [← List.drop_eq_getElem_cons hi, List.take_append_drop]
  suffices h : Thinned (ts.take i ++ ts[i] :: ts.drop (i + 1)) (ts.take i ++ t' :: ts.drop (i + 1)) by
    rwa [hsplit] at h
  refine append_left ⟨?_, fun h => ?_⟩
  · rw [List.map_cons, List.map_cons, hk, hk']
  · obtain ⟨htoken, hrest⟩ := List.forall_mem_cons.mp h
    exact List.forall_mem_cons.mpr ⟨fun _ => hd (htoken hk), hrest⟩

theorem tokenized (h : Thinned ts us) (ht : Tokenized ts) : Tokenized us :=
  ⟨h.flags ht.flags, ht.literals.sublist h.kinds⟩

end Thinned

namespace Argv

variable {style : OptionStyle} {takes : String → Bool} {names : Names} {text name : String}
  {ts us : List Token} {t t' : Token} {i : Nat}

/-- How often some names occur in a flag, given what stands behind its hyphen. The rest
of a stack is a stack again, unless it is the value of the option in front of it. -/
def occurrencesIn (style : OptionStyle) (takes : String → Bool) (names : Names) :
    List Char → Nat
  | [] => 0
  | c :: rest =>
    let text := String.ofList ('-' :: c :: rest)
    if style.readsWhole text then (names.contains (wholeName text)).toNat
    else
      let name := String.ofList ['-', c]
      (names.contains name).toNat +
        if takes name && style.attached then 0 else occurrencesIn style takes names rest

/-- Only flags count. -/
def occurrencesOf (style : OptionStyle) (takes : String → Bool) (names : Names) (t : Token) : Nat :=
  if t.kind = .flag then occurrencesIn style takes names (t.text.toList.drop 1) else 0

def occurrences (style : OptionStyle) (takes : String → Bool) (names : Names)
    (ts : List Token) : Nat :=
  (ts.map (occurrencesOf style takes names)).sum

theorem occurrencesOf_of_not_flag (h : t.kind ≠ .flag) : occurrencesOf style takes names t = 0 :=
  if_neg h

theorem occurrences_nil : occurrences style takes names [] = 0 := rfl

theorem occurrences_append : occurrences style takes names (ts ++ us) =
    occurrences style takes names ts + occurrences style takes names us := by
  simp [occurrences]

theorem occurrences_cons : occurrences style takes names (t :: ts) =
    occurrencesOf style takes names t + occurrences style takes names ts := by
  simp [occurrences]

theorem occurrences_of_not_flag (h : ∀ t ∈ ts, t.kind ≠ .flag) :
    occurrences style takes names ts = 0 :=
  List.sum_eq_zero (List.forall_mem_map.mpr fun t ht => occurrencesOf_of_not_flag (h t ht))

/-- A token leaves the stream. -/
theorem sum_map_eraseIdx (f : Token → Nat) (h : ts[i]? = some t) :
    ((ts.eraseIdx i).map f).sum + f t = (ts.map f).sum := by
  obtain ⟨hi, rfl⟩ := List.getElem?_eq_some_iff.mp h
  have hsplit : ts.take i ++ ts[i] :: ts.drop (i + 1) = ts := by
    rw [← List.drop_eq_getElem_cons hi, List.take_append_drop]
  conv_rhs => rw [← hsplit]
  simp only [List.eraseIdx_eq_take_drop_succ, List.map_append, List.map_cons, List.sum_append,
    List.sum_cons]
  omega

theorem occurrences_eraseIdx (style : OptionStyle) (takes : String → Bool) (names : Names)
    (h : ts[i]? = some t) :
    occurrences style takes names (ts.eraseIdx i) + occurrencesOf style takes names t =
      occurrences style takes names ts :=
  sum_map_eraseIdx _ h

section Spelled

variable (hk : t.kind = .flag) (hd : Dashed t.text)
include hk hd

theorem occurrencesOf_of_whole (hw : style.readsWhole t.text = true) :
    occurrencesOf style takes names t = (names.contains (wholeName t.text)).toNat := by
  obtain ⟨c, cs, ht⟩ := hd
  have htext : String.ofList ('-' :: c :: cs) = t.text := String.toList_inj.mp (by simp [ht])
  simp [occurrencesOf, hk, ht, occurrencesIn, htext, hw]

omit hd in
theorem occurrencesOf_of_stack {c : Char} {cs : List Char} (ht : t.text.toList = '-' :: c :: cs)
    (hw : style.readsWhole t.text = false) :
    occurrencesOf style takes names t = (names.contains (String.ofList ['-', c])).toNat +
      if takes (String.ofList ['-', c]) && style.attached then 0
      else occurrencesIn style takes names cs := by
  have htext : String.ofList ('-' :: c :: cs) = t.text := String.toList_inj.mp (by simp [ht])
  simp [occurrencesOf, hk, ht, occurrencesIn, htext, hw]

/-- An option with nothing attached occurs once. -/
theorem occurrencesOf_of_none (h : Spelled style t.text name none) :
    occurrencesOf style takes names t = (names.contains name).toNat := by
  generalize hn : (none : Option String) = attached at h
  cases h with
  | whole hw => exact occurrencesOf_of_whole hk hd hw
  | short hw ht =>
    rw [occurrencesOf_of_stack hk ht hw]
    simp [occurrencesIn]
  | stack => cases hn

/-- What is attached to an option that takes it as its value does not count. -/
theorem occurrencesOf_of_value {value : String} (h : Spelled style t.text name (some value))
    (hv : style.readsWhole t.text = false → takes name = true ∧ style.attached = true) :
    occurrencesOf style takes names t = (names.contains name).toNat := by
  generalize hn : some value = attached at h
  cases h with
  | whole hw => exact occurrencesOf_of_whole hk hd hw
  | short => cases hn
  | stack hw ht =>
    obtain ⟨htakes, hattached⟩ := hv hw
    rw [occurrencesOf_of_stack hk ht hw, htakes, hattached]
    simp

variable (names) in
omit hd in
/-- Behind an option that takes nothing the rest of the stack counts. -/
theorem occurrencesOf_of_rest {rest : String} (h : Spelled style t.text name (some rest))
    (hw : style.readsWhole t.text = false) (hv : (takes name && style.attached) = false) :
    occurrencesOf style takes names t = (names.contains name).toNat +
      occurrencesOf style takes names (OptionOf.restOfStack rest) := by
  obtain ⟨c, cs, ht, -, rfl, rfl⟩ := h.stack_of_some hw
  rw [occurrencesOf_of_stack hk ht hw, hv, OptionOf.restOfStack_ofList]
  simp [occurrencesOf]

end Spelled

end Argv

end Synopsis
