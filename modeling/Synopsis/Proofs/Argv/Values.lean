import Synopsis.Proofs.Argv.Occurrences
import Synopsis.Proofs.Argv.Spent

/-! # Values that options come with

The value of an option is attached to it, or it is the token behind the flag. Using up
other parts of a stream leaves both where they are.
-/

namespace Synopsis.Argv

variable {style : OptionStyle} {takes : String → Bool} {names : Names} {name v : String}
  {ts xs ys zs : List Token} {t x : Token} {next : Option String} {a : Argv} {place : Nat}

/-- The text of a token that can be a value of the flag in front of it. -/
def valueText? (t : Token) : Option String :=
  if t.kind = .flag ∨ t.kind = .doubleDash then none else some t.text

/-- The values that options of some names have in a flag, given the text behind the flag
and what stands behind its hyphen. The rest of a stack is a stack again, until an option
in it takes a value. -/
def valuesIn (style : OptionStyle) (takes : String → Bool) (names : Names)
    (next : Option String) : List Char → List String
  | [] => []
  | c :: rest =>
    let text := String.ofList ('-' :: c :: rest)
    if style.readsWhole text then
      if names.contains (wholeName text) then
        (((Text.cutString? "=" text).map (·.2)).or next).toList
      else []
    else
      let name := String.ofList ['-', c]
      if names.contains name then
        if rest.isEmpty || !style.attached then next.toList else [String.ofList rest]
      else if takes name then [] else valuesIn style takes names next rest

/-- Only flags have values. -/
def valuesOf (style : OptionStyle) (takes : String → Bool) (names : Names) (next : Option String)
    (t : Token) : List String :=
  if t.kind = .flag then valuesIn style takes names next (t.text.toList.drop 1) else []

def nextText? (ts : List Token) : Option String := ts.head?.bind valueText?

/-- The values that options of some names have in a stream. -/
def values (style : OptionStyle) (takes : String → Bool) (names : Names) :
    List Token → List String
  | [] => []
  | t :: ts => valuesOf style takes names (nextText? ts) t ++ values style takes names ts

theorem valuesIn_mono {cs : List Char} (h : v ∈ valuesIn style takes names none cs) :
    v ∈ valuesIn style takes names next cs := by
  induction cs with
  | nil => cases h
  | cons c rest ih =>
    simp only [valuesIn] at h ⊢
    split at h
    next hw =>
      rw [if_pos hw]
      split at h
      next hn =>
        rw [if_pos hn]
        rw [Option.or_none, Option.mem_toList] at h
        rw [Option.mem_toList, h, Option.some_or]
      next => cases h
    next hw =>
      rw [if_neg hw]
      split at h
      next hn =>
        rw [if_pos hn]
        split at h
        next => cases h
        next hr => rwa [if_neg hr]
      next hn =>
        rw [if_neg hn]
        split at h
        next => cases h
        next ht => rw [if_neg ht]; exact ih h

theorem valuesOf_mono (h : v ∈ valuesOf style takes names none t) :
    v ∈ valuesOf style takes names next t := by
  unfold valuesOf at h ⊢
  split at h
  next hk => rw [if_pos hk]; exact valuesIn_mono h
  next => cases h

theorem valuesOf_of_not_flag (h : t.kind ≠ .flag) : valuesOf style takes names next t = [] :=
  if_neg h

theorem values_of_not_flag (h : ∀ t ∈ ts, t.kind ≠ .flag) : values style takes names ts = [] := by
  induction ts with
  | nil => rfl
  | cons t ts ih =>
    rw [List.forall_mem_cons] at h
    rw [values, valuesOf_of_not_flag h.1, ih h.2, List.nil_append]

/-! ## Parts of a stream -/

theorem nextText?_of_flag (hk : x.kind = .flag) : nextText? (x :: ys) = none := by
  simp [nextText?, valueText?, hk]

theorem mem_values_append_right (h : v ∈ values style takes names ys) :
    v ∈ values style takes names (xs ++ ys) := by
  induction xs with
  | nil => exact h
  | cons x xs ih => exact List.mem_append_right _ ih

theorem mem_values_append_left (h : v ∈ values style takes names xs) :
    v ∈ values style takes names (xs ++ ys) := by
  induction xs with
  | nil => cases h
  | cons x xs ih =>
    rw [List.cons_append, values, List.mem_append]
    refine (List.mem_append.mp h).imp (fun hx => ?_) ih
    cases xs with
    | nil => exact valuesOf_mono hx
    | cons => exact hx

/-- A flag ends the values in front of it. -/
theorem values_append_flag (hk : x.kind = .flag) : values style takes names (xs ++ x :: ys) =
    values style takes names xs ++ values style takes names (x :: ys) := by
  induction xs with
  | nil => rfl
  | cons t xs ih =>
    have hnext : nextText? (xs ++ x :: ys) = nextText? xs := by
      cases xs with
      | nil => exact nextText?_of_flag hk
      | cons => rfl
    rw [List.cons_append, values, values, hnext, ih, List.append_assoc]

/-- A value goes with the flag that has it, or with the tokens on one side of it. -/
theorem mem_values_split (hk : x.kind = .flag)
    (h : v ∈ values style takes names (xs ++ x :: ys)) :
    v ∈ values style takes names xs ∨ v ∈ valuesOf style takes names (nextText? ys) x ∨
      v ∈ values style takes names ys := by
  rw [values_append_flag hk, List.mem_append] at h
  exact h.imp_right List.mem_append.mp

/-- Another flag is used up, and tokens behind it with it. -/
theorem mem_values_splice (hk : x.kind = .flag)
    (hx : v ∉ valuesOf style takes names (nextText? ys) x)
    (hz : v ∈ values style takes names ys → v ∈ values style takes names zs)
    (h : v ∈ values style takes names (xs ++ x :: ys)) :
    v ∈ values style takes names (xs ++ zs) := by
  rcases mem_values_split hk h with h | h | h
  · exact mem_values_append_left h
  · exact absurd h hx
  · exact mem_values_append_right (hz h)

/-- A flag takes the place of another one. -/
theorem mem_values_replace (hk : x.kind = .flag)
    (hx : v ∈ valuesOf style takes names (nextText? ys) x →
      v ∈ valuesOf style takes names (nextText? ys) t)
    (h : v ∈ values style takes names (xs ++ x :: ys)) :
    v ∈ values style takes names (xs ++ t :: ys) := by
  rcases mem_values_split hk h with h | h | h
  · exact mem_values_append_left h
  · exact mem_values_append_right (List.mem_append_left _ (hx h))
  · exact mem_values_append_right (List.mem_append_right _ h)

section Accepted

variable {p : Positional} (hdash : names.contains "--" = false) (hs : Tokenized a.tokens)
  (hpl : a.positional.2 = some place) (ht : a.tokens[place]? = some t)
  (ha : p.accepts place t = true)
include hdash hs hpl ht ha

/-- Of the flags, commands and arguments take `--` only. -/
theorem valuesOf_of_accepts : valuesOf style takes names next t = [] := by
  by_cases hk : t.kind = .flag
  · have htext := text_of_accepts hs hpl ht ha hk
    have hdashes : "--".toList.drop 1 = ['-'] := by decide
    have hread : style.readsWhole "--" = true := by
      rw [OptionStyle.readsWhole, (startsWith_dashes_iff _).mpr ⟨[], by simp⟩, Bool.true_or]
    have hname : wholeName "--" = "--" := by decide
    have hlist : String.ofList ['-', '-'] = "--" := by decide
    rw [valuesOf, if_pos hk, htext, hdashes, valuesIn]
    simp only [hlist, hread, hname, hdash, if_true, Bool.false_eq_true, if_false]
  · exact valuesOf_of_not_flag hk

/-- What commands and arguments take is nobody's value. -/
theorem mem_values_remove (h : v ∈ values style takes names a.tokens) :
    v ∈ values style takes names (a.tokens.eraseIdx place) := by
  have hnone {next : Option String} : valuesOf style takes names next t = [] :=
    valuesOf_of_accepts hdash hs hpl ht ha
  rcases positional_cases hpl with ⟨rfl, -⟩ | ⟨rfl, d, hd, hdd⟩
  · obtain ⟨rest, hrest⟩ : ∃ rest, a.tokens = t :: rest := by
      rw [← List.head?_eq_getElem?] at ht
      exact List.head?_eq_some_iff.mp ht
    rw [hrest, values, hnone] at h
    rw [hrest]
    exact h
  · obtain ⟨rest, hrest⟩ := List.head?_eq_some_iff.mp hd
    rw [hrest, List.getElem?_cons_succ, ← List.head?_eq_getElem?] at ht
    obtain ⟨rest, rfl⟩ := List.head?_eq_some_iff.mp ht
    rw [hrest, values, values, hnone, List.nil_append] at h
    have hd : d.kind ≠ .flag := by
      rw [Token.isDoubleDash, decide_eq_true_iff] at hdd
      simp [hdd]
    rw [valuesOf_of_not_flag hd] at h
    rw [hrest]
    exact List.mem_append_right _ h

end Accepted

/-! ## Flags -/

section Flag

variable (next) (hk : t.kind = .flag)
include hk

theorem valuesOf_of_whole (hd : Dashed t.text) (hw : style.readsWhole t.text = true) :
    valuesOf style takes names next t = if names.contains (wholeName t.text) then
      (((Text.cutString? "=" t.text).map (·.2)).or next).toList else [] := by
  obtain ⟨c, cs, ht⟩ := hd
  have htext : String.ofList ('-' :: c :: cs) = t.text := String.toList_inj.mp (by simp [ht])
  simp [valuesOf, hk, ht, valuesIn, htext, hw]

theorem valuesOf_of_stack {c : Char} {cs : List Char} (ht : t.text.toList = '-' :: c :: cs)
    (hw : style.readsWhole t.text = false) : valuesOf style takes names next t =
      if names.contains (String.ofList ['-', c]) then
        if cs.isEmpty || !style.attached then next.toList else [String.ofList cs]
      else if takes (String.ofList ['-', c]) then []
      else valuesOf style takes names next (OptionOf.restOfStack (String.ofList cs)) := by
  have htext : String.ofList ('-' :: c :: cs) = t.text := String.toList_inj.mp (by simp [ht])
  have hrest : valuesOf style takes names next (OptionOf.restOfStack (String.ofList cs)) =
      valuesIn style takes names next cs := by
    rw [OptionOf.restOfStack_ofList]
    simp [valuesOf]
  rw [hrest, valuesOf, if_pos hk, ht, List.drop_one, List.tail_cons, valuesIn]
  simp only [htext, hw, Bool.false_eq_true, if_false]

/-- Behind another option there are values only if it takes none itself. -/
theorem mem_rest_of_other (hd : Dashed t.text) {attached : Option String}
    (h : Spelled style t.text name attached) (hn : names.contains name = false)
    (hv : v ∈ valuesOf style takes names next t) : ∃ rest, attached = some rest ∧
      style.readsWhole t.text = false ∧ takes name = false ∧
      v ∈ valuesOf style takes names next (OptionOf.restOfStack rest) := by
  cases h with
  | whole hw =>
    rw [valuesOf_of_whole next hk hd hw, hn] at hv
    cases hv
  | short hw ht =>
    rw [valuesOf_of_stack next hk ht hw, hn] at hv
    split at hv
    · contradiction
    · split at hv
      · cases hv
      · rw [OptionOf.restOfStack_ofList] at hv
        cases hv
  | stack hw ht hne =>
    rw [valuesOf_of_stack next hk ht hw, hn] at hv
    split at hv
    · contradiction
    · split at hv
      · cases hv
      next ht => exact ⟨_, rfl, hw, Bool.not_eq_true _ ▸ ht, hv⟩

/-- With nothing attached, the value is the next text. -/
theorem valuesOf_of_none (hd : Dashed t.text) (h : Spelled style t.text name none)
    (hn : names.contains name = true) : valuesOf style takes names next t = next.toList := by
  generalize ha : (none : Option String) = attached at h
  cases h with
  | whole hw =>
    rw [valuesOf_of_whole next hk hd hw, hn, ← ha]
    simp
  | short hw ht =>
    rw [valuesOf_of_stack next hk ht hw, hn]
    simp
  | stack => cases ha

/-- What is attached is the value, unless values are not attached to short options. -/
theorem valuesOf_of_some (hd : Dashed t.text) {rest : String}
    (h : Spelled style t.text name (some rest)) (hn : names.contains name = true) :
    valuesOf style takes names next t =
      if !style.readsWhole t.text && !style.attached then next.toList else [rest] := by
  generalize ha : some rest = attached at h
  cases h with
  | whole hw =>
    rw [valuesOf_of_whole next hk hd hw, hn, ← ha, hw]
    simp
  | short => cases ha
  | stack hw ht hne =>
    obtain rfl := Option.some.inj ha
    rw [valuesOf_of_stack next hk ht hw, hn, hw]
    simp [hne]

end Flag

end Synopsis.Argv
