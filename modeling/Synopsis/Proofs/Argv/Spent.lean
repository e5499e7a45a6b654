import Mathlib.Algebra.Order.Group.Multiset
import Synopsis.Matcher.Leaves
import Synopsis.Proofs.Argv.Tokenized

/-! # What becomes of tokens

A token stays, loses options off the front of its stack, or leaves the stream, as a
text, as an option or as an option with a text attached. A stack of which only `--`
is left can leave as a text that it never had.
-/

namespace Synopsis

namespace Argv

section

variable (all : List Pattern) (style : OptionStyle)

/-- What is left of a token, the texts that it gave, and whether it gave the rest of
its stack as `--`. -/
inductive Fate : Token → List Token → Multiset String → Nat → Prop
  | kept {t : Token} : Fate t [t] 0 0
  | taken {t : Token} (hk : t.kind = .word ∨ t.kind = .value ∨ t.kind = .literal) :
      Fate t [] {t.text} 0
  | option {t : Token} {o : OptionAtom} {name : String} (ho : .option o ∈ all)
      (hk : t.kind = .flag) (hs : spelledBy? style o.names t.text = some (name, none)) :
      Fate t [] 0 0
  | attached {t : Token} {o : OptionAtom} {name text : String} (ho : .option o ∈ all)
      (hv : o.value.isSome = true) (hk : t.kind = .flag)
      (hs : spelledBy? style o.names t.text = some (name, some text)) : Fate t [] {text} 0
  | shortened {t : Token} {left : List Token} {used : Multiset String} {strays : Nat}
      {o : OptionAtom} {name : String} {c : Char} {rest : List Char} (ho : .option o ∈ all)
      (hk : t.kind = .flag)
      (hs : spelledBy? style o.names t.text = some (name, some (String.ofList rest)))
      (ht : t.text.toList = '-' :: c :: rest) (hr : rest ≠ [])
      (next : Fate ⟨String.ofList ('-' :: rest), .flag⟩ left used strays) :
      Fate t left used strays
  | stray {t : Token} (hk : t.kind = .flag) (ht : t.text = "--") : Fate t [] 0 1

/-- What is left of a stream, the texts that left it, and how many stacks left as `--`. -/
inductive Spent : List Token → List Token → Multiset String → Nat → Prop
  | nil : Spent [] [] 0 0
  | cons {t : Token} {ts left left' : List Token} {used used' : Multiset String}
      {strays strays' : Nat} (fate : Fate all style t left used strays)
      (rest : Spent ts left' used' strays') :
      Spent (t :: ts) (left ++ left') (used + used') (strays + strays')

end

variable {all : List Pattern} {style : OptionStyle} {t t' : Token}
  {ts us left left' : List Token} {used used' : Multiset String} {strays strays' i : Nat}

theorem Fate.left_cases (h : Fate all style t left used strays) :
    left = [] ∨ ∃ t', left = [t'] ∧ t'.kind = t.kind ∧ (Dashed t.text → Dashed t'.text) ∧
      used = 0 ∧ strays = 0 ∧ ∀ {left' used' strays'}, Fate all style t' left' used' strays' →
        Fate all style t left' used' strays' := by
  induction h with
  | @kept t => exact .inr ⟨t, rfl, rfl, id, rfl, rfl, id⟩
  | taken | option | attached | stray => exact .inl rfl
  | @shortened _ _ _ _ _ _ _ rest ho hk hs ht hr _ ih =>
    rcases ih with rfl | ⟨t', rfl, hk', hd, rfl, rfl, ih⟩
    · exact .inl rfl
    · obtain ⟨d, rest, rfl⟩ := List.exists_cons_of_ne_nil hr
      exact .inr ⟨t', rfl, hk'.trans hk.symm, fun _ => hd ⟨d, rest, String.toList_ofList⟩, rfl,
        rfl, fun h => .shortened ho hk hs ht hr (ih h)⟩

theorem length_of_spelledBy? {names : Names} {name text rest : String} (hd : Dashed text)
    (h : spelledBy? style names text = some (name, some rest)) :
    rest.length + 2 ≤ text.length := by
  obtain ⟨c, cs, htext⟩ := hd
  rw [← String.length_toList, ← String.length_toList]
  cases hread : style.readsWhole text with
  | true =>
    cases hcut : Text.cutString? "=" text with
    | none => simp [spelledBy?, hread, hcut] at h
    | some r =>
      simp only [spelledBy?, hread, hcut, if_true, Option.ite_none_right_eq_some] at h
      obtain ⟨-, hr⟩ := Prod.mk.inj (Option.some.inj h.2)
      have hcut := Text.toList_of_cutString? hcut
      rw [htext, Option.some.inj hr] at hcut
      -- The name before the `=` begins with the hyphen.
      cases hname : r.1.toList with
      | nil => simp [hname] at hcut
      | cons d ds =>
        rw [htext, hcut, hname]
        simp
  | false =>
    simp only [spelledBy?, hread, htext, Option.ite_none_right_eq_some, Bool.false_eq_true,
      if_false] at h
    obtain ⟨-, hrest⟩ := Prod.mk.inj (Option.some.inj h.2)
    obtain rfl := Option.some.inj (Option.ite_none_left_eq_some.mp hrest).2
    simp [htext]

/-- Only a stack that ends in a hyphen can be reduced to `--`. -/
theorem Fate.getLast?_of_stray (h : Fate all style t left used strays) (hs : strays ≠ 0) :
    t.kind = .flag ∧ t.text.toList.getLast? = some '-' := by
  induction h with
  | kept | taken | option | attached => exact absurd rfl hs
  | shortened _ hk _ ht hr _ ih =>
    obtain ⟨-, hlast⟩ := ih hs
    refine ⟨hk, ?_⟩
    rw [String.toList_ofList, List.getLast?_cons_of_ne_nil hr] at hlast
    rw [ht, List.getLast?_cons_of_ne_nil (by simp), List.getLast?_cons_of_ne_nil hr, hlast]
  | stray hk ht => exact ⟨hk, by rw [ht]; rfl⟩

/-- A flag gives a text that is attached to an option of at least two characters. -/
theorem Fate.length_of_mem {text : String} (h : Fate all style t left used 0)
    (hk : t.kind = .flag) (hd : Dashed t.text) (hu : text ∈ used) :
    text.length + 2 ≤ t.text.length := by
  generalize hz : 0 = strays at h
  induction h with
  | kept | option => cases hu
  | stray => cases hz
  | taken hw => simp [hk] at hw
  | attached _ _ _ hs =>
    obtain rfl := Multiset.mem_singleton.mp hu
    exact length_of_spelledBy? hd hs
  | @shortened _ _ _ _ _ _ _ rest _ _ _ ht hr _ ih =>
    obtain ⟨d, rest, rfl⟩ := List.exists_cons_of_ne_nil hr
    have h := ih rfl ⟨d, rest, String.toList_ofList⟩ hu hz
    rw [← String.length_toList, ← String.length_toList] at h ⊢
    rw [String.toList_ofList] at h
    rw [ht]
    exact Nat.le_succ_of_le h

namespace Spent

theorem refl : ∀ ts : List Token, Spent all style ts ts 0 0
  | [] => .nil
  | _ :: ts => by simpa using Spent.cons .kept (refl ts)

theorem append (h : Spent all style ts left used strays)
    (h' : Spent all style us left' used' strays') :
    Spent all style (ts ++ us) (left ++ left') (used + used') (strays + strays') := by
  induction h with
  | nil => simpa using h'
  | cons fate _ ih => simpa [add_assoc] using Spent.cons fate ih

theorem trans (h : Spent all style ts us used strays) (h' : Spent all style us left used' strays') :
    Spent all style ts left (used + used') (strays + strays') := by
  induction h generalizing left used' strays' with
  | nil => simpa using h'
  | @cons t ts kept rest used used₂ strays strays₂ fate _ ih =>
    rcases fate.left_cases with rfl | ⟨t', rfl, -, -, rfl, rfl, hfate⟩
    · simpa [add_assoc] using Spent.cons fate (ih h')
    · cases h' with
      | @cons _ _ left₁ left₂ used₁ used₃ strays₁ strays₃ fate' rest' =>
        have h := Spent.cons (hfate fate') (ih rest')
        rw [zero_add, zero_add, add_left_comm used₂, add_left_comm strays₂]
        exact h

/-- A token leaves the stream. -/
theorem eraseIdx (ht : ts[i]? = some t) (fate : Fate all style t [] used strays) :
    Spent all style ts (ts.eraseIdx i) used strays := by
  obtain ⟨hi, rfl⟩ := List.getElem?_eq_some_iff.mp ht
  have hrest : Spent all style (ts.drop (i + 1)) (ts.drop (i + 1)) 0 0 := refl _
  have h := (refl (ts.take i)).append (.cons fate hrest)
  rw [← List.drop_eq_getElem_cons hi, List.take_append_drop] at h
  simpa [List.eraseIdx_eq_take_drop_succ] using h

/-- A token is replaced by what is left of it. -/
theorem replace (ht : ts[i]? = some t) (fate : Fate all style t [t'] 0 0) :
    Spent all style ts (ts.take i ++ t' :: ts.drop (i + 1)) 0 0 := by
  obtain ⟨hi, rfl⟩ := List.getElem?_eq_some_iff.mp ht
  have hrest : Spent all style (ts.drop (i + 1)) (ts.drop (i + 1)) 0 0 := refl _
  have h := (refl (ts.take i)).append (.cons fate hrest)
  rw [← List.drop_eq_getElem_cons hi, List.take_append_drop] at h
  simpa using h

/-- A value that leaves the stream gives its text. -/
theorem of_value {text : String} (h : Spent all style [⟨text, .value⟩] [] used strays) :
    used = {text} ∧ strays = 0 := by
  generalize hts : [(⟨text, .value⟩ : Token)] = ts at h
  generalize hleft : ([] : List Token) = left at h
  cases h with
  | nil => cases hts
  | cons fate rest =>
    obtain ⟨rfl, rfl⟩ := List.cons.inj hts
    obtain ⟨rfl, rfl⟩ := List.append_eq_nil_iff.mp hleft.symm
    cases rest
    cases fate with
    | taken => exact ⟨add_zero _, rfl⟩
    | option _ hk | attached _ _ hk | shortened _ hk | stray hk => cases hk

theorem length_of_flag {text : String} (h : Spent all style [t] [] used 0) (hk : t.kind = .flag)
    (hd : Dashed t.text) (hu : text ∈ used) : text.length + 2 ≤ t.text.length := by
  generalize hts : [t] = ts at h
  generalize hleft : ([] : List Token) = left at h
  generalize hz : 0 = strays at h
  cases h with
  | nil => cases hts
  | cons fate rest =>
    obtain ⟨rfl, rfl⟩ := List.cons.inj hts
    obtain ⟨rfl, rfl⟩ := List.append_eq_nil_iff.mp hleft.symm
    obtain ⟨rfl, -⟩ := Nat.add_eq_zero_iff.mp hz.symm
    cases rest
    rw [add_zero] at hu
    exact fate.length_of_mem hk hd hu

theorem kinds_sublist (h : Spent all style ts left used strays) :
    (left.map Token.kind).Sublist (ts.map Token.kind) := by
  induction h with
  | nil => exact .slnil
  | cons fate _ ih =>
    rcases fate.left_cases with rfl | ⟨t', rfl, hk, -⟩
    · exact ih.cons _
    · simpa [hk] using ih

theorem tokenized (h : Spent all style ts left used strays) (ht : Tokenized ts) :
    Tokenized left where
  literals := ht.literals.sublist h.kinds_sublist
  flags := by
    have hflags := ht.flags
    clear ht
    induction h with
    | nil => exact nofun
    | cons fate _ ih =>
      rw [List.forall_mem_cons] at hflags
      rcases fate.left_cases with rfl | ⟨t', rfl, hk, hd, -⟩
      · exact ih hflags.2
      · exact List.forall_mem_cons.mpr ⟨fun hf => hd (hflags.1 (hk ▸ hf)), ih hflags.2⟩

/-- Nothing gives a `--` that is not there if no stack ends in a hyphen. -/
theorem strays_eq_zero (h : Spent all style ts left used strays)
    (hts : ∀ t ∈ ts, t.kind = .flag → t.text.toList.getLast? ≠ some '-') : strays = 0 := by
  induction h with
  | nil => rfl
  | cons fate _ ih =>
    rw [List.forall_mem_cons] at hts
    have hfate : _ = 0 := by_contra fun hs =>
      hts.1 (fate.getLast?_of_stray hs).1 (fate.getLast?_of_stray hs).2
    rw [hfate, ih hts.2]

end Spent

/-! ## Uses of the stream -/

variable {a a' : Argv} {names : Names} {found : Found} {place : Nat}

theorem exists_of_findOption? (h : a.findOption? names i ts = some found) :
    ∃ k t, found.index = i + k ∧ ts[k]? = some t ∧ t.kind = .flag ∧
      spelledBy? a.style names t.text = some (found.name, found.attached) := by
  induction ts generalizing i with
  | nil => cases h
  | cons t ts ih =>
    have next (h : a.findOption? names (i + 1) ts = some found) :
        ∃ k t', found.index = i + k ∧ (t :: ts)[k]? = some t' ∧ t'.kind = .flag ∧
          spelledBy? a.style names t'.text = some (found.name, found.attached) := by
      obtain ⟨k, t', hi, ht, hrest⟩ := ih h
      exact ⟨k + 1, t', by omega, ht, hrest⟩
    unfold findOption? at h
    split at h
    · cases h
    · split at h
      next hk =>
        split at h
        next name attached hs =>
          obtain rfl := Option.some.inj h
          exact ⟨0, t, rfl, rfl, hk, hs⟩
        next => exact next h
      next => exact next h

theorem exists_of_takeOption? (h : a.takeOption? names = some (found, a')) :
    ∃ t, a.tokens[found.index]? = some t ∧ t.kind = .flag ∧
      spelledBy? a.style names t.text = some (found.name, found.attached) ∧
      a' = a.remove found.index := by
  obtain ⟨found', hf, h⟩ := Option.map_eq_some_iff.mp h
  obtain ⟨rfl, rfl⟩ := Prod.mk.inj h
  obtain ⟨k, t, hi, ht, hk, hs⟩ := exists_of_findOption? hf
  rw [Nat.zero_add] at hi
  exact ⟨t, by rw [hi]; exact ht, hk, hs, rfl⟩

/-- The next positional token is the first one, or the one behind a `--`. -/
theorem positional_cases (h : a.positional.2 = some place) :
    (place = 0 ∧ ∀ t ∈ a.tokens.head?, t.isDoubleDash = false) ∨
      (place = 1 ∧ ∃ t ∈ a.tokens.head?, t.isDoubleDash = true) := by
  unfold positional at h
  split at h
  next => cases h
  next t ht =>
    split at h
    next hd =>
      simp only [Option.ite_none_right_eq_some] at h
      exact .inr ⟨(Option.some.inj h.2).symm, t, ht, hd⟩
    next hd =>
      refine .inl ⟨(Option.some.inj h).symm, ?_⟩
      intro t' ht'
      obtain rfl := Option.some.inj (ht.symm.trans ht')
      simpa using hd

/-- Behind the end of the options there are literals only. -/
theorem literal_behind {d : Token} (hs : Tokenized ts) (hd : d ∈ ts.head?)
    (hdash : d.isDoubleDash = true) (ht : ts[1]? = some t) : t.kind = .literal := by
  obtain ⟨rest, rfl⟩ := List.head?_eq_some_iff.mp hd
  rw [List.getElem?_cons_succ] at ht
  have hliterals := hs.literals
  rw [List.map_cons, List.pairwise_cons] at hliterals
  exact hliterals.1 t.kind (List.mem_map_of_mem (List.mem_of_getElem? ht))
    (by simpa [Token.isDoubleDash] using hdash)

/-- A flag that a command or an argument takes is a stack that was reduced to `--`. -/
theorem text_of_accepts {p : Positional} (hs : Tokenized a.tokens)
    (hpl : a.positional.2 = some place) (ht : a.tokens[place]? = some t)
    (ha : p.accepts place t = true) (hk : t.kind = .flag) : t.text = "--" := by
  rcases positional_cases hpl with ⟨rfl, -⟩ | ⟨rfl, d, hd, hdash⟩
  · have hdashed := hs.flags t (List.mem_of_getElem? ht) hk
    have hlooks : looksLikeOption t.text = false := by
      cases p <;> simp_all [Positional.accepts]
    exact hdashed.eq_of_not_looksLikeOption hlooks
  · have hliteral := literal_behind hs hd hdash ht
    rw [hk] at hliteral
    cases hliteral

/-- A token that a command or an argument takes gives its text. Only a stack that was
reduced to `--` is not a token of its own right. -/
theorem fate_of_accepts {p : Positional} (hs : Tokenized a.tokens)
    (hpl : a.positional.2 = some place) (ht : a.tokens[place]? = some t)
    (ha : p.accepts place t = true) :
    ∃ used strays, Fate all style t [] used strays ∧
      used + Multiset.replicate strays "--" = {t.text} := by
  cases hk : t.kind with
  | word => exact ⟨_, _, .taken (.inl hk), by simp⟩
  | value => exact ⟨_, _, .taken (.inr (.inl hk)), by simp⟩
  | literal => exact ⟨_, _, .taken (.inr (.inr hk)), by simp⟩
  | flag =>
    have htext := text_of_accepts hs hpl ht ha hk
    exact ⟨_, _, .stray hk htext, by simp [htext]⟩
  | doubleDash =>
    rcases positional_cases hpl with ⟨rfl, hhead⟩ | ⟨rfl, d, hd, hdash⟩
    · have := hhead t (by rw [List.head?_eq_getElem?]; exact ht)
      simp [Token.isDoubleDash, hk] at this
    · have hliteral := literal_behind hs hd hdash ht
      rw [hk] at hliteral
      cases hliteral

end Argv

end Synopsis
