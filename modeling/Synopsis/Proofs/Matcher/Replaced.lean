import Synopsis.Proofs.Matcher.ParallelPatterns

/-! # Streams with a part replaced

Two streams that are the same but for one part, which begins with a flag in both. A search
that does not end in that part comes to the same flag.
-/

namespace Synopsis

/-- The same tokens but for a part, in front of which there is no end of the options. -/
inductive Replaced (R : List Token → List Token → Prop) : List Token → List Token → Prop
  | same {ts : List Token} : Replaced R ts ts
  | part {xs us us' ys : List Token} (h : R us us') (hxs : ∀ x ∈ xs, x.isDoubleDash = false) :
      Replaced R (xs ++ (us ++ ys)) (xs ++ (us' ++ ys))

/-- Parts that both begin with a flag. -/
def FlagsFirst (R : List Token → List Token → Prop) : Prop :=
  ∀ us us', R us us' → ∃ t ts u ts', us = t :: ts ∧ us' = u :: ts' ∧ t.IsOption ∧ u.IsOption

variable {σ : OptionStyle} {E R : List Token → List Token → Prop} {a b : Argv} {names : Names}
  {ts xs ys us us' : List Token} {i : Nat}

theorem akin_eq : Akin Eq where
  refl _ := rfl
  fronts h := h ▸ .same

theorem flagsAhead_eq : OptionOf.FlagsAhead Eq := fun _ _ _ _ h => h ▸ rfl

namespace Replaced

theorem akin (hR : FlagsFirst R) : Akin (Replaced R) where
  refl _ := .same
  fronts h := by
    cases h with
    | same => exact .same
    | @part xs us us' ys h hxs =>
      cases xs with
      | nil =>
        obtain ⟨t, ts, u, ts', rfl, rfl, ht, hu⟩ := hR us us' h
        exact .option ht hu
      | cons x xs =>
        obtain ⟨hx, hxs⟩ := List.forall_mem_cons.mp hxs
        exact .token hx (.part h hxs)

theorem flagsAhead : OptionOf.FlagsAhead (Replaced R) := by
  intro t ts us ht h
  cases h with
  | same => exact .same
  | @part xs us us' ys h hxs =>
    have hxs' : ∀ x ∈ t :: xs, x.isDoubleDash = false :=
      List.forall_mem_cons.mpr ⟨by simp [Token.isDoubleDash, ht], hxs⟩
    exact .part h hxs'

end Replaced

/-! ## Searches -/

namespace Argv

theorem findOption?_congr (hs : b.style = a.style) (hd : b.autoDashes = a.autoDashes) :
    b.findOption? names i ts = a.findOption? names i ts := by
  induction ts generalizing i with
  | nil => rfl
  | cons t ts ih => simp only [findOption?, hs, hd, ih]

theorem takeOption?_eq_none (h : a.findOption? names 0 a.tokens = none) : a.takeOption? names = none := by
  rw [takeOption?, h, Option.map_none]

/-- A search that goes on to a part that the streams have in common. -/
theorem Twin.searches_behind (h : a.Twin σ E b) (ha : a.tokens = xs ++ ys)
    (hb : b.tokens = us ++ ys) (hput : ∀ zs, E (xs ++ zs) (us ++ zs))
    (hfa : a.findOption? names 0 a.tokens = a.findOption? names xs.length ys)
    (hfb : a.findOption? names 0 b.tokens = a.findOption? names us.length ys) :
    OptionOf.Searches E names a b := by
  rw [← Nat.zero_add xs.length, findOption?_add] at hfa
  rw [← Nat.zero_add us.length, findOption?_add, ← findOption?_congr h.style h.autoDashes] at hfb
  cases hf : a.findOption? names 0 ys with
  | none =>
    rw [hf] at hfa hfb
    exact .absent (takeOption?_eq_none hfa) (takeOption?_eq_none hfb)
  | some found =>
    obtain ⟨zs, x, zs', rfl, hi, hx⟩ := exists_parts_of_findOption? hf
    rw [hf, Option.map_some, hi, Nat.zero_add] at hfa hfb
    refine .found (.inr rfl) akin_eq flagsAhead_eq (Eq.refl zs') (?_ : ∀ ts ts', ts = ts' →
      E (xs ++ zs ++ ts) (us ++ zs ++ ts')) hx ?_ ?_ ?_ ?_
    · rintro ts _ rfl
      simpa using hput (zs ++ ts)
    · rw [ha, List.append_assoc]
    · rw [hfa, List.length_append, Nat.add_comm xs.length]
    · rw [hb, List.append_assoc]
    · rw [hfb, List.length_append, Nat.add_comm us.length]

/-- A search ends in front of the replaced part in both streams, or in none. -/
theorem Twin.searches_or_part (h : a.Twin σ (Replaced R) b) (hR : FlagsFirst R) (names : Names) :
    OptionOf.Searches (Replaced R) names a b ∨ ∃ xs us us' ys, R us us' ∧
      (∀ x ∈ xs, x.isDoubleDash = false) ∧ a.tokens = xs ++ (us ++ ys) ∧ b.tokens = xs ++ (us' ++ ys) ∧
      a.findOption? names 0 xs = none := by
  have htokens := h.tokens
  generalize hts : a.tokens = ts, hus : b.tokens = us at htokens
  cases htokens with
  | same =>
    have hsame (zs : List Token) : Replaced R ([] ++ zs) ([] ++ zs) := .same
    have ha : a.tokens = [] ++ ts := hts
    have hb : b.tokens = [] ++ ts := hus
    exact .inl (h.searches_behind ha hb hsame (by rw [hts]; rfl) (by rw [hus]; rfl))
  | @part xs us us' ys hpart hxs =>
    cases hf : a.findOption? names 0 xs with
    | none => exact .inr ⟨xs, us, us', ys, hpart, hxs, rfl, rfl, hf⟩
    | some found =>
      obtain ⟨zs, x, zs', rfl, hi, hx⟩ := exists_parts_of_findOption? hf
      obtain ⟨hzs, -, hzs'⟩ : (∀ x ∈ zs, x.isDoubleDash = false) ∧ _ ∧ ∀ x ∈ zs', x.isDoubleDash = false := by
        simpa only [List.forall_mem_append, List.forall_mem_cons] using hxs
      have hfound (us : List Token) : a.findOption? names 0 (zs ++ x :: zs' ++ us) =
          some ⟨found.name, found.attached, zs.length⟩ := by
        rw [findOption?_append hxs, hf, Option.some_or]
        rw [Nat.zero_add] at hi
        rw [← hi]
      have hput : ∀ ts us, Replaced R ts us → Replaced R (zs ++ ts) (zs ++ us) := by
        intro ts us hts
        cases hts with
        | same => exact .same
        | @part xs us us' ys hpart hxs =>
          rw [← List.append_assoc, ← List.append_assoc zs]
          exact .part hpart (List.forall_mem_append.mpr ⟨hzs, hxs⟩)
      have hbehind : Replaced R (zs' ++ (us ++ ys)) (zs' ++ (us' ++ ys)) := .part hpart hzs'
      refine .inl (.found (.inl rfl) (Replaced.akin hR) Replaced.flagsAhead hbehind hput hx ?_ ?_ ?_ ?_)
      · simp [hts]
      · rw [hts]
        exact hfound _
      · simp [hus]
      · rw [hus, findOption?_congr h.style h.autoDashes]
        exact hfound _

/-- A search that does not end in a part goes on behind it. -/
theorem findOption?_behind (hxs : ∀ x ∈ xs, x.isDoubleDash = false) (hus : ∀ x ∈ us, x.isDoubleDash = false)
    (hf : a.findOption? names 0 xs = none) (hf' : a.findOption? names 0 us = none) :
    a.findOption? names 0 (xs ++ us ++ ys) = a.findOption? names (xs ++ us).length ys := by
  have hall : ∀ x ∈ xs ++ us, x.isDoubleDash = false := List.forall_mem_append.mpr ⟨hxs, hus⟩
  have hnone : a.findOption? names 0 (xs ++ us) = none := by
    rw [findOption?_append hxs, hf, Option.none_or, findOption?_add, hf', Option.map_none]
  rw [findOption?_append hall, hnone, Option.none_or, Nat.zero_add]

/-- A part that spells none of the names is passed over. -/
theorem Twin.searches_past (h : a.Twin σ (Replaced R) b) (hpart : R us us')
    (hxs : ∀ x ∈ xs, x.isDoubleDash = false) (hus : ∀ x ∈ us, x.isDoubleDash = false)
    (hus' : ∀ x ∈ us', x.isDoubleDash = false) (ha : a.tokens = xs ++ (us ++ ys))
    (hb : b.tokens = xs ++ (us' ++ ys)) (hf : a.findOption? names 0 xs = none)
    (hn : a.findOption? names 0 us = none) (hn' : a.findOption? names 0 us' = none) :
    OptionOf.Searches (Replaced R) names a b := by
  rw [← List.append_assoc] at ha hb
  refine h.searches_behind ha hb (fun zs => ?_) ?_ ?_
  · rw [List.append_assoc, List.append_assoc]
    exact .part hpart hxs
  · rw [ha]
    exact findOption?_behind hxs hus hf hn
  · rw [hb]
    exact findOption?_behind hxs hus' hf hn'

/-- If no part spells a name, both searches come to the same flag. -/
theorem Twin.searches_of_unspelled (h : a.Twin σ (Replaced R) b) (hR : FlagsFirst R)
    (hdashes : ∀ us us', R us us' → ∀ x ∈ us ++ us', x.isDoubleDash = false)
    (hnone : ∀ us us', R us us' →
      a.findOption? names 0 us = none ∧ a.findOption? names 0 us' = none) :
    OptionOf.Searches (Replaced R) names a b := by
  rcases h.searches_or_part hR names with hsearches | ⟨xs, us, us', ys, hpart, hxs, ha, hb, hf⟩
  · exact hsearches
  · obtain ⟨hus, hus'⟩ := List.forall_mem_append.mp (hdashes us us' hpart)
    exact h.searches_past hpart hxs hus hus' ha hb hf (hnone us us' hpart).1 (hnone us us' hpart).2

end Argv

end Synopsis
