import Mathlib.Algebra.Order.BigOperators.Group.List
import Synopsis.Proofs.Argv.Reading

/-! # What stacks reserve

Several options of a stack may take their values from the arguments behind it. The number of
arguments that are reserved is that of the last of them alone.
-/

namespace Synopsis

namespace OptionTable

variable {t : OptionTable} {style : OptionStyle} {token stack text : String} {cs : List Char} {n wanted : Nat}

/-- How many arguments behind a stack its options take, one number for each that takes values.
If values can be attached, the rest of the stack is the value of the first such option. If
flags cannot be combined, there is only one option. -/
def stackCounts (t : OptionTable) (style : OptionStyle) : List Char → List Nat
  | [] => []
  | c :: rest =>
    match t.valueCount? (String.ofList ['-', c]) with
    | some count =>
      if style.attached && !rest.isEmpty then []
      else if style.combined then count :: stackCounts t style rest
      else [count]
    | none => if style.combined then stackCounts t style rest else []

section

variable {c : Char}

theorem stackCounts_cons_of_some {count : Nat} (h : t.valueCount? (String.ofList ['-', c]) = some count) :
    t.stackCounts style (c :: cs) = if style.attached && !cs.isEmpty then []
      else if style.combined then count :: t.stackCounts style cs else [count] := by
  rw [stackCounts, h]

theorem stackCounts_cons_of_none (h : t.valueCount? (String.ofList ['-', c]) = none) :
    t.stackCounts style (c :: cs) = if style.combined then t.stackCounts style cs else [] := by
  rw [stackCounts, h]

end

/-- The number so far is replaced by that of each option, and not added to. -/
theorem getLastD_stackCounts (hwanted : style.attached = true → wanted = 0)
    (h : t.stackReserve style token wanted cs = .ok n) :
    n = (t.stackCounts style cs).getLastD wanted := by
  fun_induction stackReserve t style token wanted cs with
  | case1 => exact (Except.ok.inj h).symm
  | case2 => cases h
  | case3 wanted c rest name _ count hcount hlast =>
    obtain rfl := Except.ok.inj h
    obtain rfl := List.isEmpty_iff.mp hlast
    rw [stackCounts_cons_of_some hcount]
    simp [stackCounts]
  | case4 wanted c rest name _ count hcount hmore hattached =>
    obtain rfl := Except.ok.inj h
    rw [stackCounts_cons_of_some hcount, if_pos (by simp [hattached, hmore])]
    exact (hwanted hattached).symm
  | case5 wanted c rest name _ count hcount hmore hattached hcombined =>
    obtain rfl := Except.ok.inj h
    rw [Bool.not_eq_true'] at hcombined
    rw [stackCounts_cons_of_some hcount, if_neg (by simp [hattached]), if_neg (by simp [hcombined])]
    rfl
  | case6 wanted c rest name _ count hcount hmore hattached hcombined ih =>
    rw [Bool.not_eq_true', Bool.not_eq_false] at hcombined
    rw [stackCounts_cons_of_some hcount, if_neg (by simp [hattached]), if_pos hcombined, List.getLastD_cons]
    exact ih (fun h => absurd h hattached) h
  | case7 wanted c rest name _ hcount hlast =>
    obtain rfl := Except.ok.inj h
    rw [Bool.or_eq_true, List.isEmpty_iff, Bool.not_eq_true'] at hlast
    rw [stackCounts_cons_of_none hcount]
    rcases hlast with rfl | hcombined
    · simp [stackCounts]
    · simp [hcombined]
  | case8 wanted c rest name _ hcount hmore ih =>
    simp only [Bool.or_eq_true, Bool.not_eq_true', not_or, Bool.not_eq_false] at hmore
    rw [stackCounts_cons_of_none hcount, if_pos hmore.2]
    exact ih hwanted h

/-- Only if values cannot be attached, and flags can be combined, several options take values. -/
theorem length_stackCounts_le_one (h : style.attached = true ∨ style.combined = false) :
    (t.stackCounts style cs).length ≤ 1 := by
  induction cs with
  | nil => exact Nat.zero_le 1
  | cons c rest ih =>
    cases hcount : t.valueCount? (String.ofList ['-', c]) with
    | none =>
      rw [stackCounts_cons_of_none hcount]
      split
      next => exact ih
      next => exact Nat.zero_le 1
    | some count =>
      rw [stackCounts_cons_of_some hcount]
      split
      next => exact Nat.zero_le 1
      next hseparate =>
        split
        next hcombined =>
          -- Nothing is left for the value of the option to be attached.
          have hattached : style.attached = true := h.resolve_right (by simp [hcombined])
          simp only [hattached, Bool.true_and, Bool.not_eq_true', Bool.not_eq_false, List.isEmpty_iff] at hseparate
          simp [hseparate, stackCounts]
        next => exact Nat.le_refl 1

end OptionTable

/-! ## Values behind a stack -/

variable {t : OptionTable} {c : Config} {style : OptionStyle} {stack text : String} {n : Nat}
  {values : List String}

theorem getLastD_eq_sum_iff (l : List Nat) : l.getLastD 0 = l.sum ↔ ∀ m ∈ l.dropLast, m = 0 := by
  rcases List.eq_nil_or_concat l with rfl | ⟨init, last, rfl⟩
  · simp
  · simp [List.sum_eq_zero_iff]

theorem tokensOf_values (hv : "--" ∉ values) (rest : List String) :
    tokensOf t c values.length (values ++ rest) =
      (tokensOf t c 0 rest).map (values.map (Token.mk · .value) ++ ·) := by
  induction values with
  | nil => cases hrest : tokensOf t c 0 rest <;> simp [Except.map, hrest]
  | cons v values ih =>
    rw [List.mem_cons, not_or] at hv
    rw [List.length_cons, List.cons_append, tokensOf_value (Ne.symm hv.1), ih hv.2]
    cases tokensOf t c 0 rest <;> rfl

/-- A stack reserves as many arguments as the last of its options that takes values, and these
arguments are values whatever they look like. That is as many as all options take together if
the others need none, as where values can be attached or flags cannot be combined. -/
theorem stack_reserves_last (hl : looksLikeOption stack = true) (hw : style.readsWhole stack = false)
    (h : t.normalize style stack = .ok (text, n)) :
    let counts := t.stackCounts style (stack.toList.drop 1)
    text = stack ∧ n = counts.getLastD 0 ∧ (n = counts.sum ↔ ∀ m ∈ counts.dropLast, m = 0) ∧
    (style.attached = true ∨ style.combined = false → n = counts.sum) ∧
    ∀ c : Config, c.style = style → ∀ values : List String, values.length = n → "--" ∉ values → ∀ rest,
      tokensOf t c 0 (stack :: (values ++ rest)) =
        (tokensOf t c 0 rest).map (⟨stack, .flag⟩ :: values.map (Token.mk · .value) ++ ·) := by
  intro counts
  cases OptionTable.normalize_eq_ok_iff.mp h with
  | whole hw' | assigned hw' => simp [hw] at hw'
  | stack _ hs =>
    have hn : n = counts.getLastD 0 := OptionTable.getLastD_stackCounts (fun _ => rfl) hs
    have hsum : n = counts.sum ↔ ∀ m ∈ counts.dropLast, m = 0 := by rw [hn, getLastD_eq_sum_iff]
    refine ⟨rfl, hn, hsum, fun hone => hsum.mpr ?_, ?_⟩
    · have hlength : counts.length ≤ 1 := OptionTable.length_stackCounts_le_one hone
      have hnil : counts.dropLast = [] := List.eq_nil_of_length_eq_zero (by
        rw [List.length_dropLast]
        exact Nat.sub_eq_zero_of_le hlength)
      simp [hnil]
    · rintro c rfl values rfl hv rest
      rw [tokensOf_flag hl h, tokensOf_values hv]
      cases tokensOf t c 0 rest <;> rfl

/-- Two values for `-m`, of which the second one looks like a stack. -/
theorem stack_of_one_value_reserves_all :
    let t : OptionTable := ⟨[("-v", none), ("-m", some 2)]⟩
    let c : Config := { attachedShortValues := false }
    t.stackCounts c.style ['v', 'm'] = [2] ∧ t.normalize c.style "-vm" = .ok ("-vm", 2) ∧
      tokensOf t c 0 ("-vm" :: (["-", "-x"] ++ ["y"])) =
        (tokensOf t c 0 ["y"]).map ([⟨"-vm", .flag⟩, ⟨"-", .value⟩, ⟨"-x", .value⟩] ++ ·) := by
  intro t c
  have hn : t.normalize c.style "-vm" = .ok ("-vm", 2) := by decide +kernel
  obtain ⟨-, -, -, -, hvalues⟩ := stack_reserves_last (by decide +kernel) (by decide +kernel) hn
  exact ⟨by decide +kernel, hn, hvalues c rfl ["-", "-x"] rfl (by decide) ["y"]⟩

/-- Of the two arguments that `-a` and `-b` take, the second one is taken for an option. -/
theorem earlier_values_are_forgotten :
    let t : OptionTable := ⟨[("-a", some 1), ("-b", some 1)]⟩
    let c : Config := { attachedShortValues := false }
    t.normalize c.style "-ab" = .ok ("-ab", 1) ∧ (t.stackCounts c.style ['a', 'b']).sum = 2 ∧
      Argv.tokenize ["-ab", "-1", "-2"] t c = .error (.unknownOption "-2" "-2") := by
  decide +kernel

end Synopsis
