import Mathlib.Data.List.Basic
import Synopsis.Proofs.Argv.Tokenized
import Synopsis.Proofs.Grammar.Values

/-! # Arguments one after the other

What stands in front of a flag is tokenized by itself, whatever follows. How the flag is
tokenized, with what is attached to it, depends on its name only.
-/

namespace Synopsis

namespace Text

variable {cs rest : List Char} {text a b : String}

theorem cutAt?_eq_none (h : '=' ∉ cs) : cutAt? ['='] cs = none := by
  induction cs with
  | nil => rfl
  | cons c cs ih =>
    rw [List.mem_cons, not_or] at h
    simp [cutAt?, dropPrefix?, h.1, ih h.2]

theorem cutAt?_append (h : '=' ∉ cs) : cutAt? ['='] (cs ++ '=' :: rest) = some (cs, rest) := by
  induction cs with
  | nil => simp [cutAt?, dropPrefix?]
  | cons c cs ih =>
    rw [List.mem_cons, not_or] at h
    simp [cutAt?, dropPrefix?, h.1, ih h.2]

theorem cutString?_eq_none (h : '=' ∉ text.toList) : cutString? "=" text = none := by
  have hmark : "=".toList = ['='] := by simp
  rw [cutString?, hmark, cutAt?_eq_none h, Option.map_none]

theorem cutString?_append (h : '=' ∉ a.toList) : cutString? "=" (a ++ "=" ++ b) = some (a, b) := by
  have hmark : "=".toList = ['='] := by simp
  have htext : (a ++ "=" ++ b).toList = a.toList ++ '=' :: b.toList := by simp
  rw [cutString?, hmark, htext, cutAt?_append h]
  simp

end Text

/-! ## Arguments in front of a flag -/

variable {t : OptionTable} {c : Config} {arg name v : String} {ts : List Token} {wanted : Nat}

/-- An argument that is tokenized as a flag does not wait to be a value. -/
theorem tokensOf_flag (ha : looksLikeOption arg = true) (hn : t.normalize c.style arg = .ok (name, wanted))
    (rest : List String) :
    tokensOf t c 0 (arg :: rest) = (tokensOf t c wanted rest).map (⟨name, .flag⟩ :: ·) := by
  have hne : (arg == "--") = false := by
    simp only [looksLikeOption, Bool.and_eq_true, bne_iff_ne] at ha
    exact beq_false_of_ne ha.2
  simp only [tokensOf, Nat.lt_irrefl, decide_false, Bool.false_and, Bool.false_eq_true, if_false, hne, ha,
    if_true, hn]
  rfl

/-- An argument behind a flag that wants a value. -/
theorem tokensOf_value {n : Nat} (hv : v ≠ "--") (rest : List String) :
    tokensOf t c (n + 1) (v :: rest) = (tokensOf t c n rest).map (⟨v, .value⟩ :: ·) := by
  simp only [tokensOf, Nat.zero_lt_succ, decide_true, Bool.true_and, bne_iff_ne, ne_eq, hv,
    not_false_eq_true, if_true, Nat.add_sub_cancel]
  rfl

/-- What becomes of one argument, given how many values are pending. -/
inductive ArgumentStep (t : OptionTable) (c : Config) (pending : Nat) (arg : String) : Prop
  | fails (e : MatchError) (h : ∀ rest, tokensOf t c pending (arg :: rest) = .error e)
  | ends (h : ∀ rest, ∃ (d : Token) (args : List String), d.kind = .doubleDash ∧
      args.length ≤ rest.length + 1 ∧
      tokensOf t c pending (arg :: rest) = .ok (d :: args.map (Token.mk · .literal)))
  | goes (x : Token) (wanted : Nat) (hx : x.isDoubleDash = false)
      (hflag : x.kind = .flag → pending = 0 ∧ looksLikeOption arg = true ∧
        t.normalize c.style arg = .ok (x.text, wanted))
      (h : ∀ rest, tokensOf t c pending (arg :: rest) = (tokensOf t c wanted rest).map (x :: ·))

theorem argumentStep (t : OptionTable) (c : Config) (pending : Nat) (arg : String) :
    ArgumentStep t c pending arg := by
  by_cases hvalue : (decide (pending > 0) && arg != "--") = true
  · refine .goes ⟨arg, .value⟩ (pending - 1) rfl (by simp) fun rest => ?_
    rw [tokensOf, if_pos hvalue]
    rfl
  by_cases hdash : (arg == "--" && c.honorsDoubleDash) = true
  · refine .ends fun rest => ⟨⟨arg, .doubleDash⟩, rest, rfl, Nat.le_succ _, ?_⟩
    rw [tokensOf, if_neg hvalue, if_pos hdash]
    rfl
  by_cases hopt : looksLikeOption arg = true
  · cases hn : t.normalize c.style arg with
    | error e =>
      refine .fails e fun rest => ?_
      rw [tokensOf, if_neg hvalue, if_neg hdash, if_pos hopt, hn]
      rfl
    | ok r =>
      have hzero : pending = 0 := by
        have hne := hopt
        simp only [looksLikeOption, Bool.and_eq_true, bne_iff_ne] at hne
        simpa [hne.2] using hvalue
      refine .goes ⟨r.1, .flag⟩ r.2 rfl (fun _ => ⟨hzero, hopt, hn⟩) fun rest => ?_
      rw [tokensOf, if_neg hvalue, if_neg hdash, if_pos hopt, hn]
      rfl
  by_cases hfirst : c.optionsFirst = true
  · refine .ends fun rest => ⟨⟨"--", .doubleDash⟩, arg :: rest, rfl, Nat.le_refl _, ?_⟩
    rw [tokensOf, if_neg hvalue, if_neg hdash, if_neg hopt, if_pos hfirst]
  · refine .goes ⟨arg, .word⟩ 0 rfl (by simp) fun rest => ?_
    rw [tokensOf, if_neg hvalue, if_neg hdash, if_neg hopt, if_neg hfirst]
    rfl

theorem tokensOf_cons_ne_nil {pending : Nat} {rest : List String}
    (h : tokensOf t c pending (arg :: rest) = .ok ts) : ts ≠ [] := by
  rintro rfl
  cases argumentStep t c pending arg with
  | fails e hstep => cases (hstep rest).symm.trans h
  | ends hstep =>
    obtain ⟨d, args, -, -, hd⟩ := hstep rest
    cases hd.symm.trans h
  | goes x wanted hx hflag hstep =>
    rw [hstep] at h
    cases hus : tokensOf t c wanted rest with
    | error => cases (hus ▸ h : Except.map _ (.error _) = .ok [])
    | ok => cases (hus ▸ h : Except.map _ (.ok _) = .ok [])

/-- The last of some arguments became a flag. What follows it does not matter for the tokens in
front of it. -/
theorem exists_front_of_tokensOf {pending : Nat} {pre : List String}
    (h : tokensOf t c pending (pre ++ [arg]) = .ok ts) (hlast : ts.getLast? = some ⟨name, .flag⟩) :
    looksLikeOption arg = true ∧ (∃ wanted, t.normalize c.style arg = .ok (name, wanted)) ∧
      ∃ front, (∀ x ∈ front, x.isDoubleDash = false) ∧ ∀ rest,
        tokensOf t c pending (pre ++ rest) = (tokensOf t c 0 rest).map (front ++ ·) := by
  -- Behind an end of the options, there are no flags.
  have literal {d : Token} {args : List String} (hd : d.kind = .doubleDash)
      (h : (d :: args.map (Token.mk · .literal)).getLast? = some ⟨name, .flag⟩) : False := by
    rcases List.mem_cons.mp (List.mem_of_getLast? h) with rfl | hmem
    · cases hd
    · obtain ⟨_, -, he⟩ := List.mem_map.mp hmem
      cases he
  induction pre generalizing pending ts with
  | nil =>
    cases argumentStep t c pending arg with
    | fails e hstep => cases (hstep []).symm.trans h
    | ends hstep =>
      obtain ⟨d, args, hd, -, heq⟩ := hstep []
      obtain rfl := Except.ok.inj (heq.symm.trans h)
      exact (literal hd hlast).elim
    | goes x wanted hx hflag hstep =>
      obtain rfl := Except.ok.inj ((hstep []).symm.trans h)
      obtain rfl := Option.some.inj hlast
      obtain ⟨rfl, hopt, hn⟩ := hflag rfl
      refine ⟨hopt, ⟨wanted, hn⟩, [], nofun, fun rest => ?_⟩
      cases hrest : tokensOf t c 0 rest <;> simp [Except.map, hrest]
  | cons x pre ih =>
    cases argumentStep t c pending x with
    | fails e hstep => cases (hstep _).symm.trans h
    | ends hstep =>
      obtain ⟨d, args, hd, -, heq⟩ := hstep (pre ++ [arg])
      obtain rfl := Except.ok.inj (heq.symm.trans h)
      exact (literal hd hlast).elim
    | goes y wanted hy hflag hstep =>
      rw [List.cons_append, hstep] at h
      cases hus : tokensOf t c wanted (pre ++ [arg]) with
      | error e => cases (hus ▸ h : Except.map _ (.error e) = .ok ts)
      | ok us =>
        obtain rfl := Except.ok.inj (hus ▸ h : Except.map _ (.ok us) = .ok ts)
        have hne : us ≠ [] := by
          cases pre with
          | nil => exact tokensOf_cons_ne_nil hus
          | cons => exact tokensOf_cons_ne_nil hus
        rw [List.getLast?_cons_of_ne_nil hne] at hlast
        obtain ⟨hopt, hn, front, hfront, hrest⟩ := ih hus hlast
        refine ⟨hopt, hn, y :: front, List.forall_mem_cons.mpr ⟨hy, hfront⟩, fun rest => ?_⟩
        rw [List.cons_append, hstep, hrest]
        cases tokensOf t c 0 rest <;> rfl

end Synopsis
