import Synopsis.Proofs.Matcher.Gathering
import Synopsis.Proofs.Matcher.Required

/-! # Positionals in a row

A pass over commands and arguments goes through the front of a stream: each of them takes
the next token if it can. The last one that takes a token bars those before it from then
on, so a later pass goes on behind it.
-/

namespace Synopsis

variable {p : Positional} {ps : List Positional} {s t u v : Attempt} {x : Token} {ts : List Token}
  {i : Nat}

/-! ## One token -/

/-- Where the next positional is, the marks of a stream do not matter. -/
theorem Argv.positional_snd_congr {a b : Argv} (ht : b.tokens = a.tokens)
    (hd : b.autoDashes = a.autoDashes) : b.positional.2 = a.positional.2 := by
  unfold positional checkDash
  rw [ht]
  cases a.tokens with
  | nil => rfl
  | cons t ts =>
    cases h : t.isDoubleDash with
    | false => simp [h]
    | true => simp [h, hd]

namespace Positional

/-- The token that a command or an argument can take, and the tokens that it leaves. -/
def sees (p : Positional) (s : Attempt) : Option (Token × List Token) :=
  s.argv.positional.2.bind fun place => s.argv.tokens[place]?.bind fun x =>
    if p.accepts place x then some (x, s.argv.tokens.eraseIdx place) else none

/-- The attempt once a token was taken. -/
def took (p : Positional) (s : Attempt) (x : Token) (ts : List Token) : Attempt :=
  ⟨s.slots.modify p.slot (p.record false x.text), { s.argv with tokens := ts }⟩

theorem sees_congr (h : Level s t) : p.sees t = p.sees s := by
  rw [sees, sees, h.tokens_eq, Argv.positional_snd_congr h.tokens_eq h.autoDashes]

theorem took_level (h : Level s t) : Level (p.took s x ts) (p.took t x ts) :=
  ⟨rfl, h.style, h.autoDashes, False.elim, False.elim, h.slots.modify (Set.notMem_empty _) _⟩

theorem get_took_of_ne (h : i ≠ p.slot) : (p.took s x ts).slots.get i = s.slots.get i := by
  rw [took, Slots.modify, Slots.get_set, if_neg h]

/-- A command or an argument that is free to take a token. -/
theorem run_eq (hfree : p.isFilled s.slots = false) (ho : s.argv.optionOnly = false) :
    p.run false s = match p.sees s with
      | some (x, ts) => .ok true ⟨s.slots.modify p.slot (p.record false x.text),
          { s.argv.positional.1 with tokens := ts }⟩
      | none => .ok false { s with argv := s.argv.positional.1 } := by
  simp only [run, MatchM.slots_bind, hfree, MatchM.argv_bind, ho, take, MatchM.setArgv_bind, sees,
    Argv.positional_tokens, Bool.not_false, Bool.and_false, Bool.false_eq_true, if_false]
  cases s.argv.positional.2 with
  | none => rfl
  | some place =>
    cases hx : s.argv.tokens[place]? with
    | none => simp [hx]
    | some x =>
      cases ha : p.accepts place x with
      | false => simp [hx, ha]
      | true =>
        simp only [hx, Option.bind_some, ha, Bool.not_true, Bool.false_eq_true, if_false, if_true,
          MatchM.modifySlot_bind, MatchM.setArgv_bind, Argv.remove, Argv.positional_tokens]
        rfl

theorem run_of_sees (hfree : p.isFilled s.slots = false) (ho : s.argv.optionOnly = false)
    (h : p.sees s = some (x, ts)) :
    ∃ t, p.run false s = .ok true t ∧ Level (p.took s x ts) t := by
  rw [run_eq hfree ho, h]
  refine ⟨_, rfl, rfl, ?_, ?_, False.elim, False.elim, .refl _⟩
  · rw [Argv.positional_eq]; rfl
  · rw [Argv.positional_eq]; rfl

theorem run_of_sees_none (hfree : p.isFilled s.slots = false) (ho : s.argv.optionOnly = false)
    (h : p.sees s = none) : ∃ t, p.run false s = .ok false t ∧ Level s t := by
  rw [run_eq hfree ho, h]
  refine ⟨_, rfl, ?_, ?_, ?_, False.elim, False.elim, .refl _⟩
  · exact s.argv.positional_tokens
  · rw [Argv.positional_eq]
  · rw [Argv.positional_eq]

theorem sees_eq_none_of_isEmpty (h : s.argv.isEmpty = true) : p.sees s = none := by
  rw [sees, List.isEmpty_iff.mp h]
  cases s.argv.positional.2 <;> rfl

/-- Without an end of the options in front, the first token is the one that counts. -/
theorem sees_of_tokens (h : s.argv.tokens = x :: ts) (hx : x.isDoubleDash = false) :
    p.sees s = if p.accepts 0 x then some (x, ts) else none := by
  have hplace : s.argv.positional.2 = some 0 := by simp [Argv.positional, h, hx]
  rw [sees, hplace, h]
  rfl

theorem plain_of_accepts (h : p.accepts 0 x = true) (hx : x.isDoubleDash = false) : x.Plain := by
  refine ⟨hx, fun hk => ?_⟩
  cases p with
  | command leaf =>
    simp only [accepts, Bool.and_eq_true, Bool.not_eq_true'] at h
    exact h.2
  | argument leaf => simpa [accepts, hk] using h

theorem sees_cases (h : p.sees s = some (x, ts)) :
    (s.argv.tokens = x :: ts ∧ x.Plain ∧ p.accepts 0 x = true) ∨
      ∃ d rest, s.argv.autoDashes = true ∧ d.isDoubleDash = true ∧ s.argv.tokens = d :: x :: rest ∧
        ts = d :: rest := by
  cases htokens : s.argv.tokens with
  | nil =>
    rw [sees_eq_none_of_isEmpty (List.isEmpty_iff.mpr htokens)] at h
    cases h
  | cons d rest =>
    cases hd : d.isDoubleDash with
    | false =>
      rw [sees_of_tokens htokens hd, Option.ite_none_right_eq_some] at h
      obtain ⟨ha, h⟩ := h
      obtain ⟨rfl, rfl⟩ := Prod.mk.inj (Option.some.inj h)
      exact .inl ⟨rfl, plain_of_accepts ha hd, ha⟩
    | true =>
      have hplace : s.argv.positional.2 = if s.argv.autoDashes then some 1 else none := by
        simp [Argv.positional, Argv.checkDash, htokens, hd]
      rw [sees, hplace, htokens] at h
      cases hauto : s.argv.autoDashes with
      | false =>
        rw [hauto] at h
        cases h
      | true =>
        cases rest with
        | nil =>
          rw [hauto] at h
          cases h
        | cons y rest =>
          rw [hauto] at h
          obtain ⟨-, h⟩ := Option.ite_none_right_eq_some.mp h
          obtain ⟨rfl, rfl⟩ := Prod.mk.inj (Option.some.inj h)
          exact .inr ⟨d, rest, rfl, hd, rfl, rfl⟩

end Positional

/-! ## A pass -/

/-- What a pass over commands and arguments comes to: those behind the last one that takes
a token, and the attempt once all of them were tried. -/
def advance : List Positional → Attempt → List Positional × Attempt
  | [], s => ([], s)
  | p :: ps, s =>
    match p.sees s with
    | some (x, ts) => advance ps (p.took s x ts)
    | none => if (advance ps s).1 = ps then (p :: ps, s) else advance ps s

theorem advance_of_sees (h : p.sees s = some (x, ts)) :
    advance (p :: ps) s = advance ps (p.took s x ts) := by
  rw [advance, h]

theorem advance_of_sees_none (h : p.sees s = none) :
    advance (p :: ps) s = if (advance ps s).1 = ps then (p :: ps, s) else advance ps s := by
  rw [advance, h]

theorem advance_suffix (ps : List Positional) (s : Attempt) : (advance ps s).1 <:+ ps := by
  induction ps generalizing s with
  | nil => exact List.suffix_rfl
  | cons p ps ih =>
    cases h : p.sees s with
    | some r =>
      rw [advance_of_sees h]
      exact (ih _).trans (List.suffix_cons p ps)
    | none =>
      rw [advance_of_sees_none h]
      split
      · exact List.suffix_rfl
      · exact (ih s).trans (List.suffix_cons p ps)

theorem advance_ne_cons (p : Positional) (ps : List Positional) (s : Attempt) :
    (advance ps s).1 ≠ p :: ps := by
  intro h
  have hle := (advance_suffix ps s).length_le
  rw [h, List.length_cons] at hle
  omega

/-- If the last positional that takes a token is none, nothing is taken. -/
theorem advance_eq_of_fst (h : (advance ps s).1 = ps) : advance ps s = (ps, s) := by
  cases ps with
  | nil => rfl
  | cons p ps =>
    cases hsees : p.sees s with
    | some r =>
      rw [advance_of_sees hsees] at h
      exact absurd h (advance_ne_cons p ps _)
    | none =>
      rw [advance_of_sees_none hsees] at h ⊢
      split at h
      next hrest => rw [if_pos hrest]
      next => exact absurd h (advance_ne_cons p ps s)

theorem advance_eq_of_sees (h : ∀ p ∈ ps, p.sees s = none) : advance ps s = (ps, s) := by
  induction ps with
  | nil => rfl
  | cons p ps ih =>
    obtain ⟨hp, hps⟩ := List.forall_mem_cons.mp h
    rw [advance_of_sees_none hp, ih hps, if_pos rfl]

/-- Nothing is left to take behind the last positional that takes a token. -/
theorem sees_advance : ∀ p ∈ (advance ps s).1, p.sees (advance ps s).2 = none := by
  induction ps generalizing s with
  | nil => exact nofun
  | cons p ps ih =>
    cases hsees : p.sees s with
    | some r =>
      rw [advance_of_sees hsees]
      exact ih
    | none =>
      rw [advance_of_sees_none hsees]
      split
      next hrest =>
        have hps := ih (s := s)
        rw [advance_eq_of_fst hrest] at hps
        exact List.forall_mem_cons.mpr ⟨hsees, hps⟩
      next => exact ih

theorem advance_congr (ps : List Positional) (h : Level s t) :
    (advance ps t).1 = (advance ps s).1 ∧ Level (advance ps s).2 (advance ps t).2 := by
  induction ps generalizing s t with
  | nil => exact ⟨rfl, h⟩
  | cons p ps ih =>
    have ht := p.sees_congr h
    cases hsees : p.sees s with
    | some r =>
      rw [advance_of_sees hsees, advance_of_sees (ht.trans hsees)]
      exact ih (p.took_level h)
    | none =>
      obtain ⟨hfst, hlevel⟩ := ih h
      rw [advance_of_sees_none hsees, advance_of_sees_none (ht.trans hsees), hfst]
      split
      · exact ⟨rfl, h⟩
      · exact ⟨hfst, hlevel⟩

/-- Only the slots of positionals that take a token change. -/
theorem get_advance (hd : (ps.map (·.slot)).Nodup)
    (hi : ∀ p ∈ ps, p.slot = i → p ∈ (advance ps s).1) :
    (advance ps s).2.slots.get i = s.slots.get i := by
  induction ps generalizing s with
  | nil => rfl
  | cons p ps ih =>
    obtain ⟨hp, hps⟩ := List.nodup_cons.mp hd
    obtain ⟨hip, hips⟩ := List.forall_mem_cons.mp hi
    cases hsees : p.sees s with
    | some r =>
      rw [advance_of_sees hsees] at hip hips ⊢
      have hne : i ≠ p.slot := by
        rintro rfl
        exact hp (List.mem_map_of_mem ((advance_suffix ps _).mem (hip rfl)))
      rw [ih hps hips, p.get_took_of_ne hne]
    | none =>
      rw [advance_of_sees_none hsees] at hip hips ⊢
      split
      · rfl
      next hrest =>
        rw [if_neg hrest] at hips
        exact ih hps hips

/-- A positional behind the last one that takes a token keeps its slot. -/
theorem get_advance_of_mem (hd : (ps.map (·.slot)).Nodup) (hp : p ∈ (advance ps s).1) :
    (advance ps s).2.slots.get p.slot = s.slots.get p.slot :=
  get_advance hd fun _ hq he =>
    List.inj_on_of_nodup_map hd hq ((advance_suffix ps s).mem hp) he ▸ hp

theorem advance_rules : (advance ps s).2.argv.style = s.argv.style ∧
    (advance ps s).2.argv.autoDashes = s.argv.autoDashes := by
  induction ps generalizing s with
  | nil => exact ⟨rfl, rfl⟩
  | cons p ps ih =>
    cases hsees : p.sees s with
    | some r =>
      rw [advance_of_sees hsees]
      exact ih
    | none =>
      rw [advance_of_sees_none hsees]
      split
      · exact ⟨rfl, rfl⟩
      · exact ih

theorem Positional.size_took_lt (h : p.sees s = some (x, ts)) :
    (p.took s x ts).argv.size < s.argv.size := by
  rw [Argv.size_eq_total, Argv.size_eq_total]
  rcases sees_cases h with ⟨htokens, -⟩ | ⟨d, rest, -, -, htokens, rfl⟩
  · simp only [took, htokens, Token.total_cons]
    omega
  · simp only [took, htokens, Token.total_cons]
    omega

theorem advance_eq_or_size_lt (ps : List Positional) (s : Attempt) :
    advance ps s = (ps, s) ∨ (advance ps s).2.argv.size < s.argv.size := by
  induction ps generalizing s with
  | nil => exact .inl rfl
  | cons p ps ih =>
    cases hsees : p.sees s with
    | some r =>
      obtain ⟨x, ts⟩ := r
      have hless := Positional.size_took_lt hsees
      rw [advance_of_sees hsees]
      rcases ih (p.took s x ts) with h | h
      · rw [h]
        exact .inr hless
      · exact .inr (Nat.lt_trans h hless)
    | none =>
      rw [advance_of_sees_none hsees]
      split
      · exact .inl rfl
      next hrest =>
        rcases ih s with h | h
        · exact absurd (congrArg Prod.fst h) hrest
        · exact .inr h

/-! ## What was passed over -/

/-- The options end at the front of the stream. -/
def Attempt.AtDashes (s : Attempt) : Prop :=
  s.argv.autoDashes = true ∧ ∃ d rest, s.argv.tokens = d :: rest ∧ d.isDoubleDash = true

theorem Attempt.AtDashes.sees (h : s.AtDashes) (hsees : p.sees s = some (x, ts)) :
    (p.took s x ts).AtDashes := by
  obtain ⟨hauto, d, rest, htokens, hd⟩ := h
  rcases Positional.sees_cases hsees with ⟨h, hx, -⟩ | ⟨d', rest', -, hd', h, rfl⟩
  · obtain ⟨rfl, -⟩ := List.cons.inj (htokens.symm.trans h)
    rw [hx.1] at hd
    cases hd
  · exact ⟨hauto, d', rest', rfl, hd'⟩

theorem Attempt.AtDashes.advance (h : s.AtDashes) (ps : List Positional) :
    (advance ps s).2.AtDashes := by
  induction ps generalizing s with
  | nil => exact h
  | cons p ps ih =>
    cases hsees : p.sees s with
    | some r =>
      rw [advance_of_sees hsees]
      exact ih (h.sees hsees)
    | none =>
      rw [advance_of_sees_none hsees]
      split
      · exact h
      · exact ih h

/-- If a pass comes to the end of the options, there are no options in front of it. -/
theorem exists_front_of_atDashes (h : (advance ps s).2.AtDashes) : ∃ front d rest,
    (∀ x ∈ front, x.Plain) ∧ s.argv.tokens = front ++ d :: rest ∧ d.isDoubleDash = true := by
  induction ps generalizing s with
  | nil =>
    obtain ⟨-, d, rest, htokens, hd⟩ := h
    exact ⟨[], d, rest, nofun, htokens, hd⟩
  | cons p ps ih =>
    cases hsees : p.sees s with
    | some r =>
      obtain ⟨x, ts⟩ := r
      rw [advance_of_sees hsees] at h
      obtain ⟨front, d, rest, hfront, htokens, hd⟩ := ih h
      obtain rfl : ts = front ++ d :: rest := htokens
      rcases Positional.sees_cases hsees with ⟨h, hx, -⟩ | ⟨d', rest', -, hd', h, -⟩
      · exact ⟨x :: front, d, rest, List.forall_mem_cons.mpr ⟨hx, hfront⟩, h, hd⟩
      · exact ⟨[], d', x :: rest', nofun, h, hd'⟩
    | none =>
      rw [advance_of_sees_none hsees] at h
      split at h
      · obtain ⟨-, d, rest, htokens, hd⟩ := h
        exact ⟨[], d, rest, nofun, htokens, hd⟩
      · exact ih h

theorem barren_of_atDashes (h : (advance ps s).2.AtDashes) : s.argv.Barren := by
  obtain ⟨front, d, rest, hfront, htokens, hd⟩ := exists_front_of_atDashes h
  exact Argv.barren_of_ended htokens hfront hd (advance_rules.2 ▸ h.1)

/-- A pass takes tokens off the front. With other tokens behind these, another pass takes
them as well, and goes on like one that begins there. -/
theorem advance_behind {P : Set Nat} (hP : ∀ p ∈ ps, p.slot ∈ P) (hend : ¬ (advance ps s).2.AtDashes) :
    ∃ front, (∀ x ∈ front, x.Plain) ∧ s.argv.tokens = front ++ (advance ps s).2.argv.tokens ∧
      ∀ u v, Fronted front False P v u → (∀ i ∈ P, u.slots.get i = s.slots.get i) →
        (∀ i ∈ P, v.slots.get i = (advance ps s).2.slots.get i) →
        (advance ps u).1 = (advance (advance ps s).1 v).1 ∧
          Level (advance (advance ps s).1 v).2 (advance ps u).2 := by
  induction ps generalizing s with
  | nil => exact ⟨[], List.forall_mem_nil _, rfl, fun u v h hu hv =>
      ⟨rfl, h.level fun i hi => (hu i hi).trans (hv i hi).symm⟩⟩
  | cons p ps ih =>
    obtain ⟨hp, hps⟩ := List.forall_mem_cons.mp hP
    cases hsees : p.sees s with
    | some r =>
      obtain ⟨x, ts⟩ := r
      rw [advance_of_sees hsees] at hend ⊢
      obtain ⟨front, hfront, htokens, hbehind⟩ := ih hps hend
      rcases Positional.sees_cases hsees with ⟨h, hx, ha⟩ | ⟨d, rest, hauto, hd, h, -⟩
      · refine ⟨x :: front, List.forall_mem_cons.mpr ⟨hx, hfront⟩, ?_, fun u v huv hu hv => ?_⟩
        · rw [h, List.cons_append]
          exact congrArg _ htokens
        · have husees : p.sees u = some (x, front ++ v.argv.tokens) := by
            rw [Positional.sees_of_tokens huv.tokens hx.1, if_pos ha]
            rfl
          rw [advance_of_sees husees]
          refine hbehind _ v ⟨rfl, huv.style, huv.autoDashes, False.elim, False.elim, fun i hi => ?_⟩
            (fun i hi => ?_) hv
          · rw [p.get_took_of_ne (ne_of_mem_of_not_mem hp hi).symm, huv.slots i hi]
          · simp only [Positional.took, Slots.modify, Slots.get_set, hu i hi, hu _ hp]
      · exact absurd ((Attempt.AtDashes.sees ⟨hauto, d, x :: rest, h, hd⟩ hsees).advance ps) hend
    | none =>
      rw [advance_of_sees_none hsees] at hend ⊢
      split
      next hrest =>
        exact ⟨[], List.forall_mem_nil _, rfl, fun u v h hu hv =>
          advance_congr _ (h.level fun i hi => (hu i hi).trans (hv i hi).symm)⟩
      next hrest =>
        rw [if_neg hrest] at hend
        obtain ⟨front, hfront, htokens, hbehind⟩ := ih hps hend
        refine ⟨front, hfront, htokens, fun u v huv hu hv => ?_⟩
        obtain ⟨hfst, hlevel⟩ := hbehind u v huv hu hv
        -- Some token was taken, and it is in front in both streams.
        have hne : front ≠ [] := by
          rintro rfl
          rcases advance_eq_or_size_lt ps s with h | h
          · exact hrest (congrArg Prod.fst h)
          · rw [Argv.size_eq_total, Argv.size_eq_total, htokens] at h
            exact Nat.lt_irrefl _ h
        obtain ⟨x, front, rfl⟩ := List.exists_cons_of_ne_nil hne
        have hx := (hfront x List.mem_cons_self).1
        have husees : p.sees u = none := by
          rw [Positional.sees_of_tokens htokens hx, ite_eq_right_iff] at hsees
          rw [Positional.sees_of_tokens huv.tokens hx, ite_eq_right_iff]
          exact fun ha => absurd (hsees ha) (Option.some_ne_none _)
        have hurest : (advance ps u).1 ≠ ps := by
          intro h
          have hle := (advance_suffix (advance ps s).1 v).length_le
          rw [← hfst, h] at hle
          exact hrest ((advance_suffix ps s).eq_of_length_le hle)
        rw [advance_of_sees_none husees, if_neg hurest]
        exact ⟨hfst, hlevel⟩

end Synopsis
