import Synopsis.Proofs.Matcher.Ahead

/-! # Arguments that take plain words

A group of arguments, in brackets or not, takes plain words off the front of a stream: its
slots are filled from left to right. That holds if there are enough words, and also if there
are not, as long as no two arguments have to match together. Once all slots are filled, or no
words are left, the group changes nothing.
-/

namespace Synopsis

open Pattern (slots)

variable {front ts us : List Token} {s t : Attempt} {x : Token} {is js : List Nat}
  {ws : List String} {σ τ : Slots} {i j n : Nat} {scope : Scope}

/-! ## Plain words -/

/-- Plain words, at most behind a mark of the end of the options. -/
structure Attempt.Words (front ts : List Token) (s : Attempt) : Prop where
  tokens : s.argv.tokens = front ++ ts
  front : front = [] ∨ ∃ d, front = [d] ∧ d.isDoubleDash = true ∧ s.argv.autoDashes = true
  plain : ∀ x ∈ ts, x.isDoubleDash = false ∧ looksLikeOption x.text = false

namespace Attempt.Words

theorem congr (h : s.Words front ts) (ht : Level s t) : t.Words front ts where
  tokens := ht.tokens_eq.trans h.tokens
  front := by
    rcases h.front with hnil | ⟨d, hd, hdash, hauto⟩
    · exact .inl hnil
    · exact .inr ⟨d, hd, hdash, ht.autoDashes.trans hauto⟩
  plain := h.plain

theorem drop (h : s.Words front ts) (σ : Slots) (k : Nat) :
    Attempt.Words front (ts.drop k) ⟨σ, { s.argv with tokens := front ++ ts.drop k }⟩ where
  tokens := rfl
  front := h.front
  plain x hx := h.plain x (List.mem_of_mem_drop hx)

theorem sees_nil (h : s.Words front []) (p : Positional) : p.sees s = none := by
  rw [Positional.sees, h.tokens, List.append_nil]
  rcases h.front with rfl | ⟨d, rfl, hd, hauto⟩
  · cases s.argv.positional.2 <;> rfl
  · have hplace : s.argv.positional.2 = some 1 := by
      simp [Argv.positional, Argv.checkDash, h.tokens, hd, hauto]
    rw [hplace]
    rfl

theorem sees_cons (h : s.Words front (x :: ts)) (p : Positional) :
    p.sees s = if p.accepts front.length x then some (x, front ++ ts) else none := by
  rcases h.front with rfl | ⟨d, rfl, hd, hauto⟩
  · exact Positional.sees_of_tokens h.tokens (h.plain x List.mem_cons_self).1
  · have htokens : s.argv.tokens = d :: x :: ts := h.tokens
    have hplace : s.argv.positional.2 = some 1 := by
      simp [Argv.positional, Argv.checkDash, htokens, hd, hauto]
    rw [Positional.sees, hplace, htokens]
    rfl

theorem accepts_argument (h : s.Words front (x :: ts)) (leaf : Leaf) (place : Nat) :
    (Positional.argument leaf).accepts place x = true := by
  simp [Positional.accepts, (h.plain x List.mem_cons_self).2]

end Attempt.Words

/-! ## Slots from left to right -/

/-- The words fill some slots, as long as there are words and slots. -/
def Slots.fill : List Nat → List String → Slots → Slots
  | i :: is, w :: ws, σ => fill is ws (σ.set i (.text w))
  | _, _, σ => σ

namespace Slots

@[simp] theorem fill_nil (ws : List String) (σ : Slots) : fill [] ws σ = σ := rfl

@[simp] theorem fill_of_nil (is : List Nat) (σ : Slots) : fill is [] σ = σ := by
  cases is <;> rfl

theorem fill_append : fill (is ++ js) ws σ = fill js (ws.drop is.length) (fill is ws σ) := by
  induction is generalizing ws σ with
  | nil => rfl
  | cons i is ih =>
    cases ws with
    | nil => simp
    | cons w ws => exact ih

theorem get_fill_of_notMem (h : i ∉ is) : (fill is ws σ).get i = σ.get i := by
  induction is generalizing ws σ with
  | nil => rfl
  | cons j is ih =>
    cases ws with
    | nil => rfl
    | cons w ws =>
      rw [List.mem_cons, not_or] at h
      rw [fill, ih h.2, get_set_of_ne h.1]

theorem get_fill (hd : is.Nodup) (hi : is[j]? = some i) :
    (fill is ws σ).get i = (ws[j]?).elim (σ.get i) .text := by
  induction is generalizing ws σ j with
  | nil => cases hi
  | cons k is ih =>
    obtain ⟨hk, hd⟩ := List.nodup_cons.mp hd
    cases ws with
    | nil => rfl
    | cons w ws =>
      cases j with
      | zero =>
        obtain rfl := Option.some.inj hi
        rw [fill, get_fill_of_notMem hk, get_set_self]
        rfl
      | succ j =>
        have hne : i ≠ k := by
          rintro rfl
          exact hk (List.mem_of_getElem? hi)
        rw [fill, ih hd hi, get_set_of_ne hne]
        rfl

theorem fill_agree {H : Set Nat} (h : σ.Agree H τ) : (fill is ws σ).Agree H (fill is ws τ) := by
  induction is generalizing ws σ τ with
  | nil => exact h
  | cons i is ih =>
    cases ws with
    | nil => exact h
    | cons w ws =>
      refine ih fun k hk => ?_
      rw [get_set, get_set, h k hk]

end Slots

namespace Attempt

/-- The words behind the front fill some slots. -/
def fill (is : List Nat) (front ts : List Token) (s : Attempt) : Attempt :=
  ⟨s.slots.fill is (ts.map (·.text)), { s.argv with tokens := front ++ ts.drop is.length }⟩

theorem fill_level (h : Level s t) : Level (s.fill is front ts) (t.fill is front ts) :=
  ⟨rfl, h.style, h.autoDashes, False.elim, False.elim, Slots.fill_agree h.slots⟩

theorem fill_append : s.fill (is ++ js) front ts =
    (s.fill is front ts).fill js front (ts.drop is.length) := by
  simp [fill, Slots.fill_append, List.map_drop, List.drop_drop]

theorem fill_nil (h : s.Words front ts) : s.fill [] front ts = s := by
  simp [fill, ← h.tokens]

theorem fill_of_nil (h : s.Words front []) : s.fill is front [] = s := by
  simp [fill, ← h.tokens]

theorem fill_words (h : s.Words front ts) : (s.fill is front ts).Words front (ts.drop is.length) :=
  h.drop _ _

/-- Some slots are filled, or there are no words. -/
def Done (is : List Nat) (s : Attempt) : Prop :=
  (∀ i ∈ is, (s.slots.get i).hasText = true) ∨ ∃ front, s.Words front []

namespace Done

theorem congr (h : s.Done is) (ht : Level s t) : t.Done is := by
  rcases h with h | ⟨front, h⟩
  · refine .inl fun i hi => ?_
    rw [ht.get_eq]
    exact h i hi
  · exact .inr ⟨front, h.congr ht⟩

theorem mono (h : s.Done is) (hjs : ∀ j ∈ js, j ∈ is) : s.Done js :=
  h.imp_left fun h j hj => h j (hjs j hj)

end Done

theorem fill_done (h : s.Words front ts) (hd : is.Nodup) : (s.fill is front ts).Done is := by
  rcases Nat.le_total is.length ts.length with hle | hle
  · refine .inl fun i hi => ?_
    obtain ⟨j, hj⟩ := List.mem_iff_getElem?.mp hi
    have hlt := (List.getElem?_eq_some_iff.mp hj).1
    have hget : (s.fill is front ts).slots.get i = _ := Slots.get_fill hd hj
    rw [hget, List.getElem?_eq_getElem (by rw [List.length_map]; omega)]
    rfl
  · have hdrop := h.drop (s.slots.fill is (ts.map (·.text))) is.length
    rw [List.drop_eq_nil_of_le hle] at hdrop
    refine .inr ⟨front, ?_⟩
    rw [fill, List.drop_eq_nil_of_le hle]
    exact hdrop

end Attempt

/-! ## Arguments in brackets -/

/-- Arguments, in brackets or not. Of those that have to match together, there is a number
with a property. -/
inductive Pattern.Nest (P : Nat → Prop) : Pattern → Prop
  | argument {leaf : Leaf} : Nest P (.argument leaf)
  | optional {children : List Pattern} (h : ∀ c ∈ children, Nest P c) :
      Nest P (.group .optional children false)
  | required {children : List Pattern} (h : ∀ c ∈ children, Nest P c)
      (hs : P (slots children).length) : Nest P (.group .required children false)

variable {P Q : Nat → Prop} {p : Pattern} {ps : List Pattern}

namespace Pattern.Nest

theorem mono (h : p.Nest P) (hPQ : ∀ n, P n → Q n) : p.Nest Q := by
  induction h with
  | argument => exact .argument
  | optional _ ih => exact .optional ih
  | required _ hs ih => exact .required ih (hPQ _ hs)

theorem not_repeating (h : p.Nest P) : p.isRepeatingGroup = false := by
  cases h <;> rfl

/-- What holds no argument is in brackets. -/
theorem start_matched (h : p.Nest (0 < ·)) (hp : slots [p] = []) : (Scanned.start p).matched = true := by
  cases h with
  | argument => cases hp
  | optional => rfl
  | required _ hs =>
    rw [slots_group] at hp
    simp [hp] at hs

end Pattern.Nest

theorem all_start_matched (h : ∀ p ∈ ps, p.Nest (0 < ·)) (hps : slots ps = []) :
    (ps.map Scanned.start).all (·.matched) = true := by
  rw [List.all_map, List.all_eq_true]
  intro p hp
  refine (h p hp).start_matched (List.eq_nil_iff_forall_not_mem.mpr fun i hi => ?_)
  have hmem := Pattern.mem_slots_of_mem hp hi
  simp [hps] at hmem

/-- A run that does not go on for want of depth only. -/
abbrev MatchM.Runs {α : Type} (m : MatchM α) (s : Attempt) (ok : α → Attempt → Prop) : Prop :=
  m.Yields s ok fun e _ => e = .outOfFuel

section Lines

variable {run : Pattern → MatchM Bool} {line : List Pattern} {place : Nat} {last : Option Nat}
  {xs : List Scanned}

/-! ### Nothing to take -/

/-- A pass does not take back that a pattern has matched. -/
theorem scanPass_keeps_matched (h : xs.all (·.matched) = true) :
    (scanPass run place last xs).Yields s (fun r _ => r.2.all (·.matched) = true) fun _ _ => True := by
  induction xs generalizing place last s with
  | nil => exact h
  | cons x xs ih =>
    obtain ⟨hx, hxs⟩ := Bool.and_eq_true_iff.mp (List.all_cons ▸ h)
    simp only [scanPass, MatchM.yields_bind, MatchM.yields_argv]
    split
    · exact h
    · simp only [MatchM.yields_bind, MatchM.yields_setArgv]
      refine .intro (fun b t _ => ?_) fun _ _ _ => trivial
      cases b with
      | true | false =>
        refine MatchM.yields_bind.mpr ((ih hxs).mono (fun r u hr => ?_) fun _ _ _ => trivial)
        simp only [MatchM.yields_pure, List.all_cons, hr, hx, Bool.and_self]

/-- A line in which nothing has anything to take is passed over once, and nothing changes. -/
theorem idle_passes (hrun : ∀ c ∈ line, ∀ t, Level s t → (run c).Runs t fun _ u => Level t u)
    (hxs : xs.map (·.pattern) = line) :
    (scanPasses run n last xs).Runs s fun r t =>
      Level s t ∧ (xs.all (·.matched) = true → r.all (·.matched) = true) := by
  cases n with
  | zero => exact rfl
  | succ n =>
    simp only [MatchM.Runs, scanPasses, MatchM.yields_bind, MatchM.yields_argv]
    split
    · exact ⟨.refl s, id⟩
    · have hpass : (scanPass run 0 last xs).Runs s fun r t =>
          Level s t ∧ r.2.map (·.pattern) = xs.map (·.pattern) :=
        yields_scanPass (J := fun t => Level s t) (fun t place last ht => ht.trans (Level.aimed t place last))
          (fun x hx t ht => (hrun x.pattern (hxs ▸ List.mem_map_of_mem hx) t ht).imp
            fun _ _ hu => ht.trans hu) (.refl s)
      refine MatchM.yields_bind.mpr (.intro (fun r t hm => ?_) fun e t hm => hpass.of_error hm)
      have hlevel := (hpass.of_ok hm).1
      simp only [MatchM.yields_bind, MatchM.yields_argv, hlevel.tokens_eq, if_true]
      exact ⟨hlevel, fun h => (scanPass_keeps_matched h).of_ok hm⟩

/-! ### Words to take -/

/-- Free slots are filled from left to right. That is a match if there are enough words. -/
def FillsAt (is : List Nat) (gentle : Prop) (m : MatchM Bool) (s : Attempt) : Prop :=
  ∀ front ts, s.Words front ts → (∀ i ∈ is, (s.slots.get i).hasText = false) →
    is.length ≤ ts.length ∨ gentle →
      m.Runs s fun b t => Level (s.fill is front ts) t ∧ (is.length ≤ ts.length → b = true)

theorem fills_pass (hn : ∀ c ∈ line, c.Nest (0 < ·)) (hd : (slots line).Nodup)
    (hrun : ∀ c ∈ line, ∀ s, s.argv.optionOnly = false →
      FillsAt (slots [c]) (c.Nest (· = 1)) (run c) s)
    (hlast : last.any (place ≤ ·) = false) (hw : s.Words front ts)
    (hfree : ∀ i ∈ slots line, (s.slots.get i).hasText = false)
    (hmode : (slots line).length ≤ ts.length ∨ ∀ c ∈ line, c.Nest (· = 1)) :
    (scanPass run place last (line.map .start)).Runs s fun r t =>
      Level (s.fill (slots line) front ts) t ∧ r.2.map (·.pattern) = line ∧
        ((slots line).length ≤ ts.length → r.2.all (·.matched) = true) := by
  induction line generalizing s ts place last with
  | nil => exact ⟨(Attempt.fill_nil hw).symm ▸ .refl s, rfl, fun _ => rfl⟩
  | cons c line ih =>
    obtain ⟨hnc, hn⟩ := List.forall_mem_cons.mp hn
    obtain ⟨hrunc, hrun⟩ := List.forall_mem_cons.mp hrun
    rw [Pattern.slots_cons] at hd hfree hmode ⊢
    rw [List.length_append] at hmode ⊢
    obtain ⟨-, hd, hapart⟩ := List.nodup_append'.mp hd
    obtain ⟨hfreec, hfree⟩ := List.forall_mem_append.mp hfree
    simp only [MatchM.Runs, List.map_cons, scanPass, MatchM.yields_bind, MatchM.yields_argv]
    split
    next he =>
      obtain ⟨rfl, rfl⟩ : front = [] ∧ ts = [] := by
        simpa [Argv.isEmpty, hw.tokens] using he
      refine ⟨(Attempt.fill_of_nil hw).symm ▸ .refl s, ?_, fun hle => ?_⟩
      · simpa using Scanned.map_pattern_start (c :: line)
      · -- Without words, all slots can only be filled if there are none.
        obtain ⟨hlenc, hlen⟩ : (slots [c]).length = 0 ∧ (slots line).length = 0 := by simpa using hle
        rw [List.all_cons, Bool.and_eq_true]
        exact ⟨hnc.start_matched (List.length_eq_zero_iff.mp hlenc), all_start_matched hn
          (List.length_eq_zero_iff.mp hlen)⟩
    next he =>
      simp only [MatchM.yields_bind, MatchM.yields_setArgv]
      have haimed := Level.aimed s place last
      have hc := hrunc (s.aimed place last) hlast front ts (hw.congr haimed)
        (fun i hi => (haimed.get_eq i).symm ▸ hfreec i hi)
        (hmode.imp (fun h => by omega) fun h => h c List.mem_cons_self)
      refine hc.imp fun b t ht => ?_
      obtain ⟨hlevel, hb⟩ := ht
      have hlevel : Level (s.fill (slots [c]) front ts) t := (Attempt.fill_level haimed).trans hlevel
      have hrest (l : Option Nat) (hl : l.any (place + 1 ≤ ·) = false) :=
        ih (s := t) hn hd hrun hl
          ((Attempt.fill_words hw).congr hlevel)
          (fun i hi => by
            have hget : (s.fill (slots [c]) front ts).slots.get i = s.slots.get i :=
              Slots.get_fill_of_notMem fun hic => hapart hic hi
            rw [hlevel.get_eq, hget]
            exact hfree i hi)
          (hmode.imp (fun h => by rw [List.length_drop]; omega)
            fun h d hd => h d (List.mem_cons_of_mem c hd))
      have hlast' : last.any (place + 1 ≤ ·) = false := by
        cases last with
        | none => rfl
        | some l =>
          simp only [Option.any_some, decide_eq_false_iff_not] at hlast ⊢
          omega
      have hthrough {u : Attempt} (hu : Level (t.fill (slots line) front (ts.drop (slots [c]).length)) u) :
          Level (s.fill (slots [c] ++ slots line) front ts) u := by
        rw [Attempt.fill_append]
        exact (Attempt.fill_level hlevel).trans hu
      cases b with
      | true =>
        have hl : (if (!(Scanned.start c).matched && c.positional?.isSome) = true then some place
            else last).any (place + 1 ≤ ·) = false := by
          split
          · simp
          · exact hlast'
        refine MatchM.yields_bind.mpr ((hrest _ hl).imp fun r u hu => ?_)
        obtain ⟨hu, hpatterns, hall⟩ := hu
        refine ⟨hthrough hu, congrArg (c :: ·) hpatterns, fun hle => ?_⟩
        rw [List.all_cons, hall (by rw [List.length_drop]; omega)]
        rfl
      | false =>
        refine MatchM.yields_bind.mpr ((hrest _ hlast').imp fun r u hu => ?_)
        obtain ⟨hu, hpatterns, -⟩ := hu
        refine ⟨hthrough hu, congrArg (c :: ·) hpatterns, fun hle => ?_⟩
        exact absurd (hb (by omega)) Bool.false_ne_true

/-- After one pass nothing is left to do: all slots are filled, or all words are taken. -/
theorem fills_scanLine (hn : ∀ c ∈ line, c.Nest (0 < ·)) (hd : (slots line).Nodup)
    (hrun : ∀ c ∈ line, ∀ s, s.argv.optionOnly = false →
      FillsAt (slots [c]) (c.Nest (· = 1)) (run c) s)
    (hidle : ∀ c ∈ line, ∀ s, s.Done (slots [c]) → (run c).Runs s fun _ u => Level s u)
    (hw : s.Words front ts) (hfree : ∀ i ∈ slots line, (s.slots.get i).hasText = false)
    (hmode : (slots line).length ≤ ts.length ∨ ∀ c ∈ line, c.Nest (· = 1)) :
    (scanLine run line).Runs s fun xs t =>
      Level (s.fill (slots line) front ts) t ∧
        ((slots line).length ≤ ts.length → xs.all (·.matched) = true) := by
  have hpass : (scanPass run 0 none (line.map .start)).Runs s _ :=
    fills_pass hn hd hrun rfl hw hfree hmode
  simp only [MatchM.Runs, scanLine, scanPasses, MatchM.yields_bind, MatchM.yields_argv]
  split
  next he =>
    obtain ⟨hlevel, -, hall⟩ := hpass.of_ok (scanPass_of_isEmpty he)
    exact ⟨hlevel, hall⟩
  next =>
    refine MatchM.yields_bind.mpr (hpass.imp fun r t ht => ?_)
    obtain ⟨hlevel, hpatterns, hall⟩ := ht
    simp only [MatchM.yields_bind, MatchM.yields_argv]
    split
    · exact ⟨hlevel, hall⟩
    · have hdone : t.Done (slots line) := (Attempt.fill_done hw hd).congr hlevel
      refine (idle_passes (fun c hc u hu => ?_) hpatterns).imp fun xs u hu => ?_
      · exact hidle c hc u ((hdone.congr hu).mono fun i hi => Pattern.mem_slots_of_mem hc hi)
      · exact ⟨hlevel.trans hu.1, fun hle => hu.2 (hall hle)⟩

variable {kind : GroupKind}

theorem idle_matchOnce (hrepeat : ∀ c ∈ line, c.isRepeatingGroup = false)
    (hidle : ∀ c ∈ line, ∀ s, s.Done (slots [c]) → (run c).Runs s fun _ u => Level s u)
    (h : s.Done (slots line)) : (matchOnce run kind line).Runs s fun _ t => Level s t := by
  have hscan : (scanLine run line).Runs s fun _ t => Level s t := by
    refine MatchM.Yields.imp (idle_passes (fun c hc t ht => ?_) (Scanned.map_pattern_start line))
      fun _ _ h => h.1
    exact hidle c hc t ((h.congr ht).mono fun i hi => Pattern.mem_slots_of_mem hc hi)
  cases kind with
  | optional => exact MatchM.yields_bind.mpr (hscan.imp fun _ _ h => h)
  | required =>
    simp only [MatchM.Runs, matchOnce, matchLine, MatchM.yields_restoring, MatchM.yields_bind]
    refine hscan.imp fun xs t ht => ?_
    split
    · exact ht
    · refine .of_eq_ok (Lending.lend_of_not_repeating hrepeat t) ?_
      exact ⟨rfl, ht.style, ht.autoDashes, False.elim, False.elim, .refl _⟩

theorem fills_matchOnce (hn : (Pattern.group kind line false).Nest (0 < ·)) (hd : (slots line).Nodup)
    (hrun : ∀ c ∈ line, ∀ s, s.argv.optionOnly = false →
      FillsAt (slots [c]) (c.Nest (· = 1)) (run c) s)
    (hidle : ∀ c ∈ line, ∀ s, s.Done (slots [c]) → (run c).Runs s fun _ u => Level s u) (s : Attempt) :
    FillsAt (slots line) ((Pattern.group kind line false).Nest (· = 1)) (matchOnce run kind line) s := by
  intro front ts hw hfree hmode
  cases hn with
  | optional hn =>
    have hmode : (slots line).length ≤ ts.length ∨ ∀ c ∈ line, c.Nest (· = 1) :=
      hmode.imp_right fun h => by cases h; assumption
    refine MatchM.yields_bind.mpr ((fills_scanLine hn hd hrun hidle hw hfree hmode).imp
      fun xs t ht => ?_)
    exact ⟨ht.1, fun _ => rfl⟩
  | required hn hpos =>
    by_cases hle : (slots line).length ≤ ts.length
    · simp only [MatchM.Runs, matchOnce, matchLine, MatchM.yields_restoring, MatchM.yields_bind]
      refine (fills_scanLine hn hd hrun hidle hw hfree (.inl hle)).imp fun xs t ht => ?_
      obtain ⟨hlevel, hall⟩ := ht
      rw [if_pos (hall hle)]
      exact ⟨hlevel, fun _ => trivial⟩
    · -- A single argument is all that may miss its word here.
      have hone : (slots line).length = 1 := by
        cases hmode.resolve_left hle with
        | required _ hs => exact hs
      obtain rfl : ts = [] := List.length_eq_zero_iff.mp (by omega)
      rw [Attempt.fill_of_nil hw]
      refine (idle_matchOnce (fun c hc => (hn c hc).not_repeating) hidle (.inr ⟨front, hw⟩)).imp
        fun b t ht => ⟨ht, fun h => absurd h hle⟩

end Lines

/-! ### Groups -/

theorem idle_argument {leaf : Leaf} (h : s.Done [leaf.slot]) :
    ((Positional.argument leaf).run false).Runs s fun _ t => Level s t := by
  cases hfilled : (Positional.argument leaf).isFilled s.slots with
  | true =>
    refine .of_eq_ok (a := true) (t := s) ?_ (.refl s)
    simp [Positional.run, hfilled]
  | false =>
    cases ho : s.argv.optionOnly with
    | true => exact .of_eq_ok (Positional.run_barred ho) (.refl s)
    | false =>
      rcases h with h | ⟨front, hw⟩
      · rw [Positional.isFilled, h leaf.slot (List.mem_singleton_self _)] at hfilled
        cases hfilled
      · obtain ⟨t, ht, hlevel⟩ := Positional.run_of_sees_none hfilled ho (hw.sees_nil _)
        exact .of_eq_ok ht hlevel

theorem matchPattern_once (kind : GroupKind) (line : List Pattern) :
    matchPattern scope (n + 1) false (.group kind line false) =
      matchOnce (matchPattern scope n false) kind line := by
  simp [matchPattern]

theorem slots_argument (leaf : Leaf) : slots [.argument leaf] = [leaf.slot] := rfl

theorem idle_nest (hp : p.Nest P) (h : s.Done (slots [p])) :
    (matchPattern scope n false p).Runs s fun _ t => Level s t := by
  induction n generalizing p s with
  | zero => exact rfl
  | succ n ih =>
    cases hp with
    | argument => exact idle_argument h
    | optional hn | required hn _ =>
      rw [Pattern.slots_group] at h
      rw [matchPattern_once]
      exact idle_matchOnce (fun c hc => (hn c hc).not_repeating) (fun c hc t ht => ih (hn c hc) ht) h

theorem fills_nest (hp : p.Nest (0 < ·)) (hd : (slots [p]).Nodup) (ho : s.argv.optionOnly = false) :
    FillsAt (slots [p]) (p.Nest (· = 1)) (matchPattern scope n false p) s := by
  induction n generalizing p s with
  | zero => exact fun _ _ _ _ _ => rfl
  | succ n ih =>
    have hnest := hp
    cases hp with
    | @argument leaf =>
      intro front ts hw hfree _
      have hfree : (Positional.argument leaf).isFilled s.slots = false :=
        hfree leaf.slot (List.mem_singleton_self _)
      cases ts with
      | nil =>
        obtain ⟨t, ht, hlevel⟩ := Positional.run_of_sees_none hfree ho (hw.sees_nil _)
        rw [Attempt.fill_of_nil hw]
        exact .of_eq_ok ht ⟨hlevel, fun h => absurd h (by simp [slots_argument])⟩
      | cons x ts =>
        have hsees := hw.sees_cons (.argument leaf)
        rw [if_pos (hw.accepts_argument leaf _)] at hsees
        obtain ⟨t, ht, hlevel⟩ := Positional.run_of_sees hfree ho hsees
        exact .of_eq_ok ht ⟨hlevel, fun _ => rfl⟩
    | optional hn | required hn _ =>
      rw [Pattern.slots_group] at hd ⊢
      rw [matchPattern_once]
      refine fills_matchOnce hnest hd (fun c hc t ht => ih (hn c hc) ?_ ht)
        (fun c hc t ht => idle_nest (hn c hc) ht) s
      rw [Pattern.slots_eq_flatMap, List.nodup_flatMap] at hd
      exact hd.1 c hc

end Synopsis
