import Synopsis.Proofs.Matcher.Advance
import Synopsis.Proofs.Matcher.Marks

/-! # Passes over positionals

A line can be passed over in parts. Commands and arguments that stand together advance as
one: the last one that took a token bars those before it, and the others are still free.
-/

namespace Synopsis

variable {run : Pattern → MatchM Bool} {place : Nat} {last : Option Nat} {x : Scanned}
  {xs ys : List Scanned} {s : Attempt}

/-! ## Passes in parts -/

theorem scanPass_cons (he : s.argv.isEmpty = false) : scanPass run place last (x :: xs) s =
    (run x.pattern >>= fun b =>
      (fun r => (r.1, ⟨x.pattern, b || x.matched⟩ :: r.2)) <$> scanPass run (place + 1)
        (if b && (!x.matched && x.pattern.positional?.isSome) then some place else last) xs)
      (s.aimed place last) := by
  simp only [scanPass, MatchM.argv_bind, he, Bool.false_eq_true, if_false, MatchM.setArgv_bind]
  refine congrFun (bind_congr fun b => ?_) _
  cases b <;> rfl

theorem scanPass_cons_of_ok {b : Bool} {t u : Attempt} {l : Option Nat} (he : s.argv.isEmpty = false)
    (hx : run x.pattern (s.aimed place last) = .ok b t)
    (hxs : scanPass run (place + 1)
      (if b && (!x.matched && x.pattern.positional?.isSome) then some place else last) xs t =
        .ok (l, ys) u) :
    scanPass run place last (x :: xs) s = .ok (l, ⟨x.pattern, b || x.matched⟩ :: ys) u := by
  rw [scanPass_cons he, MatchM.bind_apply_of_ok hx, map_eq_pure_bind, MatchM.bind_apply_of_ok hxs]
  rfl

theorem MatchM.bind_apply_congr {α β : Type} {m m' : MatchM α} {f : α → MatchM β} {t : Attempt}
    (h : m s = m' t) : (m >>= f) s = (m' >>= f) t := by
  change EStateM.bind m f s = EStateM.bind m' f t
  rw [EStateM.bind, EStateM.bind, h]

theorem scanPass_append : scanPass run place last (xs ++ ys) =
    scanPass run place last xs >>= fun r =>
      (fun r' => (r'.1, r.2 ++ r'.2)) <$> scanPass run (place + xs.length) r.1 ys := by
  induction xs generalizing place last with
  | nil => simp [scanPass]
  | cons x xs ih =>
    funext s
    by_cases he : s.argv.isEmpty
    · rw [List.cons_append, scanPass_of_isEmpty he,
        MatchM.bind_apply_of_ok (scanPass_of_isEmpty he), map_eq_pure_bind,
        MatchM.bind_apply_of_ok (scanPass_of_isEmpty he)]
      rfl
    · have he : s.argv.isEmpty = false := by simpa using he
      rw [List.cons_append, scanPass_cons he, MatchM.bind_apply_congr (scanPass_cons he)]
      simp [ih, Nat.add_comm 1, Nat.add_assoc]

theorem scanPass_append_of_ok {t u : Attempt} {l l' : Option Nat} {xs' ys' : List Scanned}
    (hxs : scanPass run place last xs s = .ok (l, xs') t)
    (hys : scanPass run (place + xs.length) l ys t = .ok (l', ys') u) :
    scanPass run place last (xs ++ ys) s = .ok (l', xs' ++ ys') u := by
  rw [scanPass_append, MatchM.bind_apply_of_ok hxs, map_eq_pure_bind, MatchM.bind_apply_of_ok hys]
  rfl

/-! ## Positionals -/

variable {p : Positional} {ps qs rest : List Positional} {line : List Pattern} {t : Attempt} {n : Nat}

theorem Level.get_eq (h : Level s t) (i : Nat) : t.slots.get i = s.slots.get i :=
  h.slots i (Set.notMem_empty i)

theorem Level.map_ofSlots (h : Level s t) (line : List Pattern) :
    line.map (Scanned.ofSlots t.slots) = line.map (Scanned.ofSlots s.slots) :=
  Scanned.map_ofSlots_congr fun _ _ i _ => h.get_eq i

theorem Positional.run_barred (ho : s.argv.optionOnly = true) :
    p.run false s = .ok (p.isFilled s.slots) s := by
  simp only [run, MatchM.slots_bind, Bool.not_false, Bool.true_and]
  cases h : p.isFilled s.slots with
  | false => simp only [Bool.false_eq_true, if_false, MatchM.argv_bind, ho, if_true]; rfl
  | true => rfl

theorem Positional.positional?_pattern (p : Positional) : p.pattern.positional? = some p := by
  cases p <;> rfl

/-- The marks of commands and arguments, told by their slots. -/
def marksOf (s : Attempt) (ps : List Positional) : List Scanned :=
  (ps.map (·.pattern)).map (.ofSlots s.slots)

theorem marksOf_cons (s : Attempt) (p : Positional) (ps : List Positional) :
    marksOf s (p :: ps) = ⟨p.pattern, p.isFilled s.slots⟩ :: marksOf s ps :=
  congrArg (· :: _) (Scanned.ofSlots_positional s.slots p)

theorem marksOf_append (s : Attempt) (ps qs : List Positional) :
    marksOf s (ps ++ qs) = marksOf s ps ++ marksOf s qs := by
  rw [marksOf, List.map_append, List.map_append]
  rfl

theorem length_marksOf (s : Attempt) (ps : List Positional) : (marksOf s ps).length = ps.length := by
  simp [marksOf]

theorem marksOf_congr (h : ∀ p ∈ ps, t.slots.get p.slot = s.slots.get p.slot) :
    marksOf t ps = marksOf s ps := by
  refine Scanned.map_ofSlots_congr fun c hc i hi => ?_
  obtain ⟨p, hp, rfl⟩ := List.mem_map.mp hc
  obtain rfl := Option.some.inj (p.slot?_pattern.symm.trans hi)
  exact h p hp

theorem Level.marksOf (h : Level s t) (ps : List Positional) : marksOf t ps = marksOf s ps :=
  h.map_ofSlots _

/-- Up to the last positional that matched, a pass changes nothing. -/
theorem scanPass_barred (hrun : ∀ p ∈ ps, run p.pattern = p.run false)
    (hbar : ∀ k < ps.length, last.any (place + k ≤ ·) = true) :
    ∃ t, scanPass run place last (marksOf s ps) s = .ok (last, marksOf s ps) t ∧ Level s t := by
  induction ps generalizing place s with
  | nil => exact ⟨s, rfl, .refl s⟩
  | cons p ps ih =>
    obtain ⟨hp, hps⟩ := List.forall_mem_cons.mp hrun
    by_cases he : s.argv.isEmpty
    · exact ⟨s, scanPass_of_isEmpty he, .refl s⟩
    · have he : s.argv.isEmpty = false := by simpa using he
      have hbarred : (s.aimed place last).argv.optionOnly = true := hbar 0 (Nat.succ_pos _)
      have hmiss : run p.pattern (s.aimed place last) = .ok (p.isFilled s.slots) (s.aimed place last) :=
        (congrFun hp _).trans (p.run_barred hbarred)
      have hrest : ∀ k < ps.length, last.any (place + 1 + k ≤ ·) = true := fun k hk => by
        rw [Nat.add_assoc, Nat.add_comm 1]
        exact hbar (k + 1) (Nat.succ_lt_succ hk)
      obtain ⟨t, hpass, ht⟩ := ih (s := s.aimed place last) hps hrest
      refine ⟨t, ?_, (Level.aimed s place last).trans ht⟩
      rw [marksOf_cons]
      rw [scanPass_cons_of_ok he hmiss (by cases p.isFilled s.slots <;> exact hpass), Bool.or_self]
      rfl

/-- The last place that bars others, once some of the positionals that begin at a place are
done with. -/
def lastPlace (place : Nat) (last : Option Nat) : (done : Nat) → Option Nat
  | 0 => last
  | n + 1 => some (place + n)

theorem lastPlace_add (place : Nat) (last : Option Nat) (m k : Nat) :
    lastPlace (place + m) (lastPlace place last m) k = lastPlace place last (m + k) := by
  cases k with
  | zero => rfl
  | succ k => exact congrArg some (Nat.add_assoc place m k)

section Step

variable {ts : List Token} {token : Token} (hrun : run p.pattern = p.run false)
  (hfree : p.isFilled s.slots = false) (hlast : last.any (place ≤ ·) = false)
  (he : s.argv.isEmpty = false)
include hrun hfree hlast he

theorem scanPass_of_sees_none (h : p.sees s = none) : ∃ u, Level s u ∧ ∀ xs l ys t,
    scanPass run (place + 1) last xs u = .ok (l, ys) t →
      scanPass run place last (⟨p.pattern, false⟩ :: xs) s = .ok (l, ⟨p.pattern, false⟩ :: ys) t := by
  have hlevel := Level.aimed s place last
  obtain ⟨u, hu, hlevel'⟩ := Positional.run_of_sees_none (s := s.aimed place last) hfree hlast
    ((p.sees_congr hlevel).trans h)
  refine ⟨u, hlevel.trans hlevel', fun xs l ys t ht => ?_⟩
  exact scanPass_cons_of_ok (x := ⟨p.pattern, false⟩) he ((congrFun hrun _).trans hu) ht

theorem scanPass_of_sees (h : p.sees s = some (token, ts)) :
    ∃ u, Level (p.took s token ts) u ∧ ∀ xs l ys t,
      scanPass run (place + 1) (some place) xs u = .ok (l, ys) t →
      scanPass run place last (⟨p.pattern, false⟩ :: xs) s = .ok (l, ⟨p.pattern, true⟩ :: ys) t := by
  have hlevel := Level.aimed s place last
  obtain ⟨u, hu, hlevel'⟩ := Positional.run_of_sees (s := s.aimed place last) hfree hlast
    ((p.sees_congr hlevel).trans h)
  refine ⟨u, (p.took_level hlevel).trans hlevel', fun xs l ys t ht => ?_⟩
  exact scanPass_cons_of_ok (x := ⟨p.pattern, false⟩) he ((congrFun hrun _).trans hu)
    (by simpa [Positional.positional?_pattern] using ht)

end Step

/-- A pass over commands and arguments that are free to take a token. -/
theorem scanPass_advance (hrun : ∀ p ∈ ps, run p.pattern = p.run false)
    (hfree : ∀ p ∈ ps, p.isFilled s.slots = false) (hd : (ps.map (·.slot)).Nodup)
    (hlast : last.any (place ≤ ·) = false) :
    ∃ taken ys t, ps = taken ++ (advance ps s).1 ∧ Level (advance ps s).2 t ∧
      scanPass run place last (marksOf s ps) s = .ok (lastPlace place last taken.length, ys) t := by
  induction ps generalizing place last s with
  | nil => exact ⟨[], [], s, rfl, .refl s, rfl⟩
  | cons p ps ih =>
    obtain ⟨hp, hps⟩ := List.forall_mem_cons.mp hrun
    obtain ⟨hpfree, hpsfree⟩ := List.forall_mem_cons.mp hfree
    obtain ⟨hpd, hpsd⟩ := List.nodup_cons.mp hd
    by_cases he : s.argv.isEmpty
    · have hnone : advance (p :: ps) s = (p :: ps, s) :=
        advance_eq_of_sees fun _ _ => Positional.sees_eq_none_of_isEmpty he
      rw [hnone]
      exact ⟨[], _, s, rfl, .refl s, scanPass_of_isEmpty he⟩
    have he : s.argv.isEmpty = false := by simpa using he
    -- The others are still free, wherever the pass goes on.
    have free {u : Attempt} (hu : ∀ q ∈ ps, u.slots.get q.slot = s.slots.get q.slot) :
        marksOf u ps = marksOf s ps ∧ ∀ q ∈ ps, q.isFilled u.slots = false :=
      ⟨marksOf_congr hu, fun q hq => (Positional.isFilled_congr (hu q hq)).trans (hpsfree q hq)⟩
    rw [marksOf_cons, hpfree]
    cases hsees : p.sees s with
    | none =>
      obtain ⟨u, hu, hnext⟩ := scanPass_of_sees_none hp hpfree hlast he hsees
      obtain ⟨hmarks, hfree'⟩ := free fun q _ => hu.get_eq q.slot
      have hlast' : last.any (place + 1 ≤ ·) = false := by
        cases last with
        | none => rfl
        | some l =>
          simp only [Option.any_some, decide_eq_false_iff_not] at hlast ⊢
          omega
      obtain ⟨taken, ys, t, hrest, ht, hpass⟩ := ih hps hfree' hpsd hlast'
      obtain ⟨hfst, hadvance⟩ := advance_congr ps hu
      rw [hmarks] at hpass
      rw [hfst] at hrest
      rw [advance_of_sees_none hsees]
      split
      next hstay =>
        obtain rfl : taken = [] := by simpa [hstay] using hrest
        rw [advance_eq_of_fst hstay] at hadvance
        exact ⟨[], _, t, rfl, hadvance.trans ht, hnext _ _ _ _ hpass⟩
      next hmoves =>
        obtain ⟨q, taken, rfl⟩ : ∃ q taken', taken = q :: taken' :=
          List.exists_cons_of_ne_nil fun hnil => hmoves (by simpa [hnil] using hrest.symm)
        have hplace : lastPlace (place + 1) last (q :: taken).length =
            lastPlace place last (p :: q :: taken).length :=
          congrArg some (Nat.add_right_comm place 1 taken.length)
        rw [hplace] at hpass
        exact ⟨p :: q :: taken, _, t, congrArg (p :: ·) hrest, hadvance.trans ht, hnext _ _ _ _ hpass⟩
    | some r =>
      obtain ⟨token, ts⟩ := r
      obtain ⟨u, hu, hnext⟩ := scanPass_of_sees hp hpfree hlast he hsees
      obtain ⟨hmarks, hfree'⟩ := free fun q hq => by
        rw [hu.get_eq, p.get_took_of_ne (ne_of_mem_of_not_mem (List.mem_map_of_mem hq) hpd)]
      have hlast' : (some place).any (place + 1 ≤ ·) = false := by simp
      obtain ⟨taken, ys, t, hrest, ht, hpass⟩ := ih hps hfree' hpsd hlast'
      obtain ⟨hfst, hadvance⟩ := advance_congr ps hu
      have hplace : lastPlace (place + 1) (some place) taken.length =
          lastPlace place last (p :: taken).length := by
        rw [List.length_cons, Nat.add_comm taken.length, ← lastPlace_add]
        rfl
      rw [hmarks, hplace] at hpass
      rw [advance_of_sees hsees, ← hfst]
      exact ⟨p :: taken, _, t, congrArg (p :: ·) hrest, hadvance.trans ht, hnext _ _ _ _ hpass⟩

/-! ## Passes one after the other -/

/-- Within a scan, some of the positionals that begin at a place are done with, and the rest
of them are free. -/
structure Awaits (ps : List Positional) (place : Nat) (last : Option Nat) (rest : List Positional)
    (s : Attempt) : Prop where
  split : ∃ done, ps = done ++ rest ∧ last = lastPlace place none done.length
  free : ∀ p ∈ rest, p.isFilled s.slots = false

namespace Awaits

variable {last' : Option Nat}

theorem start (h : ∀ p ∈ ps, p.isFilled s.slots = false) : Awaits ps place none ps s :=
  ⟨⟨[], rfl, rfl⟩, h⟩

theorem subset (h : Awaits ps place last rest s) : rest ⊆ ps := by
  obtain ⟨done, rfl, -⟩ := h.split
  exact List.subset_append_right _ _

theorem congr (h : Awaits ps place last rest s)
    (ht : ∀ p ∈ ps, t.slots.get p.slot = s.slots.get p.slot) : Awaits ps place last rest t :=
  ⟨h.split, fun p hp => (Positional.isFilled_congr (ht p (h.subset hp))).trans (h.free p hp)⟩

theorem pass (h : Awaits ps place last rest s) (hrun : ∀ p ∈ ps, run p.pattern = p.run false)
    (hd : (ps.map (·.slot)).Nodup) : ∃ last' ys t,
      scanPass run place last (marksOf s ps) s = .ok (last', ys) t ∧ Level (advance rest s).2 t ∧
        Awaits ps place last' (advance rest s).1 t := by
  obtain ⟨⟨done, rfl, rfl⟩, hfree⟩ := h
  obtain ⟨hdone, hrest⟩ := List.forall_mem_append.mp hrun
  rw [List.map_append] at hd
  have hrestd := (List.nodup_append'.mp hd).2.1
  have hbar : ∀ k < done.length, (lastPlace place none done.length).any (place + k ≤ ·) = true := by
    intro k hk
    obtain ⟨m, hm⟩ := Nat.exists_eq_add_one_of_ne_zero (Nat.ne_zero_of_lt hk)
    simp only [hm, lastPlace, Option.any_some, decide_eq_true_eq]
    omega
  have hlast : (lastPlace place none done.length).any (place + done.length ≤ ·) = false := by
    cases done with
    | nil => rfl
    | cons p done => simp [lastPlace]
  obtain ⟨u, hbarred, hu⟩ := scanPass_barred (s := s) hdone hbar
  have hfree' : ∀ p ∈ rest, p.isFilled u.slots = false := fun p hp =>
    (Positional.isFilled_congr (hu.get_eq p.slot)).trans (hfree p hp)
  obtain ⟨taken, ys, t, htaken, ht, hpass⟩ := scanPass_advance hrest hfree' hrestd hlast
  obtain ⟨hfst, hadvance⟩ := advance_congr rest hu
  rw [hfst] at htaken
  rw [lastPlace_add, hu.marksOf] at hpass
  have hlevel : Level (advance rest s).2 t := hadvance.trans ht
  refine ⟨_, marksOf s done ++ ys, t, ?_, hlevel, ⟨done ++ taken, ?_, rfl⟩, fun p hp => ?_⟩
  · rw [marksOf_append, List.length_append]
    exact scanPass_append_of_ok hbarred (by rwa [length_marksOf])
  · rw [List.append_assoc, ← htaken]
  · have hget : t.slots.get p.slot = s.slots.get p.slot :=
      (hlevel.get_eq p.slot).trans (get_advance_of_mem hrestd hp)
    rw [Positional.isFilled_congr hget]
    exact hfree p ((advance_suffix rest s).mem hp)

end Awaits

end Synopsis
