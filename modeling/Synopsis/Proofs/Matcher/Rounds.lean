import Mathlib.Data.List.Induction
import Mathlib.Data.List.Nodup
import Synopsis.Proofs.Matcher.Loans

/-! # Rounds

Words that are dealt to some slots in turn. The last word that was dealt lies on top of the
slot whose turn it was, so the slots give the words back from the last to the first as long
as they are asked in the opposite order.
-/

namespace Synopsis

namespace Lending

variable {is : List Nat} {ws : List String} {w : String} {s t : Slots} {i j m n k : Nat}

/-! ## Columns -/

/-- The words at the places `j`, `j + m`, `j + 2 * m` and so on. -/
def column (m j : Nat) (ws : List String) : List String :=
  (ws.zipIdx.filter fun x => x.2 % m = j).map (·.1)

theorem column_append (h : m ∣ ws.length) (us : List String) :
    column m j (ws ++ us) = column m j ws ++ column m j us := by
  rw [column, List.zipIdx_append, List.filter_append, List.map_append]
  congr 1
  rw [column, Nat.zero_add, List.zipIdx_eq_map_add, List.filter_map, List.map_map]
  congr 1
  apply List.filter_congr
  rintro ⟨u, i⟩ -
  obtain ⟨c, hc⟩ := h
  simp [hc]

theorem column_concat (ws : List String) (w : String) :
    column m j (ws ++ [w]) = column m j ws ++ if ws.length % m = j then [w] else [] := by
  rw [column, List.zipIdx_append, List.filter_append, List.map_append]
  congr 1
  by_cases h : ws.length % m = j <;> simp [h]

/-- In a single round, each slot gets one word at most. -/
theorem column_of_length_le (h : ws.length ≤ m) (hj : j < m) : column m j ws = ws[j]?.toList := by
  induction ws using List.reverseRecOn with
  | nil => rfl
  | append_singleton ws w ih =>
    rw [List.length_append, List.length_singleton] at h
    rw [column_concat, ih (by omega), Nat.mod_eq_of_lt (by omega)]
    rcases Nat.lt_trichotomy j ws.length with hlt | rfl | hgt
    · rw [if_neg (by omega), List.append_nil, List.getElem?_append_left hlt]
    · simp
    · rw [if_neg (by omega), List.getElem?_eq_none (by omega), List.getElem?_eq_none]
      · rfl
      · rw [List.length_append, List.length_singleton]
        omega

/-- A single slot gets all words. -/
theorem column_one (ws : List String) : column 1 0 ws = ws := by
  simp [column, Nat.mod_one, List.zipIdx_map_fst]

/-- The first round, and then the others. -/
theorem column_eq_append (hj : j < m) (ws : List String) :
    column m j ws = ws[j]?.toList ++ column m j (ws.drop m) := by
  rcases Nat.lt_or_ge ws.length m with hlt | hge
  · rw [List.drop_eq_nil_of_le (Nat.le_of_lt hlt), column_of_length_le (Nat.le_of_lt hlt) hj]
    simp [column]
  · have htake : (ws.take m).length = m := by rw [List.length_take]; omega
    calc column m j ws = column m j (ws.take m ++ ws.drop m) := by rw [List.take_append_drop]
      _ = column m j (ws.take m) ++ column m j (ws.drop m) := column_append (by simp [htake]) _
      _ = ws[j]?.toList ++ column m j (ws.drop m) := by
        rw [column_of_length_le (Nat.le_of_eq htake) hj, List.getElem?_take_of_lt hj]

theorem length_column (hj : j < m) (ws : List String) :
    (column m j ws).length = ws.length / m + if j < ws.length % m then 1 else 0 := by
  induction hn : ws.length using Nat.strongRecOn generalizing ws with
  | ind n ih =>
  subst hn
  rw [column_eq_append hj, List.length_append]
  rcases Nat.lt_or_ge ws.length m with hlt | hge
  · rw [List.drop_eq_nil_of_le (Nat.le_of_lt hlt), Nat.div_eq_of_lt hlt, Nat.mod_eq_of_lt hlt]
    by_cases h : j < ws.length <;> simp [column, h]
  · have hdrop : (ws.drop m).length = ws.length - m := List.length_drop
    rw [ih _ (by omega) (ws.drop m) rfl, hdrop, List.getElem?_eq_getElem (by omega),
      Nat.div_eq_sub_div (by omega) hge, Nat.mod_eq_sub_mod hge, Option.toList_some,
      List.length_singleton]
    omega

/-! ## Slots that words were dealt to -/

/-- The words lie in the slots, dealt in turn. -/
def Dealt (is : List Nat) (ws : List String) (s : Slots) : Prop :=
  ∀ j i, is[j]? = some i → s.get i = .list (column is.length j ws)

namespace Dealt

theorem size_eq (h : Dealt is ws s) (hj : is[j]? = some i) :
    (s.get i).size = ws.length / is.length + if j < ws.length % is.length then 1 else 0 := by
  rw [h j i hj]
  exact length_column (List.getElem?_eq_some_iff.mp hj).1 ws

/-- The last word lies on top of the slot whose turn it was. -/
theorem exists_popText? (hd : is.Nodup) (h : Dealt is (ws ++ [w]) s) (hi : is[ws.length % is.length]? = some i) :
    ∃ t, popText? s i = some (w, t) ∧ Dealt is ws t := by
  have hget := h _ i hi
  rw [column_concat, if_pos rfl] at hget
  refine ⟨s.set i (.list (column is.length (ws.length % is.length) ws)), ?_, fun j i' hj => ?_⟩
  · simp [Lending.popText?, hget, Slot.popText?]
  · rw [Slots.get_set]
    split
    next he =>
      subst he
      obtain ⟨hlt, -⟩ := List.getElem?_eq_some_iff.mp hj
      rw [(List.getElem?_inj hlt hd).mp (hj.trans hi.symm)]
    next hne =>
      rw [h j i' hj, column_concat, if_neg, List.append_nil]
      rintro rfl
      exact hne (Option.some.inj (hj.symm.trans hi))

end Dealt

/-! ## Whole rounds -/

theorem popEach_eq {us : List String} {f : Nat → List String} (hd : is.Nodup)
    (hlen : us.length = is.length)
    (h : ∀ j i, is[j]? = some i → ∀ u, us[j]? = some u → s.get i = .list (f j ++ [u])) :
    (popEach s is).1 = us ∧ ∀ j i, is[j]? = some i → (popEach s is).2.get i = .list (f j) := by
  induction is generalizing us f s with
  | nil =>
    obtain rfl := List.length_eq_zero_iff.mp hlen
    exact ⟨rfl, nofun⟩
  | cons i is ih =>
    obtain ⟨u, us, rfl⟩ := List.exists_cons_of_length_eq_add_one hlen
    obtain ⟨hi, hd⟩ := List.nodup_cons.mp hd
    have hpop : popText? s i = some (u, s.set i (.list (f 0))) := by
      simp [popText?, h 0 i rfl u rfl, Slot.popText?]
    have hother (j i' : Nat) (hj : is[j]? = some i') : i' ≠ i := by
      rintro rfl
      exact hi (List.mem_of_getElem? hj)
    obtain ⟨htexts, hslots⟩ := ih (f := fun j => f (j + 1)) (s := s.set i (.list (f 0))) hd
      (Nat.succ.inj hlen) fun j i' hj u' hu => by
        rw [Slots.get_set_of_ne (hother j i' hj)]
        exact h (j + 1) i' hj u' hu
    simp only [popEach, hpop]
    constructor
    · rw [htexts]
    · intro j i' hj
      cases j with
      | zero =>
        obtain rfl := Option.some.inj hj
        rw [(popEach_pops fun _ => id).get_of_notMem hi, Slots.get_set_self]
      | succ j => exact hslots j i' hj

theorem popEach_of_dealt {us : List String} (hd : is.Nodup) (h : Dealt is (ws ++ us) s)
    (hws : is.length ∣ ws.length) (hus : us.length = is.length) :
    (popEach s is).1 = us ∧ Dealt is ws (popEach s is).2 := by
  refine popEach_eq hd hus fun j i hj u hu => ?_
  have hlt : j < is.length := (List.getElem?_eq_some_iff.mp hj).1
  rw [h j i hj, column_append hws, column_of_length_le (Nat.le_of_eq hus) hlt, hu]
  rfl

theorem popRounds_of_dealt (hd : is.Nodup) (h : Dealt is ws s) (hn : ws.length = is.length * (n + k)) :
    (popRounds is n s).1 = ws.drop (is.length * k) ∧
      Dealt is (ws.take (is.length * k)) (popRounds is n s).2 := by
  induction n generalizing ws s with
  | zero =>
    rw [Nat.zero_add] at hn
    rw [← hn, List.drop_length, List.take_length]
    exact ⟨rfl, h⟩
  | succ n ih =>
    have hmul : is.length * (n + 1 + k) = is.length * (n + k) + is.length := by
      rw [Nat.add_right_comm, Nat.mul_succ]
    have hle : is.length * k ≤ is.length * (n + k) := Nat.mul_le_mul_left _ (Nat.le_add_left k n)
    have htake : (ws.take (is.length * (n + k))).length = is.length * (n + k) := by
      rw [List.length_take]
      omega
    have hdrop : (ws.drop (is.length * (n + k))).length = is.length := by
      rw [List.length_drop]
      omega
    rw [← List.take_append_drop (is.length * (n + k)) ws] at h
    obtain ⟨htexts, hrest⟩ := popEach_of_dealt hd h ⟨n + k, htake⟩ hdrop
    obtain ⟨htexts', hrest'⟩ := ih hrest htake
    simp only [popRounds]
    constructor
    · rw [htexts, htexts', ← List.drop_append_of_le_length (by omega), List.take_append_drop]
    · rw [List.take_take, Nat.min_eq_left hle] at hrest'
      exact hrest'

/-! ## From the last word to the first -/

/-- Slots in the order in which they are asked for the words that were dealt last. -/
def Countdown (is : List Nat) (n k : Nat) (order : List Nat) : Prop :=
  ∀ j < k, order[j]? = is[(n - 1 - j) % is.length]?

theorem Countdown.tail {order : List Nat} (h : Countdown is (n + 1) (k + 1) (i :: order)) :
    Countdown is n k order := by
  intro j hj
  have hnext := h (j + 1) (by omega)
  rw [List.getElem?_cons_succ] at hnext
  rw [hnext]
  congr 2
  omega

theorem Countdown.exists_cons {order : List Nat} (hne : is ≠ []) (h : Countdown is (n + 1) (k + 1) order) :
    ∃ i rest, order = i :: rest ∧ is[n % is.length]? = some i := by
  have hlt : n % is.length < is.length := Nat.mod_lt _ (List.length_pos_iff.mpr hne)
  have hfirst := h 0 (Nat.succ_pos k)
  rw [Nat.add_sub_cancel, Nat.sub_zero, List.getElem?_eq_getElem hlt] at hfirst
  cases order with
  | nil => cases hfirst
  | cons i order =>
    obtain rfl := Option.some.inj hfirst
    exact ⟨_, order, rfl, List.getElem?_eq_getElem hlt⟩

@[simp] theorem popUntil_zero (order : List Nat) (texts : List String) (s : Slots) :
    popUntil 0 order texts s = some (texts, s) := by
  cases order <;> rfl

theorem popUntil_of_dealt {order : List Nat} (texts : List String) (hd : is.Nodup) (hne : is ≠ [])
    (h : Dealt is ws s) (hk : k ≤ ws.length) (ho : Countdown is ws.length k order) :
    ∃ t, popUntil k order texts s = some (ws.drop (ws.length - k) ++ texts, t) ∧
      Dealt is (ws.take (ws.length - k)) t := by
  induction k generalizing ws order texts s with
  | zero =>
    rw [Nat.sub_zero, List.drop_length, List.take_length]
    exact ⟨s, popUntil_zero _ _ _, h⟩
  | succ k ih =>
    rcases List.eq_nil_or_concat' ws with rfl | ⟨ws, w, rfl⟩
    · simp at hk
    · rw [List.length_append, List.length_singleton] at hk ho ⊢
      obtain ⟨i, order, rfl, hi⟩ := ho.exists_cons hne
      obtain ⟨t, hpop, ht⟩ := h.exists_popText? hd hi
      obtain ⟨u, hrest, hu⟩ := ih (w :: texts) ht (by omega) ho.tail
      rw [Nat.add_sub_add_right, List.drop_append_of_le_length (Nat.sub_le _ _),
        List.take_append_of_le_length (Nat.sub_le _ _), List.append_assoc]
      refine ⟨u, ?_, hu⟩
      simp only [popUntil, hpop]
      exact hrest

/-- No more words come back than were dealt. -/
theorem popUntil_eq_none_of_dealt {order : List Nat} (texts : List String) (hd : is.Nodup) (hne : is ≠ [])
    (h : Dealt is ws s) (hk : ws.length < k) (ho : Countdown is ws.length ws.length order)
    (hmem : ∀ i ∈ order, i ∈ is) : popUntil k order texts s = none := by
  obtain ⟨k, rfl⟩ := Nat.exists_eq_add_of_lt (Nat.zero_lt_of_lt hk)
  rw [Nat.zero_add] at hk ⊢
  induction ws using List.reverseRecOn generalizing k order texts s with
  | nil =>
    cases order with
    | nil => rfl
    | cons i order =>
      obtain ⟨j, hj⟩ := List.mem_iff_getElem?.mp (hmem i List.mem_cons_self)
      have hget := h j i hj
      simp [popUntil, popText?, hget, column, Slot.popText?]
  | append_singleton ws w ih =>
    rw [List.length_append, List.length_singleton] at hk ho
    obtain ⟨i, order, rfl, hi⟩ := ho.exists_cons hne
    obtain ⟨t, hpop, ht⟩ := h.exists_popText? hd hi
    simp only [popUntil, hpop]
    obtain ⟨k, rfl⟩ : ∃ l, k = l + 1 := ⟨k - 1, by omega⟩
    exact ih _ ht ho.tail (fun i hi => hmem i (List.mem_cons_of_mem _ hi)) k (by omega)

/-! ## The texts to lend -/

section Lenders

variable (hd : is.Nodup) (hne : is ≠ []) (h : Dealt is ws s)
include hne h

theorem leastSize_of_dealt : leastSize is s = ws.length / is.length := by
  have hpos : 0 < is.length := List.length_pos_iff.mpr hne
  have hmod : ws.length % is.length < is.length := Nat.mod_lt _ hpos
  have hmin : (is.map fun i => (s.get i).size).min? = some (ws.length / is.length) := by
    rw [List.min?_eq_some_iff]
    constructor
    · -- No round begins with the last slot.
      have hlast : is[is.length - 1]? = some is[is.length - 1] := List.getElem?_eq_getElem (by omega)
      refine List.mem_map.mpr ⟨_, List.mem_of_getElem? hlast, ?_⟩
      rw [h.size_eq hlast, if_neg (by omega), Nat.add_zero]
    · intro n hn
      obtain ⟨i, hi, rfl⟩ := List.mem_map.mp hn
      obtain ⟨j, hj⟩ := List.mem_iff_getElem?.mp hi
      rw [h.size_eq hj]
      exact Nat.le_add_right _ _
  rw [leastSize, hmin, Option.getD_some]

include hd

theorem fromRequired?_of_dealt (hk : 0 < k) (hdvd : is.length ∣ ws.length) :
    (fromRequired? is k s = none ↔ ¬ (is.length ∣ k ∧ k + is.length ≤ ws.length)) ∧
      ∀ texts t, fromRequired? is k s = some (texts, t) →
        texts = ws.drop (ws.length - k) ∧ Dealt is (ws.take (ws.length - k)) t := by
  have hpos : 0 < is.length := List.length_pos_iff.mpr hne
  obtain ⟨q, hq⟩ := hdvd
  have hleast : leastSize is s = q := by
    rw [leastSize_of_dealt hne h, hq, Nat.mul_div_cancel_left q hpos]
  have hcond : (k % is.length ≠ 0 ∨ leastSize is s - 1 < k / is.length) ↔
      ¬ (is.length ∣ k ∧ k + is.length ≤ ws.length) := by
    rw [hleast, hq, ← not_iff_not, not_or, not_not, not_not, Nat.not_lt, ← Nat.dvd_iff_mod_eq_zero]
    refine and_congr_right fun ⟨r, hr⟩ => ?_
    subst hr
    have hr : 0 < r := Nat.pos_of_mul_pos_left hk
    rw [Nat.mul_div_cancel_left r hpos, ← Nat.mul_succ, Nat.mul_le_mul_left_iff hpos]
    omega
  constructor
  · rw [← hcond, fromRequired?, ite_eq_left_iff]
    simp only [reduceCtorEq, imp_false, not_not]
  · intro texts t heq
    rw [fromRequired?, Option.ite_none_left_eq_some, hcond, not_not] at heq
    obtain ⟨⟨⟨r, rfl⟩, hle⟩, heq⟩ := heq
    obtain ⟨rfl, rfl⟩ := Prod.mk.inj (Option.some.inj heq)
    rw [hq, ← Nat.mul_succ, Nat.mul_le_mul_left_iff hpos] at hle
    have hrounds : ws.length = is.length * (r + (q - r)) := by
      rw [hq]
      congr 1
      omega
    have hsub : ws.length - is.length * r = is.length * (q - r) := by
      rw [hq, Nat.mul_sub]
    rw [Nat.mul_div_cancel_left r hpos, hsub]
    exact popRounds_of_dealt hd h hrounds

omit hd in
/-- The slots that are ahead are the first ones, those of the round that is not complete. -/
theorem filter_ahead_of_dealt :
    (is.reverse.filter fun i => (s.get i).size ≠ leastSize is s) =
      (is.take (ws.length % is.length)).reverse := by
  rw [List.filter_reverse, List.reverse_inj, leastSize_of_dealt hne h]
  generalize hleast : ws.length / is.length = least
  have hahead : ∀ i ∈ is.take (ws.length % is.length), decide ((s.get i).size ≠ least) = true := by
    intro i hi
    obtain ⟨j, hj, rfl⟩ := List.mem_take_iff_getElem.mp hi
    have hj' : is[j]? = some is[j] := List.getElem?_eq_getElem (by omega)
    rw [h.size_eq hj', if_pos (by omega), hleast]
    simp
  have hbehind : ∀ i ∈ is.drop (ws.length % is.length), ¬ decide ((s.get i).size ≠ least) = true := by
    intro i hi
    obtain ⟨j, hj⟩ := List.mem_iff_getElem?.mp hi
    rw [List.getElem?_drop] at hj
    rw [h.size_eq hj, if_neg (by omega), hleast]
    simp
  calc is.filter (fun i => (s.get i).size ≠ least)
      = (is.take (ws.length % is.length) ++ is.drop (ws.length % is.length)).filter
          (fun i => (s.get i).size ≠ least) := by rw [List.take_append_drop]
    _ = is.take (ws.length % is.length) := by
      rw [List.filter_append, List.filter_eq_self.mpr hahead, List.filter_eq_nil_iff.mpr hbehind,
        List.append_nil]

end Lenders

/-- Within a round that is not complete. -/
theorem countdown_take {c : Nat} (hc : c < is.length) (hn : n % is.length = c) (hk : k ≤ c) :
    Countdown is n k ((is.take c).reverse.take k) := by
  intro j hj
  have hdiv := Nat.div_add_mod n is.length
  have hmod : (n - 1 - j) % is.length = c - 1 - j := by
    have hsplit : n - 1 - j = is.length * (n / is.length) + (c - 1 - j) := by omega
    rw [hsplit, Nat.mul_add_mod, Nat.mod_eq_of_lt (by omega)]
  have htake : (is.take c).length = c := by
    rw [List.length_take]
    omega
  rw [List.getElem?_take_of_lt hj, List.getElem?_reverse (by omega), htake, hmod,
    List.getElem?_take_of_lt (by omega)]

theorem getElem?_flatten_replicate {α : Type} {l : List α} (h : j < k * l.length) :
    (List.replicate k l).flatten[j]? = l[j % l.length]? := by
  induction k generalizing j with
  | zero => omega
  | succ k ih =>
    rw [Nat.succ_mul] at h
    rw [List.replicate_succ, List.flatten_cons]
    rcases Nat.lt_or_ge j l.length with hlt | hge
    · rw [List.getElem?_append_left hlt, Nat.mod_eq_of_lt hlt]
    · rw [List.getElem?_append_right hge, ih (by omega), Nat.mod_eq_sub_mod hge]

/-- Round by round, as long as there are words. -/
theorem countdown_turns (hne : is ≠ []) (hn : is.length ∣ n) (hk : k ≤ n) (hkm : k ≤ m) :
    Countdown is n k (List.replicate m is.reverse).flatten := by
  intro j hj
  obtain ⟨q, rfl⟩ := hn
  have hpos : 0 < is.length := List.length_pos_iff.mpr hne
  have hlt : j % is.length < is.length := Nat.mod_lt _ hpos
  have hmod : (is.length * q - 1 - j) % is.length = is.length - 1 - j % is.length := by
    obtain ⟨d, rfl⟩ : ∃ d, q = j / is.length + 1 + d :=
      Nat.exists_eq_add_of_le (Nat.div_lt_of_lt_mul (by omega))
    have hdiv := Nat.div_add_mod j is.length
    have hsplit : is.length * (j / is.length + 1 + d) - 1 - j =
        is.length * d + (is.length - 1 - j % is.length) := by
      rw [Nat.mul_add, Nat.mul_succ]
      omega
    rw [hsplit, Nat.mul_add_mod, Nat.mod_eq_of_lt (by omega)]
  have hturns : j < m * is.reverse.length := by
    rw [List.length_reverse]
    exact Nat.lt_of_lt_of_le (Nat.lt_of_lt_of_le hj hkm) (Nat.le_mul_of_pos_right m hpos)
  rw [getElem?_flatten_replicate hturns, List.length_reverse, List.getElem?_reverse hlt, hmod]

theorem fromOptional?_of_dealt (hd : is.Nodup) (hne : is ≠ []) (h : Dealt is ws s) :
    (fromOptional? is k s = none ↔ ws.length < k) ∧
      ∀ texts t, fromOptional? is k s = some (texts, t) →
        texts = ws.drop (ws.length - k) ∧ Dealt is (ws.take (ws.length - k)) t := by
  have hpos : 0 < is.length := List.length_pos_iff.mpr hne
  have hdiv := Nat.div_add_mod ws.length is.length
  generalize hc : ws.length % is.length = c at hdiv
  have hclt : c < is.length := hc ▸ Nat.mod_lt _ hpos
  have hlength : ((is.take c).reverse.take k).length = min k c := by
    simp only [List.length_take, List.length_reverse]
    omega
  have hahead := filter_ahead_of_dealt hne h
  simp only [fromOptional?, hahead, hc, hlength]
  rcases Nat.le_total k c with hk | hk
  · -- The round that is not complete has enough words.
    obtain ⟨u, hpop, hu⟩ := popUntil_of_dealt [] hd hne h (show k ≤ ws.length by omega)
      (countdown_take hclt hc hk)
    simp only [Nat.min_eq_left hk, hpop, Nat.sub_self, popUntil_zero, Option.bind_eq_bind,
      Option.bind_some, List.append_nil, reduceCtorEq, false_iff, Nat.not_lt]
    refine ⟨by omega, fun texts t ht => ?_⟩
    obtain ⟨rfl, rfl⟩ := Prod.mk.inj (Option.some.inj ht)
    exact ⟨rfl, hu⟩
  · obtain ⟨u, hpop, hu⟩ := popUntil_of_dealt [] hd hne h (show c ≤ ws.length by omega)
      (countdown_take hclt hc (Nat.le_refl c))
    have htake : (is.take c).reverse.take k = (is.take c).reverse.take c := by
      have hreverse : (is.take c).reverse.length ≤ c := by
        rw [List.length_reverse]
        exact List.length_take_le c is
      rw [List.take_of_length_le hreverse, List.take_of_length_le (Nat.le_trans hreverse hk)]
    have hlen : (ws.take (ws.length - c)).length = ws.length - c := by
      rw [List.length_take]
      omega
    have hwhole : is.length ∣ (ws.take (ws.length - c)).length :=
      ⟨ws.length / is.length, by rw [hlen]; omega⟩
    simp only [Nat.min_eq_right hk, htake, hpop, Option.bind_eq_bind, Option.bind_some, List.append_nil]
    rcases Nat.lt_or_ge ws.length k with hlt | hge
    · have hnone := popUntil_eq_none_of_dealt (k := k - c) (ws.drop (ws.length - c)) hd hne hu
        (by omega) (countdown_turns (m := k) hne hwhole (Nat.le_refl _) (by omega)) fun i hi => ?_
      · simp [hnone, hlt]
      · obtain ⟨l, hl, hi⟩ := List.mem_flatten.mp hi
        rw [(List.mem_replicate.mp hl).2] at hi
        exact List.mem_reverse.mp hi
    · obtain ⟨t, hpop', ht⟩ := popUntil_of_dealt (k := k - c) (ws.drop (ws.length - c)) hd hne
        hu (by omega) (countdown_turns (m := k) hne hwhole (by omega) (Nat.sub_le k c))
      have hsub : ws.length - c - (k - c) = ws.length - k := by omega
      rw [hlen, hsub, List.take_take, Nat.min_eq_left (by omega)] at ht
      rw [hlen, hsub, ← List.drop_append_of_le_length (by omega), List.take_append_drop] at hpop'
      simp only [hpop', reduceCtorEq, false_iff, Nat.not_lt]
      refine ⟨hge, fun texts t' ht' => ?_⟩
      obtain ⟨rfl, rfl⟩ := Prod.mk.inj (Option.some.inj ht')
      exact ⟨rfl, ht⟩

/-- How many of `n` words `m` slots can lend. A group without brackets lends whole rounds, and
keeps one of them. -/
def CanLend (m n k : Nat) : GroupKind → Prop
  | .required => m ∣ k ∧ k + m ≤ n
  | .optional => k ≤ n

theorem CanLend.le {m n k : Nat} {kind : GroupKind} (h : CanLend m n k kind) : k ≤ n := by
  cases kind with
  | required => exact Nat.le_trans (Nat.le_add_right _ _) h.2
  | optional => exact h

/-- The last words are lent, in their order, and the others stay as they were dealt. -/
theorem texts?_of_dealt (loan : Loan) (hd : loan.lenders.Nodup) (hne : loan.lenders ≠ [])
    (hb : loan.borrowers ≠ []) (h : Dealt loan.lenders ws s)
    (hwhole : loan.kind = .required → loan.lenders.length ∣ ws.length) :
    (loan.texts? s = none ↔
      ¬ CanLend loan.lenders.length ws.length loan.borrowers.length loan.kind) ∧
    ∀ texts t, loan.texts? s = some (texts, t) →
      texts = ws.drop (ws.length - loan.borrowers.length) ∧
        Dealt loan.lenders (ws.take (ws.length - loan.borrowers.length)) t := by
  unfold Loan.texts?
  cases hk : loan.kind with
  | required => exact fromRequired?_of_dealt hd hne h (List.length_pos_iff.mpr hb) (hwhole hk)
  | optional =>
    obtain ⟨hnone, hsome⟩ := fromOptional?_of_dealt hd hne h
    exact ⟨hnone.trans Nat.not_le.symm, hsome⟩

end Lending

end Synopsis
