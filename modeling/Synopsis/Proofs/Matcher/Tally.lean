import Mathlib.Algebra.BigOperators.Group.List.Basic
import Mathlib.Tactic.Abel
import Synopsis.Proofs.Matcher.Frame

/-! # Tallies

What leaves count of their slots, such as texts or hits, added up over the leaves. A
slot that changes changes the total by its own share; a repetition that clears its
slots and merges them in the end adds up the totals of its passes.
-/

namespace Synopsis

/-- What a leaf counts of its slot: nothing while the slot is cleared, and together
what it counts of each pass once the passes are merged. -/
structure Tally (M : Type) [AddCommMonoid M] where
  yield : Pattern → Slot → M
  unset (q : Pattern) : yield q .unset = 0
  cleared {q : Pattern} {r : Recorded} (hr : q.ownRecord? = some r) (x : Slot) :
    yield q (r.cleared x) = 0
  merged {q : Pattern} {r : Recorded} (hr : q.ownRecord? = some r) (history : List Slot) :
    yield q (r.merged history) = (history.map (yield q)).sum

/-- The leaves of a repetition are among all leaves, and none of them shares its slot. -/
structure Among (all : List Pattern) (leaves : List Recorded) : Prop where
  nodup : (all.filterMap Pattern.slot?).Nodup
  mem : ∀ r ∈ leaves, ∃ q ∈ all, q.ownRecord? = some r

namespace Among

variable {all : List Pattern} {leaves : List Recorded} {q : Pattern} {r : Recorded}

theorem record (h : Among all leaves) (hq : q ∈ all) (hr : r ∈ leaves)
    (hi : q.slot? = some r.slot) : q.ownRecord? = some r := by
  obtain ⟨q', hq', hr'⟩ := h.mem r hr
  have hi' : q'.slot? = some r.slot := by simp [Pattern.slot?, hr']
  obtain rfl := Pattern.eq_of_slot?_eq h.nodup hq hq' hi hi'
  exact hr'

theorem unique (h : Among all leaves) (hr : r ∈ leaves) :
    ∀ r' ∈ leaves, r'.slot = r.slot → r' = r := fun r' hr' he => by
  obtain ⟨q, hq, hqr⟩ := h.mem r hr
  have := h.record hq hr' (by simp [Pattern.slot?, hqr, he])
  exact Option.some.inj (this.symm.trans hqr)

end Among

/-- A balance between two streams, over what was counted before and after. -/
structure Ledger {M : Type} [AddCommMonoid M] (B : Argv → Argv → M → M → Prop) : Prop where
  trans {a b c : Argv} {x y z : M} (h : B a b x y) (h' : B b c y z) : B a c x z
  add_right {a b : Argv} {x y : M} (more : M) (h : B a b x y) : B a b (x + more) (y + more)
  still {a b : Argv} (ht : b.tokens = a.tokens) (hs : b.style = a.style) (x : M) : B a b x x

namespace Tally

variable {M : Type} [AddCommMonoid M] (T : Tally M) {all : List Pattern}
  {leaves : List Recorded} {q : Pattern} {r : Recorded} {s t : Slots} {history : List Slots}
  {i : Nat}

def content (s : Slots) (q : Pattern) : M := q.slot?.elim 0 fun i => T.yield q (s.get i)

/-- What some leaves count. -/
def total (all : List Pattern) (s : Slots) : M := (all.map (T.content s)).sum

theorem content_of_slot? (h : q.slot? = some i) : T.content s q = T.yield q (s.get i) := by
  simp [content, h]

theorem content_congr (h : ∀ i, q.slot? = some i → T.yield q (t.get i) = T.yield q (s.get i)) :
    T.content t q = T.content s q := by
  unfold content
  cases hq : q.slot? with
  | none => rfl
  | some i => exact h i hq

theorem total_congr (h : ∀ q ∈ all, ∀ i, q.slot? = some i →
    T.yield q (t.get i) = T.yield q (s.get i)) : T.total all t = T.total all s :=
  congrArg List.sum (List.map_congr_left fun q hq => T.content_congr (h q hq))

theorem total_blank (size : Nat) : T.total all (.blank size) = 0 := by
  apply List.sum_eq_zero
  intro x hx
  obtain ⟨q, -, rfl⟩ := List.mem_map.mp hx
  cases hq : q.slot? with
  | none => simp [content, hq]
  | some i => rw [T.content_of_slot? hq, Slots.get_blank, T.unset]

/-- A single slot changes. -/
theorem total_add_content (hall : (all.filterMap Pattern.slot?).Nodup) (hq : q ∈ all)
    (hi : q.slot? = some i) (h : ∀ j ≠ i, t.get j = s.get j) :
    T.total all t + T.content s q = T.total all s + T.content t q := by
  obtain ⟨as, bs, rfl⟩ := List.append_of_mem hq
  have hother {ps : List Pattern} (hne : ∀ p ∈ ps, p.slot? ≠ some i) :
      ps.map (T.content t) = ps.map (T.content s) :=
    List.map_congr_left fun p hp => T.content_congr fun j hj => by
      rw [h j]
      rintro rfl
      exact hne p hp hj
  rw [List.filterMap_append, List.filterMap_cons_some hi, List.nodup_append',
    List.nodup_cons] at hall
  obtain ⟨-, ⟨hbs, -⟩, has⟩ := hall
  have has : as.map (T.content t) = as.map (T.content s) := hother fun p hp he =>
    has (List.mem_filterMap.mpr ⟨p, hp, he⟩) List.mem_cons_self
  have hbs : bs.map (T.content t) = bs.map (T.content s) := hother fun p hp he =>
    hbs (List.mem_filterMap.mpr ⟨p, hp, he⟩)
  simp only [total, List.map_append, List.map_cons, List.sum_append, List.sum_cons, has, hbs]
  abel

/-! ## Repetitions -/

/-- What a leaf counts if it is one of a repetition. -/
def share (leaves : List Recorded) (s : Slots) (q : Pattern) : M :=
  if ∃ r ∈ leaves, q.slot? = some r.slot then T.content s q else 0

def shares (all : List Pattern) (leaves : List Recorded) (history : List Slots) : M :=
  (all.map fun q => (history.map fun s => T.share leaves s q).sum).sum

theorem shares_nil : T.shares all leaves [] = 0 := by
  simp [shares]

theorem shares_perm {h h' : List Slots} (hp : h.Perm h') :
    T.shares all leaves h = T.shares all leaves h' :=
  congrArg List.sum (List.map_congr_left fun _ _ => (hp.map _).sum_eq)

theorem shares_append (h h' : List Slots) :
    T.shares all leaves (h ++ h') = T.shares all leaves h + T.shares all leaves h' := by
  simp only [shares, List.map_append, List.sum_append]
  exact List.sum_map_add ..

theorem content_mergeAll (h : Among all leaves) (hq : q ∈ all) :
    T.content (Recorded.mergeAll leaves history s) q =
      T.content (Recorded.clearAll leaves s) q +
        (history.map fun s => T.share leaves s q).sum := by
  by_cases hm : ∃ r ∈ leaves, q.slot? = some r.slot
  · obtain ⟨r, hr, hi⟩ := hm
    have hqr := h.record hq hr hi
    have hm : ∃ r ∈ leaves, q.slot? = some r.slot := ⟨r, hr, hi⟩
    simp only [share, if_pos hm, T.content_of_slot? hi, Recorded.get_mergeAll hr (h.unique hr),
      Recorded.get_clearAll hr (h.unique hr), T.cleared hqr, T.merged hqr, List.map_map, zero_add]
    rfl
  · simp only [share, if_neg hm, List.map_const', List.sum_replicate, nsmul_zero, add_zero]
    apply T.content_congr
    intro i hi
    have hne : ∀ r ∈ leaves, r.slot ≠ i := fun r hr he => hm ⟨r, hr, he ▸ hi⟩
    rw [Recorded.get_mergeAll_of_forall_ne hne, Recorded.get_clearAll_of_forall_ne hne]

theorem content_clearAll (h : Among all leaves) (hq : q ∈ all) :
    T.content (Recorded.clearAll leaves s) q + T.share leaves s q = T.content s q := by
  by_cases hm : ∃ r ∈ leaves, q.slot? = some r.slot
  · obtain ⟨r, hr, hi⟩ := hm
    have hqr := h.record hq hr hi
    have hm : ∃ r ∈ leaves, q.slot? = some r.slot := ⟨r, hr, hi⟩
    simp only [share, if_pos hm, T.content_of_slot? hi, Recorded.get_clearAll hr (h.unique hr),
      T.cleared hqr, zero_add]
  · simp only [share, if_neg hm, add_zero]
    apply T.content_congr
    intro i hi
    rw [Recorded.get_clearAll_of_forall_ne fun r hr he => hm ⟨r, hr, he ▸ hi⟩]

/-- Merging the slots of some passes puts what they count back together. -/
theorem total_mergeAll (h : Among all leaves) :
    T.total all (Recorded.mergeAll leaves history s) =
      T.total all (Recorded.clearAll leaves s) + T.shares all leaves history := by
  rw [total, total, shares, ← List.sum_map_add]
  exact congrArg List.sum (List.map_congr_left fun q hq => T.content_mergeAll h hq)

theorem total_clearAll (h : Among all leaves) :
    T.total all (Recorded.clearAll leaves s) + T.shares all leaves [s] = T.total all s := by
  rw [total, total, shares, ← List.sum_map_add]
  refine congrArg List.sum (List.map_congr_left ?_)
  intro q hq
  simpa using T.content_clearAll h hq

theorem total_clearAll_clearAll (h : Among all leaves) :
    T.total all (Recorded.clearAll leaves (Recorded.clearAll leaves s)) =
      T.total all (Recorded.clearAll leaves s) := by
  refine congrArg List.sum (List.map_congr_left ?_)
  intro q hq
  have hcleared : T.share leaves (Recorded.clearAll leaves s) q = 0 := by
    unfold share
    split
    next hm =>
      obtain ⟨r, hr, hi⟩ := hm
      rw [T.content_of_slot? hi, Recorded.get_clearAll hr (h.unique hr),
        T.cleared (h.record hq hr hi)]
    next => rfl
  rw [← T.content_clearAll h hq (s := Recorded.clearAll leaves s), hcleared, add_zero]

/-- What is counted, with the passes of a repetition that have ended. -/
def running (all : List Pattern) (leaves : List Recorded) (history : List Slots) (s : Slots) : M :=
  T.total all (Recorded.clearAll leaves s) + T.shares all leaves history

section Passes

variable {B : Argv → Argv → M → M → Prop} {once : Step} {history' : List Slots}
  {s t : Attempt} {log : List Move} (hB : Ledger B) (ha : Among all leaves)
  (ho : ∀ s log t, once s log true t → B s.argv t.argv (T.total all s.slots) (T.total all t.slots))
  (hu : ∀ s log t, once s log false t → Undone s log t ∧ t.argv.style = s.argv.style)
include hB ha ho hu

theorem running_of_repeatPasses (h : RepeatPasses once leaves history s log history' t) :
    B s.argv t.argv (T.running all leaves history s.slots)
      (T.running all leaves history' t.slots) := by
  -- A pass adds what its leaves count to the history.
  have pass {s t : Attempt} {log : List Move} {history : List Slots}
      (run : once (s.cleared leaves) log true t) :
      B s.argv t.argv (T.running all leaves history s.slots)
        (T.running all leaves (t.slots :: history) t.slots) := by
    have hrunning : T.running all leaves (t.slots :: history) t.slots =
        T.total all t.slots + T.shares all leaves history := by
      rw [← T.total_clearAll ha, add_assoc, ← T.shares_append]
      rfl
    rw [hrunning]
    exact hB.add_right _ (ho _ _ _ run)
  induction h with
  | empty => exact hB.still rfl rfl _
  | @failed s t log history _ run =>
    obtain ⟨hundone, hstyle⟩ := hu _ _ _ run
    have hrunning : T.running all leaves history t.slots = T.running all leaves history s.slots := by
      rw [hundone.slots_eq]
      exact congrArg (· + _) (T.total_clearAll_clearAll ha)
    rw [hrunning]
    exact hB.still hundone.tokens_eq hstyle _
  | still _ run => exact pass run
  | again _ run _ _ ih => exact hB.trans (pass run) ih

/-- A balance that each pass keeps, the repetition keeps. -/
theorem balance_of_repeatPasses (h : RepeatPasses once leaves [] s log history t) :
    B s.argv t.argv (T.total all s.slots)
      (T.total all (Recorded.mergeAll leaves (s.slots :: history.reverse) t.slots)) := by
  have hb : B s.argv t.argv
      (T.running all leaves [] s.slots + T.shares all leaves [s.slots])
      (T.running all leaves history t.slots + T.shares all leaves [s.slots]) :=
    hB.add_right _ (T.running_of_repeatPasses hB ha ho hu h)
  have hstart : T.running all leaves [] s.slots + T.shares all leaves [s.slots] =
      T.total all s.slots := by
    rw [running, shares_nil, add_zero, T.total_clearAll ha]
  have hend : T.running all leaves history t.slots + T.shares all leaves [s.slots] =
      T.total all (Recorded.mergeAll leaves (s.slots :: history.reverse) t.slots) := by
    have hperm : (history ++ [s.slots]).Perm (s.slots :: history.reverse) :=
      List.perm_append_comm.trans ((List.reverse_perm history).symm.cons s.slots)
    rw [running, T.total_mergeAll ha, add_assoc, ← T.shares_append, T.shares_perm hperm]
  rwa [hstart, hend] at hb

end Passes

end Tally

end Synopsis
