import Synopsis.Matcher.Recorded

/-! # What repetitions do to slots

A slot that several leaves share is cleared and merged as if it had one leaf, as
long as they record the same kind of thing.
-/

namespace Synopsis

namespace Slots

theorem get_modify (s : Slots) (i j : Nat) (f : Slot → Slot) :
    (s.modify i f).get j = if j = i then f (s.get i) else s.get j :=
  get_set s i j _

@[simp] theorem get_modify_self (s : Slots) (i : Nat) (f : Slot → Slot) :
    (s.modify i f).get i = f (s.get i) := by
  simp [get_modify]

theorem get_modify_of_ne {s : Slots} {i j : Nat} {f : Slot → Slot} (h : j ≠ i) :
    (s.modify i f).get j = s.get j := by
  simp [get_modify, h]

theorem get_set_of_ne {s : Slots} {i j : Nat} {v : Slot} (h : j ≠ i) :
    (s.set i v).get j = s.get j := by
  simp [get_set, h]

@[simp] theorem get_set_self (s : Slots) (i : Nat) (v : Slot) : (s.set i v).get i = v := by
  simp [get_set]

end Slots

namespace Recorded

variable {rs : List Recorded} {r : Recorded} {slots : Slots} {history : List Slots} {i : Nat}

@[simp] theorem cleared_cleared (r : Recorded) (s : Slot) :
    r.cleared (r.cleared s) = r.cleared s := by
  obtain ⟨kind, i⟩ := r
  cases kind <;> cases s <;> rfl

theorem get_clearAll_of_forall_ne (h : ∀ r ∈ rs, r.slot ≠ i) :
    (clearAll rs slots).get i = slots.get i := by
  induction rs generalizing slots with
  | nil => rfl
  | cons r rs ih =>
    rw [clearAll, List.foldl_cons]
    exact (ih fun r' hr' => h r' (List.mem_cons_of_mem _ hr')).trans
      (Slots.get_modify_of_ne fun he => h r List.mem_cons_self he.symm)

theorem get_clearAll (hr : r ∈ rs) (h : ∀ r' ∈ rs, r'.slot = r.slot → r' = r) :
    (clearAll rs slots).get r.slot = r.cleared (slots.get r.slot) := by
  induction rs generalizing slots with
  | nil => cases hr
  | cons r' rs ih =>
    rw [clearAll, List.foldl_cons]
    have h' : ∀ r'' ∈ rs, r''.slot = r.slot → r'' = r := fun r'' hm =>
      h r'' (List.mem_cons_of_mem _ hm)
    by_cases he : r'.slot = r.slot
    · obtain rfl : r' = r := h r' List.mem_cons_self he
      by_cases hm : r' ∈ rs
      · exact (ih hm h').trans (by simp)
      · refine (get_clearAll_of_forall_ne ?_).trans (by simp)
        intro r'' hr'' hs
        exact hm (h' r'' hr'' hs ▸ hr'')
    · have hm : r ∈ rs := (List.mem_cons.mp hr).resolve_left fun hc => he (hc ▸ rfl)
      exact (ih hm h').trans (by rw [Slots.get_modify_of_ne (Ne.symm he)])

theorem get_mergeAll_of_forall_ne (h : ∀ r ∈ rs, r.slot ≠ i) :
    (mergeAll rs history slots).get i = slots.get i := by
  induction rs generalizing slots with
  | nil => rfl
  | cons r rs ih =>
    rw [mergeAll, List.foldl_cons]
    exact (ih fun r' hr' => h r' (List.mem_cons_of_mem _ hr')).trans
      (Slots.get_set_of_ne fun he => h r List.mem_cons_self he.symm)

theorem get_mergeAll (hr : r ∈ rs) (h : ∀ r' ∈ rs, r'.slot = r.slot → r' = r) :
    (mergeAll rs history slots).get r.slot = r.merged (history.map (·.get r.slot)) := by
  induction rs generalizing slots with
  | nil => cases hr
  | cons r' rs ih =>
    rw [mergeAll, List.foldl_cons]
    have h' : ∀ r'' ∈ rs, r''.slot = r.slot → r'' = r := fun r'' hm =>
      h r'' (List.mem_cons_of_mem _ hm)
    by_cases hm : r ∈ rs
    · exact ih hm h'
    · obtain rfl : r' = r := ((List.mem_cons.mp hr).resolve_right hm).symm
      refine (get_mergeAll_of_forall_ne ?_).trans (by simp)
      intro r'' hr'' hs
      exact hm (h' r'' hr'' hs ▸ hr'')

end Recorded

end Synopsis
