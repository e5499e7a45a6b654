import Mathlib.Data.List.Nodup
import Mathlib.Data.List.Pairwise
import Synopsis.Collections.OrderedMap
import Synopsis.Collections.OrderedSet

/-! # Laws of ordered sets and maps

A set has the elements that are put into it, and a map finds under a key what was
last put there. Sets with the same elements are equal.
-/

namespace Synopsis

namespace OrderedSet

variable {α : Type} [Ord α]

theorem eq_of_toList_eq {s t : OrderedSet α} (h : s.toList = t.toList) : s = t := by
  cases s
  cases t
  cases h
  rfl

variable [Std.TransOrd α]

theorem place_of_forall_lt {a : α} {bs : List α} (h : ∀ b ∈ bs, compare b a = .lt) :
    place a bs = bs ++ [a] := by
  induction bs with
  | nil => rfl
  | cons b bs ih =>
    have hb : compare a b = .gt := Std.OrientedCmp.gt_of_lt (h b List.mem_cons_self)
    rw [place, hb, ih fun b hb => h b (List.mem_cons_of_mem _ hb), List.cons_append]

theorem toList_insertAll {s : OrderedSet α} {as : List α}
    (h : (s.toList ++ as).Pairwise fun a b => compare a b = .lt) :
    (s.insertAll as).toList = s.toList ++ as := by
  induction as generalizing s with
  | nil => simp [insertAll]
  | cons a as ih =>
    have hlt : ∀ b ∈ s.toList, compare b a = .lt := fun b hb =>
      (List.pairwise_append.mp h).2.2 b hb a List.mem_cons_self
    have hinsert : (s.insert a).toList = s.toList ++ [a] := place_of_forall_lt hlt
    have := ih (s := s.insert a) (by rwa [hinsert, List.append_assoc])
    rwa [hinsert, List.append_assoc] at this

theorem ofList_toList (s : OrderedSet α) : ofList s.toList = s :=
  eq_of_toList_eq (toList_insertAll (s := empty) s.sorted)

theorem nodup_toList (s : OrderedSet α) : s.toList.Nodup :=
  s.sorted.imp fun {a b} h he => by
    subst he
    simp at h

/-! ## Elements -/

theorem ext {s t : OrderedSet α} (h : ∀ a, a ∈ s.toList ↔ a ∈ t.toList) : s = t := by
  apply eq_of_toList_eq
  have hperm := (List.perm_ext_iff_of_nodup s.nodup_toList t.nodup_toList).mpr h
  have hanti (a b : α) (hab : compare a b = .lt) (hba : compare b a = .lt) : a = b :=
    absurd hba (Std.OrientedCmp.not_lt_of_lt hab)
  exact hperm.eq_of_pairwise (fun a b _ _ => hanti a b) s.sorted t.sorted

@[simp] theorem toList_singleton (a : α) : (singleton a).toList = [a] := rfl

variable [Std.LawfulEqOrd α] {s t : OrderedSet α} {a b : α}

omit [Std.TransOrd α] in
theorem contains_iff : s.contains a = true ↔ a ∈ s.toList := by
  simp [contains]

omit [Std.TransOrd α] in
theorem isDisjoint_iff : s.isDisjoint t = true ↔ ∀ a ∈ s.toList, a ∉ t.toList := by
  simp [isDisjoint, contains]

omit [Std.TransOrd α] in
theorem mem_place {bs : List α} : b ∈ place a bs ↔ b = a ∨ b ∈ bs := by
  refine ⟨mem_of_mem_place, ?_⟩
  induction bs with
  | nil => simp [place]
  | cons c bs ih =>
    unfold place
    split
    · simp
    · rename_i hac
      obtain rfl := Std.LawfulEqOrd.eq_of_compare hac
      simp
    · rintro (rfl | h)
      · exact List.mem_cons_of_mem _ (ih (.inl rfl))
      · rcases List.mem_cons.mp h with rfl | h
        · exact List.mem_cons_self
        · exact List.mem_cons_of_mem _ (ih (.inr h))

theorem mem_insert : b ∈ (s.insert a).toList ↔ b = a ∨ b ∈ s.toList := mem_place

theorem mem_insertAll {as : List α} : b ∈ (s.insertAll as).toList ↔ b ∈ s.toList ∨ b ∈ as := by
  induction as generalizing s with
  | nil => simp [insertAll]
  | cons a as ih =>
    change b ∈ ((s.insert a).insertAll as).toList ↔ _
    rw [ih, mem_insert, List.mem_cons]
    tauto

theorem mem_ofList {as : List α} : b ∈ (ofList as).toList ↔ b ∈ as := by
  rw [ofList, mem_insertAll]
  simp [empty]

theorem mem_union : b ∈ (s.union t).toList ↔ b ∈ s.toList ∨ b ∈ t.toList := mem_insertAll

theorem union_eq_right (h : ∀ a ∈ s.toList, a ∈ t.toList) : s.union t = t := by
  refine ext fun a => ?_
  rw [mem_union]
  exact ⟨fun ha => ha.elim (h a) id, .inr⟩

end OrderedSet

namespace OrderedMap

variable {κ ν : Type} [Ord κ]

@[simp] theorem find?_empty (k : κ) : (∅ : OrderedMap κ ν).find? k = none := rfl

variable [Std.LawfulEqOrd κ] {m n : OrderedMap κ ν} {k k' : κ} {v : ν}
  {es : List (κ × ν)}

/-- The value of the first entry under a key. -/
def lookup (k : κ) (es : List (κ × ν)) : Option ν := (es.find? (compare k ·.1 == .eq)).map (·.2)

theorem lookup_eq_none : lookup k es = none ↔ k ∉ es.map (·.1) := by
  simp [lookup]
  grind

theorem mem_keys_iff : k ∈ m.keys ↔ (m.find? k).isSome := by
  rw [Option.isSome_iff_ne_none]
  exact (not_iff_comm.mp lookup_eq_none.symm).symm

theorem nodup_keys [Std.TransOrd κ] (m : OrderedMap κ ν) : (m.entries.map (·.1)).Nodup := by
  rw [List.Nodup, List.pairwise_map]
  refine m.sorted.imp fun {a b} h he => ?_
  rw [he] at h
  simp at h

variable [DecidableEq κ]

theorem lookup_cons {e : κ × ν} :
    lookup k (e :: es) = if k = e.1 then some e.2 else lookup k es := by
  by_cases h : k = e.1 <;> simp [lookup, h]

theorem lookup_place : lookup k' (place k v es) = if k' = k then some v else lookup k' es := by
  induction es with
  | nil => simp [place, lookup_cons]
  | cons e es ih =>
    unfold place
    split
    · rw [lookup_cons]
    · rename_i hk
      obtain rfl := Std.LawfulEqOrd.eq_of_compare hk
      rw [lookup_cons, lookup_cons]
      split <;> rfl
    · rename_i hk
      have hne : e.1 ≠ k := by
        rintro rfl
        simp at hk
      rw [lookup_cons, lookup_cons, ih]
      split
      · rename_i he
        rw [if_neg (he ▸ hne)]
      · rfl

variable [Std.TransOrd κ]

theorem find?_insert : (m.insert k v).find? k' = if k' = k then some v else m.find? k' :=
  lookup_place

theorem find?_insertAll_of_notMem (h : k ∉ es.map (·.1)) : (m.insertAll es).find? k = m.find? k := by
  induction es generalizing m with
  | nil => rfl
  | cons e es ih =>
    simp only [List.map_cons, List.mem_cons, not_or] at h
    change ((m.insert e.1 e.2).insertAll es).find? k = _
    rw [ih h.2, find?_insert, if_neg h.1]

/-- Entries of which those under one key agree. -/
theorem find?_insertAll (h : ∀ e ∈ es, e.1 = k → e.2 = v) :
    (m.insertAll es).find? k = if k ∈ es.map (·.1) then some v else m.find? k := by
  induction es generalizing m with
  | nil => simp [insertAll]
  | cons e es ih =>
    change ((m.insert e.1 e.2).insertAll es).find? k = _
    rw [ih fun e he => h e (List.mem_cons_of_mem _ he), find?_insert]
    have he := h e List.mem_cons_self
    by_cases hk : k = e.1
    · simp [hk, he hk.symm]
    · simp only [if_neg hk, List.map_cons, List.mem_cons, or_iff_right hk]

theorem mem_of_find?_insertAll (h : (m.insertAll es).find? k = some v) :
    (k, v) ∈ es ∨ m.find? k = some v := by
  induction es generalizing m with
  | nil => exact .inr h
  | cons e es ih =>
    rcases ih h with hmem | hfind
    · exact .inl (List.mem_cons_of_mem _ hmem)
    · rw [find?_insert] at hfind
      split at hfind
      next hk =>
        obtain rfl := Option.some.inj hfind
        exact .inl (hk ▸ List.mem_cons_self)
      next => exact .inr hfind

theorem find?_const {ks : List κ} : (const ks v).find? k = if k ∈ ks then some v else none := by
  have h : ∀ e ∈ ks.map (·, v), e.1 = k → e.2 = v := by simp
  have hfind := find?_insertAll (m := ∅) h
  rwa [find?_empty, List.map_map, Function.comp_def, List.map_id'] at hfind

theorem find?_eq_some_iff : m.find? k = some v ↔ (k, v) ∈ m.entries := by
  change lookup k m.entries = some v ↔ _
  have hnodup := m.nodup_keys
  generalize m.entries = es at hnodup ⊢
  induction es with
  | nil => simp [lookup]
  | cons e es ih =>
    obtain ⟨hnew, hnodup⟩ := List.nodup_cons.mp hnodup
    rw [lookup_cons, List.mem_cons]
    by_cases hk : k = e.1
    · have hes : (k, v) ∉ es := fun hmem => hnew (List.mem_map.mpr ⟨_, hmem, hk⟩)
      rw [if_pos hk, or_iff_left hes, Option.some.injEq, Prod.ext_iff]
      exact ⟨fun h => ⟨hk, h.symm⟩, fun h => h.2.symm⟩
    · simp [hk, ih hnodup, Prod.ext_iff]

/-- Maps with the same values under the same keys are equal. -/
theorem ext {m n : OrderedMap κ ν} (h : ∀ k, m.find? k = n.find? k) : m = n := by
  have hmem (e : κ × ν) : e ∈ m.entries ↔ e ∈ n.entries := by
    rw [← find?_eq_some_iff, ← find?_eq_some_iff, h]
  have hperm := (List.perm_ext_iff_of_nodup m.nodup_keys.of_map n.nodup_keys.of_map).mpr hmem
  have hanti (a b : κ × ν) (hab : compare a.1 b.1 = .lt) (hba : compare b.1 a.1 = .lt) : a = b :=
    absurd hba (Std.OrientedCmp.not_lt_of_lt hab)
  have hentries := hperm.eq_of_pairwise (fun a b _ _ => hanti a b) m.sorted n.sorted
  cases m
  cases n
  cases hentries
  rfl

theorem find?_union : (m.union n).find? k = (n.find? k).or (m.find? k) := by
  change (m.insertAll n.entries).find? k = (lookup k n.entries).or _
  have hnodup := n.nodup_keys
  generalize n.entries = es at hnodup ⊢
  induction es generalizing m with
  | nil => rfl
  | cons e es ih =>
    obtain ⟨hnew, hnodup⟩ := List.nodup_cons.mp hnodup
    change ((m.insert e.1 e.2).insertAll es).find? k = _
    rw [ih hnodup, lookup_cons, find?_insert]
    by_cases hk : k = e.1
    · simp [hk, lookup_eq_none.mpr hnew]
    · simp [hk]

theorem find?_insertWith {merge : ν → ν → ν} : (m.insertWith merge k v).find? k' =
    if k' = k then some ((m.find? k).elim v (merge · v)) else m.find? k' := find?_insert

/-- One map merged into another, key by key. -/
theorem find?_foldl_insertWith {f : κ → ν → ν → ν} :
    (n.entries.foldl (fun m e => m.insertWith (f e.1) e.1 e.2) m).find? k =
      (n.find? k).elim (m.find? k) fun v => some ((m.find? k).elim v (f k · v)) := by
  change _ = (lookup k n.entries).elim _ _
  have hnodup := n.nodup_keys
  generalize n.entries = es at hnodup ⊢
  induction es generalizing m with
  | nil => rfl
  | cons e es ih =>
    obtain ⟨hnew, hnodup⟩ := List.nodup_cons.mp hnodup
    rw [List.foldl_cons, ih hnodup, lookup_cons, find?_insertWith]
    by_cases hk : k = e.1
    · simp [hk, lookup_eq_none.mpr hnew]
    · simp [hk]

/-! ## Keys -/

theorem mem_keys_insert : k' ∈ (m.insert k v).keys ↔ k' = k ∨ k' ∈ m.keys := by
  rw [mem_keys_iff, mem_keys_iff, find?_insert]
  split <;> simp_all

theorem mem_keys_insertAll : k ∈ (m.insertAll es).keys ↔ k ∈ m.keys ∨ k ∈ es.map (·.1) := by
  induction es generalizing m with
  | nil => simp [insertAll]
  | cons e es ih =>
    change k ∈ ((m.insert e.1 e.2).insertAll es).keys ↔ _
    rw [ih, mem_keys_insert, List.map_cons, List.mem_cons]
    grind

theorem mem_keys_ofList : k ∈ (ofList es).keys ↔ k ∈ es.map (·.1) :=
  mem_keys_insertAll.trans (or_iff_right List.not_mem_nil)

theorem mem_keys_const {ks : List κ} : k ∈ (const ks v).keys ↔ k ∈ ks := by
  simp [const, mem_keys_ofList]

theorem mem_keys_union : k ∈ (m.union n).keys ↔ k ∈ m.keys ∨ k ∈ n.keys := mem_keys_insertAll

theorem mem_keys_foldl_insertWith {f : κ → ν → ν → ν} :
    k ∈ (n.entries.foldl (fun m e => m.insertWith (f e.1) e.1 e.2) m).keys ↔
      k ∈ m.keys ∨ k ∈ n.keys := by
  simp only [mem_keys_iff, find?_foldl_insertWith]
  cases n.find? k <;> simp

end OrderedMap

end Synopsis
