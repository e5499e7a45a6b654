import Synopsis.Proofs.Help.Alternatives
import Synopsis.Proofs.Matcher.Frame

/-! # What a scan keeps track of

A line says of each of its patterns whether it has matched. What a match says of the
slots of its own pattern stays true when the patterns beside it are tried again.
-/

namespace Synopsis

open Pattern (Reaches slots Plain Distinct)

variable {scope : Scope} {L : Pattern → Prop} {s t : Attempt} {log : List Move}

/-- A pattern without alternations whose leaves do not share their slots. -/
structure Pattern.Regular (scope : Scope) (L : Pattern → Prop) (p : Pattern) : Prop where
  plain : Plain p
  distinct : Distinct scope [p]
  reach : ∀ q, Reaches scope p q → L q

theorem Pattern.Regular.child {kind : GroupKind} {line : List Pattern} {repeats : Bool}
    {c : Pattern} (h : Regular scope L (.group kind line repeats)) (hc : c ∈ line) :
    Regular scope L c where
  plain := h.plain.children c hc
  distinct := h.distinct.children.singleton hc
  reach _ hq := h.reach _ (.child hc hq)

theorem Pattern.Regular.recorded {p : Pattern} {k : Nat} {leaves : List Recorded}
    (h : p.Regular scope L) (hl : p.recorded? scope k = some leaves) :
    ∀ r ∈ leaves, ∃ q, L q ∧ q.ownRecord? = some r := fun r hr => by
  obtain ⟨q, hq, hr⟩ := (mem_recorded_iff hl).mp hr
  exact ⟨q, h.reach q hq, hr⟩

/-! ## Scans -/

/-- A property `Q` of the patterns of a line that their matches establish and no match
of the line destroys, as long as `I` holds. -/
structure Tracks (R : Pattern → Step) (line : List Pattern) (I : Slots → Prop)
    (Q : Pattern → Slots → Prop) : Prop where
  keeps {c : Pattern} {s t : Attempt} {log : List Move} {b : Bool} (hc : c ∈ line)
    (h : R c s log b t) (hs : I s.slots) : I t.slots
  marks {c : Pattern} {s t : Attempt} {log : List Move} (hc : c ∈ line)
    (h : R c s log true t) (hs : I s.slots) : Q c t.slots
  holds {c c' : Pattern} {s t : Attempt} {log : List Move} {b : Bool} (hc : c ∈ line)
    (hc' : c' ∈ line) (h : R c' s log b t) (hs : I s.slots) (hq : Q c s.slots) : Q c t.slots

namespace Tracks

variable {R : Pattern → Step} {line : List Pattern} {I : Slots → Prop}
  {Q : Pattern → Slots → Prop} {xs ys : List Scanned}

theorem passHolds (hT : Tracks R line I Q) {place : Nat} {last last' : Option Nat} {c : Pattern}
    (h : Pass R place last xs s log last' ys t) (hc : c ∈ line) (hx : ∀ x ∈ xs, x.pattern ∈ line)
    (hs : I s.slots) (hq : Q c s.slots) : I t.slots ∧ Q c t.slots := by
  induction h with
  | nil | empty => exact ⟨hs, hq⟩
  | hit _ run _ ih | miss _ run _ ih =>
    rw [List.forall_mem_cons] at hx
    exact ih hx.2 (hT.keeps hx.1 run hs) (hT.holds hc hx.1 run hs hq)

/-- After a pass, everything marked has the property. -/
theorem pass (hT : Tracks R line I Q) {place : Nat} {last last' : Option Nat}
    (h : Pass R place last xs s log last' ys t) (hx : ∀ x ∈ xs, x.pattern ∈ line)
    (hs : I s.slots) (hq : ∀ x ∈ xs, x.matched = true → Q x.pattern s.slots) :
    I t.slots ∧ (∀ y ∈ ys, y.matched = true → Q y.pattern t.slots) ∧
      ys.map (·.pattern) = xs.map (·.pattern) := by
  induction h with
  | nil | empty => exact ⟨hs, hq, rfl⟩
  | hit _ run rest ih =>
    rw [List.forall_mem_cons] at hx hq
    have ht := hT.keeps hx.1 run hs
    obtain ⟨hu, hys, hmap⟩ := ih hx.2 ht fun x hm hmatched =>
      hT.holds (hx.2 x hm) hx.1 run hs (hq.2 x hm hmatched)
    have hhit := (hT.passHolds rest hx.1 hx.2 ht (hT.marks hx.1 run hs)).2
    exact ⟨hu, List.forall_mem_cons.mpr ⟨fun _ => hhit, hys⟩, by simp [hmap]⟩
  | miss _ run rest ih =>
    rw [List.forall_mem_cons] at hx hq
    have ht := hT.keeps hx.1 run hs
    obtain ⟨hu, hys, hmap⟩ := ih hx.2 ht fun x hm hmatched =>
      hT.holds (hx.2 x hm) hx.1 run hs (hq.2 x hm hmatched)
    have hmiss := fun hm => (hT.passHolds rest hx.1 hx.2 ht
      (hT.holds hx.1 hx.1 run hs (hq.1 hm))).2
    exact ⟨hu, List.forall_mem_cons.mpr ⟨hmiss, hys⟩, by simp [hmap]⟩

theorem passes (hT : Tracks R line I Q) {last : Option Nat}
    (h : Passes R last xs s log ys t) (hx : ∀ x ∈ xs, x.pattern ∈ line)
    (hs : I s.slots) (hq : ∀ x ∈ xs, x.matched = true → Q x.pattern s.slots) :
    I t.slots ∧ (∀ y ∈ ys, y.matched = true → Q y.pattern t.slots) ∧
      ys.map (·.pattern) = xs.map (·.pattern) := by
  induction h with
  | empty => exact ⟨hs, hq, rfl⟩
  | still _ pass => exact hT.pass pass hx hs hq
  | again _ pass _ _ ih =>
    obtain ⟨ht, hys, hmap⟩ := hT.pass pass hx hs hq
    obtain ⟨hu, hzs, hmap'⟩ := ih (fun y hy => by
      obtain ⟨x, hx', he⟩ := List.mem_map.mp (hmap ▸ List.mem_map_of_mem hy)
      exact he ▸ hx x hx') ht hys
    exact ⟨hu, hzs, hmap'.trans hmap⟩

/-- If everything on a line has matched, the property holds of all its patterns. -/
theorem scan (hT : Tracks R line I Q)
    (hstart : ∀ c ∈ line, (Scanned.start c).matched = true → Q c s.slots)
    (h : Scan R line s log xs t) (hs : I s.slots) :
    I t.slots ∧ (xs.all (·.matched) = true → ∀ c ∈ line, Q c t.slots) := by
  have hin : ∀ x ∈ line.map Scanned.start, x.pattern ∈ line := fun x hx => by
    obtain ⟨c, hc, rfl⟩ := List.mem_map.mp hx
    exact hc
  obtain ⟨ht, hxs, hmap⟩ := hT.passes h hin hs fun x hx hm => by
    obtain ⟨c, hc, rfl⟩ := List.mem_map.mp hx
    exact hstart c hc hm
  refine ⟨ht, ?_⟩
  intro hall c hc
  have hline : xs.map (·.pattern) = line := by
    simpa [Function.comp_def, Scanned.start] using hmap
  obtain ⟨x, hx, rfl⟩ := List.mem_map.mp (hline ▸ hc)
  exact hxs x hx (List.all_eq_true.mp hall x hx)

/-- What depends on the slots of one pattern only is kept by the others. -/
theorem ofRun {n : Nat} (hd : Distinct scope line)
    (hI : ∀ c ∈ line, ∀ s log b t, Run scope n false c s log b t → I s.slots → I t.slots)
    (hQ : ∀ c ∈ line, ∀ s log t, Run scope n false c s log true t → I s.slots → Q c t.slots)
    (hcongr : ∀ c ∈ line, ∀ s t : Slots, (∀ i ∈ slots [c], t.get i = s.get i) → Q c s → Q c t) :
    Tracks (Run scope n false) line I Q where
  keeps hc h hs := hI _ hc _ _ _ _ h hs
  marks hc h hs := hQ _ hc _ _ _ h hs
  holds {c c' s t _ b} hc hc' h hs hq := by
    by_cases he : c = c'
    · subst he
      cases b with
      | true => exact hQ c hc _ _ _ h hs
      | false => exact h.undone.1.slots_eq ▸ hq
    · refine hcongr c hc _ _ ?_ hq
      intro i hi
      exact (h.untouched fun _ hreach => hd.not_reaches hc hc' he hi hreach).get_eq

end Tracks

end Synopsis
