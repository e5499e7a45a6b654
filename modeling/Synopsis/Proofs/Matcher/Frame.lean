import Synopsis.Proofs.Matcher.Closed
import Synopsis.Proofs.Matcher.Loans

/-! # What a run leaves alone

A run touches no slot but those of the leaves in its reach, and what it puts into a
slot is of the kind that the leaf of the slot records.
-/

namespace Synopsis

open Pattern (Reaches slots)

namespace Pattern

mutual

theorem reaches_of_mem_atoms {scope : Scope} {q : Pattern} :
    ∀ {p : Pattern}, q ∈ p.atoms → Reaches scope p q
  | .option ⟨_, none, _, _⟩, h => by
    obtain rfl := List.mem_singleton.mp h
    exact .refl
  | .option ⟨_, some _, _, _⟩, h => by
    rcases List.mem_cons.mp h with rfl | h
    · exact .refl
    · exact .value rfl (reaches_of_mem_atoms h)
  | .command _, h => by
    obtain rfl := List.mem_singleton.mp h
    exact .refl
  | .argument _, h => by
    obtain rfl := List.mem_singleton.mp h
    exact .refl
  | .group _ _ _, h => by
    obtain ⟨c, hc, h⟩ := reaches_of_mem_atomsAll h
    exact .child hc h
  | .either _, h => by
    obtain ⟨c, hc, h⟩ := reaches_of_mem_atomsAll h
    exact .branch hc h
  | .shortcut _, h => by cases h

theorem reaches_of_mem_atomsAll {scope : Scope} {q : Pattern} :
    ∀ {ps : List Pattern}, q ∈ atomsAll ps → ∃ p ∈ ps, Reaches scope p q
  | _ :: _, h => by
    rcases List.mem_append.mp h with h | h
    · exact ⟨_, List.mem_cons_self, reaches_of_mem_atoms h⟩
    · obtain ⟨p, hp, h⟩ := reaches_of_mem_atomsAll h
      exact ⟨p, List.mem_cons_of_mem _ hp, h⟩

end

end Pattern

/-- What an option does to the slots besides its own is done by its value pattern. -/
theorem OptionOf.Completes.value_run {o : OptionAtom} {value : Pattern → Step}
    {found : Argv.Found} {s t : Attempt} {log : List Move}
    (h : o.Completes value found s log t) :
    (t.slots = s.slots ∧ ∀ m ∈ log, m.slot = o.slot) ∨
      ∃ v s' log' t', o.value = some v ∧ value v s' log' true t' ∧ s'.slots = s.slots ∧
        t'.slots = t.slots ∧ ∀ m ∈ log, m.slot = o.slot ∨ ∃ m' ∈ log', m'.slot = m.slot := by
  have shifted {k : Nat} {log' : List Move} {m : Move} (hm : m ∈ log'.map (Move.shift k)) :
      ∃ m' ∈ log', m'.slot = m.slot := by
    obtain ⟨m', hm', rfl⟩ := List.mem_map.mp hm
    exact ⟨m', hm', by cases m' <;> rfl⟩
  cases h with
  | plain | stacked => exact .inl ⟨rfl, by simp [Move.slot]⟩
  | attached hv _ _ run => exact .inr ⟨_, _, _, _, hv, run, rfl, rfl, by simp [Move.slot]⟩
  | separate hv _ run =>
    cases run with
    | intro _ run =>
      refine .inr ⟨_, _, _, _, hv, run, rfl, rfl, ?_⟩
      exact List.forall_mem_cons.mpr ⟨.inl rfl, fun m hm => .inr (shifted hm)⟩
  | stackedSeparate hv _ _ run =>
    cases run with
    | intro _ run =>
      refine .inr ⟨_, _, _, _, hv, run, rfl, rfl, ?_⟩
      exact List.forall_mem_cons.mpr ⟨.inl rfl, fun m hm => .inr (shifted hm)⟩

/-! ## Slots out of reach -/

/-- A slot and its moves are left alone. -/
structure Untouched (i : Nat) (s : Attempt) (log : List Move) (t : Attempt) : Prop where
  get_eq : t.slots.get i = s.slots.get i
  moves : ∀ m ∈ log, m.slot ≠ i

namespace Untouched

variable {i : Nat} {s t u : Attempt} {log log' : List Move}

theorem trans (h : Untouched i s log t) (h' : Untouched i t log' u) :
    Untouched i s (log ++ log') u where
  get_eq := h'.get_eq.trans h.get_eq
  moves m hm := (List.mem_append.mp hm).elim (h.moves m) (h'.moves m)

theorem repeatPasses {once : Step} {leaves : List Recorded} {history history' : List Slots}
    (hl : ∀ r ∈ leaves, r.slot ≠ i) (ho : ∀ s log b t, once s log b t → Untouched i s log t)
    (h : RepeatPasses once leaves history s log history' t) : Untouched i s log t := by
  have step {s t log b} (run : once (s.cleared leaves) log b t) : Untouched i s log t :=
    ⟨(ho _ _ _ _ run).get_eq.trans (Recorded.get_clearAll_of_forall_ne hl), (ho _ _ _ _ run).moves⟩
  induction h with
  | empty => exact ⟨rfl, nofun⟩
  | failed _ run => exact ⟨(step run).get_eq, nofun⟩
  | still _ run => exact step run
  | again _ run _ _ ih => exact (step run).trans ih

theorem closed (scope : Scope) (i : Nat) :
    Closed scope (·.slot? ≠ some i) (Untouched i) where
  refl s := ⟨rfl, nofun⟩
  trans := trans
  marks s _ _ := ⟨rfl, nofun⟩
  take {p _ _ _ _} hp _ _ _ _ _ := by
    have hne : p.slot ≠ i := fun he => hp (he ▸ p.slot?_pattern)
    exact ⟨Slots.get_modify_of_ne hne.symm, by simpa [Move.slot] using hne⟩
  option {o _ counting _ _ s _ _} ho _ _ hv _ hc := by
    have hne : o.slot ≠ i := fun he => ho (he ▸ rfl)
    have hit : (s.slots.modify o.slot (Slot.hit counting)).get i = s.slots.get i :=
      Slots.get_modify_of_ne hne.symm
    rcases hc.value_run with ⟨hs, hm⟩ | ⟨v, s', log', t', hov, run, hs, ht, hm⟩
    · exact ⟨by rw [hs]; exact hit, fun m hm' => by rw [hm m hm']; exact hne⟩
    · obtain ⟨hget, hmoves⟩ := hv v _ _ _ hov run
      refine ⟨by rw [← ht, hget, hs]; exact hit, ?_⟩
      intro m hm'
      rcases hm m hm' with he | ⟨m', hm', he⟩
      · exact he ▸ hne
      · exact he ▸ hmoves m' hm'
  lend {line _ _ _} hl h := by
    refine ⟨h.get_of_notMem ?_, nofun⟩
    intro hi
    obtain ⟨c, hc, q, hq, hqi⟩ := Pattern.mem_slots.mp hi
    exact hl q (.child hc (Pattern.reaches_of_mem_atoms hq)) hqi
  repeats {_ leaves _ _ _ _} hl ho _ hp _ := by
    have hne : ∀ r ∈ leaves, r.slot ≠ i := fun r hr he => by
      obtain ⟨q, hq, hqr⟩ := hl r hr
      exact hq (by simp [Pattern.slot?, hqr, he])
    obtain ⟨hget, hmoves⟩ := repeatPasses hne ho hp
    exact ⟨(Recorded.get_mergeAll_of_forall_ne hne).trans hget, hmoves⟩

end Untouched

theorem Run.untouched {scope : Scope} {n i : Nat} {counting b : Bool} {p : Pattern}
    {s t : Attempt} {log : List Move} (hp : ∀ q, Reaches scope p q → q.slot? ≠ some i)
    (h : Run scope n counting p s log b t) : Untouched i s log t :=
  (Untouched.closed scope i).run hp h

/-! ## Kinds of slots -/

/-- What a leaf of a kind can find in its slot. -/
def RecordKind.fits : RecordKind → Slot → Bool
  | .hits, .unset | .hits, .flag _ | .hits, .count _ => true
  | .texts, .unset | .texts, .text _ | .texts, .list _ => true
  | _, _ => false

theorem RecordKind.fits_unset (k : RecordKind) : k.fits .unset = true := by
  cases k <;> rfl

namespace Recorded

theorem fits_cleared (r : Recorded) (s : Slot) : r.kind.fits (r.cleared s) = true := by
  obtain ⟨kind, i⟩ := r
  cases kind <;> cases s <;> rfl

theorem fits_merged (r : Recorded) (history : List Slot) :
    r.kind.fits (r.merged history) = true := by
  obtain ⟨kind, i⟩ := r
  cases kind <;> rfl

end Recorded

theorem RecordKind.fits_popText? {s left : Slot} {text : String}
    (h : s.popText? = some (text, left)) : RecordKind.texts.fits left = true := by
  cases s with
  | text _ =>
    obtain ⟨rfl, rfl⟩ := Prod.mk.inj (Option.some.inj h)
    rfl
  | list items =>
    obtain ⟨_, hi, h⟩ := Option.map_eq_some_iff.mp h
    obtain ⟨rfl, rfl⟩ := Prod.mk.inj h
    rfl
  | unset | flag | count => cases h

/-- The slots of all leaves hold what the leaves can record. -/
def Typed (L : Pattern → Prop) (s : Slots) : Prop :=
  ∀ q, L q → ∀ r ∈ q.ownRecord?, r.kind.fits (s.get r.slot) = true

/-- No two leaves share a slot. -/
def Apart (L : Pattern → Prop) : Prop :=
  ∀ q q', L q → L q' → ∀ i, q.slot? = some i → q'.slot? = some i → q = q'

theorem Apart.record_eq {L : Pattern → Prop} (hL : Apart L) {q q' : Pattern} {r r' : Recorded}
    (hq : L q) (hq' : L q') (hr : q.ownRecord? = some r) (hr' : q'.ownRecord? = some r')
    (he : r'.slot = r.slot) : r' = r := by
  obtain rfl : q = q' := hL q q' hq hq' r.slot (by simp [Pattern.slot?, hr])
    (by simp [Pattern.slot?, hr', he])
  exact Option.some.inj (hr'.symm.trans hr)

theorem RecordKind.fits_record (p : Positional) (counting : Bool) (text : String) (s : Slot) :
    ∃ r, p.pattern.ownRecord? = some r ∧ r.slot = p.slot ∧
      r.kind.fits (p.record counting text s) = true := by
  cases p with
  | command leaf =>
    refine ⟨_, rfl, rfl, ?_⟩
    cases counting <;> rfl
  | argument leaf =>
    refine ⟨_, rfl, rfl, ?_⟩
    cases counting <;> rfl

namespace Typed

variable {L : Pattern → Prop} {s t u : Attempt} {log log' : List Move} {scope : Scope}

theorem blank (size : Nat) : Typed L (.blank size) := fun _ _ r _ => by
  rw [Slots.get_blank]
  exact r.kind.fits_unset

/-- One slot gets what its leaf can record. -/
theorem set {slots slots' : Slots} {q : Pattern} {r : Recorded} (hL : Apart L) (hq : L q)
    (hr : q.ownRecord? = some r) (h : Typed L slots)
    (hs : ∀ j ≠ r.slot, slots'.get j = slots.get j) (hf : r.kind.fits (slots'.get r.slot) = true) :
    Typed L slots' := fun q' hq' r' hr' => by
  by_cases he : r'.slot = r.slot
  · obtain rfl := hL.record_eq hq hq' hr hr' he
    exact hf
  · rw [hs _ he]
    exact h q' hq' r' hr'

theorem positionalRuns {p : Positional} {counting b : Bool} (hL : Apart L) (hp : L p.pattern)
    (hr : p.Runs counting s log b t) (h : Typed L s.slots) : Typed L t.slots := by
  cases hr with
  | filled | barred | refused => exact h
  | taken =>
    obtain ⟨r, hown, hslot, hf⟩ := RecordKind.fits_record p counting _ (s.slots.get p.slot)
    refine h.set hL hp hown ?_ ?_
    · intro j hj
      exact Slots.get_modify_of_ne (hslot ▸ hj)
    · simpa [hslot] using hf

theorem pops {lenders : List Nat} {slots left : Slots} {texts : List String} (hL : Apart L)
    (hl : ∀ i ∈ lenders, ∃ leaf : Leaf, L (.argument leaf) ∧ leaf.slot = i)
    (hp : Lending.Pops lenders slots texts left) (h : Typed L slots) : Typed L left := by
  induction hp with
  | nil => exact h
  | cons hi hp _ ih =>
    obtain ⟨leaf, hleaf, rfl⟩ := hl _ hi
    obtain ⟨left, hpop, rfl⟩ := Lending.popText?_eq_some hp
    refine ih (h.set hL hleaf rfl (fun j hj => Slots.get_set_of_ne hj) ?_)
    simpa using RecordKind.fits_popText? hpop

theorem borrows {ps : List Positional} (hL : Apart L) (hps : ∀ p ∈ ps, L p.pattern)
    (hb : Lending.Borrows ps s t) (h : Typed L s.slots) : Typed L t.slots := by
  induction hb with
  | nil => exact h
  | cons run _ ih =>
    rw [List.forall_mem_cons] at hps
    exact ih hps.2 (positionalRuns hL hps.1 run h)

theorem lends {line : List Pattern} (hL : Apart L)
    (hl : ∀ q ∈ line.flatMap Pattern.atoms, L q) (hs : Lending.Lends line s t)
    (h : Typed L s.slots) : Typed L t.slots := by
  obtain ⟨hloan, ht, hb⟩ := hs
  obtain ⟨before, children, rest, hsplit⟩ := Lending.splits_of_loan? hloan
  obtain ⟨new, hpops, -⟩ := Lending.Loan.texts?_pops ht
  have hleft := pops hL (fun i hi => by
    obtain ⟨leaf, hleaf, rfl⟩ := hsplit.lender_atom hi
    exact ⟨leaf, hl _ hleaf, rfl⟩) hpops h
  have hlent := borrows hL (fun p hp => hl _ (hsplit.borrower_atom hp)) hb hleft
  exact hlent

section Repetition

variable {leaves : List Recorded} {slots : Slots} (hL : Apart L)
  (hl : ∀ r ∈ leaves, ∃ q, L q ∧ q.ownRecord? = some r)
include hL hl

theorem leaf_unique {r : Recorded} (hr : r ∈ leaves) :
    ∀ r' ∈ leaves, r'.slot = r.slot → r' = r := by
  intro r' hr' he
  obtain ⟨q, hq, hqr⟩ := hl r hr
  obtain ⟨q', hq', hqr'⟩ := hl r' hr'
  exact hL.record_eq hq hq' hqr hqr' he

/-- The slots of some leaves are replaced by others of their kinds. -/
theorem replaced {slots' : Slots}
    (hin : ∀ r ∈ leaves, r.kind.fits (slots'.get r.slot) = true)
    (hout : ∀ i, (∀ r ∈ leaves, r.slot ≠ i) → slots'.get i = slots.get i)
    (h : Typed L slots) : Typed L slots' := by
  intro q hq r hr
  by_cases hm : ∀ r' ∈ leaves, r'.slot ≠ r.slot
  · rw [hout _ hm]
    exact h q hq r hr
  · push Not at hm
    obtain ⟨r', hr', he⟩ := hm
    obtain ⟨q', hq', hqr'⟩ := hl r' hr'
    obtain rfl := hL.record_eq hq hq' hr hqr' he
    exact hin r' hr'

theorem clearAll (h : Typed L slots) : Typed L (Recorded.clearAll leaves slots) := by
  refine replaced hL hl ?_ ?_ h
  · intro r hr
    rw [Recorded.get_clearAll hr (leaf_unique hL hl hr)]
    exact r.fits_cleared _
  · intro i hi
    exact Recorded.get_clearAll_of_forall_ne hi

theorem mergeAll {history : List Slots} (h : Typed L slots) :
    Typed L (Recorded.mergeAll leaves history slots) := by
  refine replaced hL hl ?_ ?_ h
  · intro r hr
    rw [Recorded.get_mergeAll hr (leaf_unique hL hl hr)]
    exact r.fits_merged _
  · intro i hi
    exact Recorded.get_mergeAll_of_forall_ne hi

theorem repeatPasses {once : Step} {history history' : List Slots}
    (ho : ∀ s log b t, once s log b t → Typed L s.slots → Typed L t.slots)
    (hp : RepeatPasses once leaves history s log history' t) (h : Typed L s.slots) :
    Typed L t.slots := by
  induction hp with
  | empty => exact h
  | failed _ run | still _ run => exact ho _ _ _ _ run (clearAll hL hl h)
  | again _ run _ _ ih => exact ih (ho _ _ _ _ run (clearAll hL hl h))

end Repetition

theorem closed (hL : Apart L) :
    Closed scope L (fun s _ t => Typed L s.slots → Typed L t.slots) where
  refl _ := id
  trans h h' := h' ∘ h
  marks _ _ _ := id
  take hp hw ho hpl ht ha := positionalRuns hL hp (.taken hw ho hpl ht ha)
  option {o _ counting _ _ s _ _} ho _ _ hv _ hc h := by
    have hit : Typed L (s.slots.modify o.slot (Slot.hit counting)) := by
      apply h.set hL ho rfl (fun j hj => Slots.get_modify_of_ne hj)
      cases counting <;> simp [Slot.hit, RecordKind.fits]
    rcases hc.value_run with ⟨hs, -⟩ | ⟨v, s', log', t', hov, run, hs, ht, -⟩
    · exact hs ▸ hit
    · exact ht ▸ hv v _ _ _ hov run (hs ▸ hit)
  lend hl h := by
    refine lends hL ?_ h
    intro q hq
    obtain ⟨c, hc, hq⟩ := List.mem_flatMap.mp hq
    exact hl q (.child hc (Pattern.reaches_of_mem_atoms hq))
  repeats hl ho _ hp _ h := mergeAll hL hl (repeatPasses hL hl ho hp h)

end Typed

end Synopsis
