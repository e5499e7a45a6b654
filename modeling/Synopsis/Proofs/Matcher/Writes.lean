import Synopsis.Proofs.Matcher.Frame
import Synopsis.Proofs.Matcher.Single
import Synopsis.Proofs.Matcher.Yields

/-! # What a match writes

A match writes only into the slots of the leaves in its reach, and only what those leaves
record. Counts and lists go to the leaves of repeating groups alone. All of this holds
whether the match comes to an answer or stops, so it is stated for what steps yield.
-/

namespace Synopsis

open MatchM (Keeps)
open Pattern (Reaches)

/-- A property of the slots that the writes of the leaves in `L` keep. -/
structure Writable (scope : Scope) (L : Pattern → Prop) (I : Slots → Prop) : Prop where
  /-- A leaf records once. -/
  single {q : Pattern} {r : Recorded} {v : Slot} {s : Slots} (hq : L q)
    (hr : q.ownRecord? = some r) (hf : r.kind.fits v = true) (hv : v.isSingle = true)
    (hs : I s) : I (s.set r.slot v)
  /-- A repeating group clears its leaves, merges what they recorded, and lends of it. -/
  repeated {g q : Pattern} {r : Recorded} {v : Slot} {s : Slots} (hg : L g)
    (hrepeats : g.isRepeatingGroup = true) (hq : Reaches scope g q)
    (hr : q.ownRecord? = some r) (hf : r.kind.fits v = true) (hs : I s) : I (s.set r.slot v)

/-- Steps that keep a property of the slots, even if they stop. -/
abbrev KeepsSlots {α : Type} (I : Slots → Prop) (m : MatchM α) : Prop :=
  Keeps (fun t => I t.slots) (fun _ t => I t.slots) m

namespace Writable

variable {scope : Scope} {L : Pattern → Prop} {I : Slots → Prop} {s : Attempt}
  {run : Pattern → MatchM Bool} {line : List Pattern} (hI : Writable scope L I)

theorem blind : Blind fun t => I t.slots := fun _ _ hs _ => hs

include hI

/-! ## Leaves -/

theorem keeps_positional {p : Positional} (hp : L p.pattern) : KeepsSlots I (p.run false) := by
  intro s hs
  refine Positional.yields_run blind hs fun place token _ => ?_
  obtain ⟨r, hr, hslot, hf⟩ := RecordKind.fits_record p false token.text (s.slots.get p.slot)
  have hsingle : (p.record false token.text (s.slots.get p.slot)).isSingle = true := by
    cases p <;> rfl
  rw [← hslot] at hf hsingle ⊢
  exact hI.single hp hr hf hsingle hs

theorem keeps_option {o : OptionAtom} {value : Pattern → MatchM Bool} (ho : L (.option o))
    (hv : ∀ v, o.value = some v → KeepsSlots I (value v)) : KeepsSlots I (o.run value false) := by
  intro s hs
  have hit : I (s.slots.modify o.slot (Slot.hit false)) :=
    hI.single (v := .flag true) ho rfl rfl rfl hs
  -- What stands behind the option is up to its value pattern.
  have separate {t : Attempt} (ht : I t.slots) {v : Pattern} (hov : o.value = some v)
      (arity : Arity) (place : Nat) :
      (o.takeSeparate arity (value v) place).Yields t (fun _ u => I u.slots) fun _ u => I u.slots := by
    simp only [OptionOf.takeSeparate, MatchM.yields_bind, MatchM.yields_argv]
    split
    · exact ht
    · simp only [MatchM.yields_bind, MatchM.yields_onStream]
      refine MatchM.Yields.imp (hv v hov _ ?_) fun b u hu => ?_
      · exact ht
      · split
        · exact hu
        · exact hu
  simp only [OptionOf.run, MatchM.yields_bind, MatchM.yields_slots]
  split
  · exact hs
  simp only [MatchM.yields_bind, MatchM.yields_argv]
  split
  next found argv hfound =>
    simp only [MatchM.yields_bind, MatchM.yields_setArgv, MatchM.yields_modifySlot,
      OptionOf.takeFound, MatchM.yields_argv]
    split
    · exact hit
    · split
      · exact hit
      · exact hit
    next v hov _ => exact separate hit hov _ _
    next v rest hov _ =>
      split
      · split
        · exact hit
        · exact separate hit hov _ _
      · simp only [OptionOf.takeAttached, MatchM.yields_bind, MatchM.yields_argv,
          MatchM.yields_onStream]
        refine MatchM.Yields.imp (hv v hov _ ?_) fun b u hu => ?_
        · exact hit
        · split
          · exact hu
          · exact hu
  next => exact hs

/-! ## Lines -/

omit hI in
/-- Texts are only taken off the slots of the lenders. -/
theorem of_pops {lenders : List Nat} {slots left : Slots} {texts : List String}
    (hl : ∀ i ∈ lenders, ∀ v s, RecordKind.texts.fits v = true → I s → I (s.set i v))
    (hp : Lending.Pops lenders slots texts left) (hs : I slots) : I left := by
  induction hp with
  | nil => exact hs
  | cons hi hp _ ih =>
    obtain ⟨left, hpop, rfl⟩ := Lending.popText?_eq_some hp
    exact ih (hl _ hi _ _ (RecordKind.fits_popText? hpop) hs)

theorem keeps_borrowers {ps : List Positional} (hps : ∀ p ∈ ps, L p.pattern) :
    KeepsSlots I (ps.allM (·.run false)) := by
  induction ps with
  | nil => exact fun s hs => hs
  | cons p ps ih =>
    obtain ⟨hp, hps⟩ := List.forall_mem_cons.mp hps
    intro s hs
    simp only [List.allM, MatchM.yields_bind]
    refine (hI.keeps_positional hp s hs).imp fun b t ht => ?_
    cases b with
    | true => exact ih hps t ht
    | false => exact ht

theorem keeps_lend (hL : ∀ c ∈ line, ∀ q, Reaches scope c q → L q) :
    KeepsSlots I (Lending.lend line) := by
  intro s hs
  simp only [Lending.lend, MatchM.yields_bind, MatchM.yields_slots]
  split
  next loan hloan =>
    split
    next texts left htexts =>
      obtain ⟨before, children, rest, hsplit⟩ := Lending.splits_of_loan? hloan
      obtain ⟨new, hpops, -⟩ := Lending.Loan.texts?_pops htexts
      have hleft : I left := by
        refine of_pops (fun i hi v s hf hs => ?_) hpops hs
        rw [← hsplit.lenders_slots] at hi
        obtain ⟨g, hg, q, hq, hqi⟩ := Pattern.mem_slots.mp hi
        obtain rfl := List.mem_singleton.mp hg
        obtain ⟨-, leaf, rfl⟩ := hsplit.lender_argument hq
        obtain rfl := Option.some.inj hqi
        exact hI.repeated (hL _ hsplit.lender_mem _ .refl) rfl (Pattern.reaches_of_mem_atoms hq) rfl
          hf hs
      have hborrowers : ∀ p ∈ loan.borrowers, L p.pattern := by
        intro p hp
        obtain ⟨c, hc, hq⟩ := List.mem_flatMap.mp (hsplit.borrower_atom hp)
        exact hL c hc _ (Pattern.reaches_of_mem_atoms hq)
      simp only [MatchM.yields_bind, MatchM.yields_setSlots, MatchM.yields_argv,
        MatchM.yields_onStream]
      refine MatchM.Yields.imp (hI.keeps_borrowers hborrowers _ ?_) fun b t ht => ?_
      · exact hleft
      · cases b with
        | true => exact ht
        | false => exact hs
    next => exact hs
  next => exact hs

omit hI in
theorem keeps_scanLine (hrun : ∀ c ∈ line, KeepsSlots I (run c)) :
    KeepsSlots I (scanLine run line) :=
  yields_scanLine blind.aimed (fun _ => id) hrun

theorem keeps_matchOnce {kind : GroupKind} (hL : ∀ c ∈ line, ∀ q, Reaches scope c q → L q)
    (hrun : ∀ c ∈ line, KeepsSlots I (run c)) : KeepsSlots I (matchOnce run kind line) := by
  intro s hs
  have hscan := keeps_scanLine hrun s hs
  cases kind with
  | optional => exact MatchM.yields_bind.mpr (hscan.imp fun _ _ h => h)
  | required =>
    simp only [matchOnce, matchLine, MatchM.yields_restoring, MatchM.yields_bind]
    refine hscan.imp fun xs t ht => ?_
    split
    · exact ht
    · refine (hI.keeps_lend hL t ht).imp fun b u hu => ?_
      cases b with
      | true => exact hu
      | false => exact hs

/-! ## Repetition -/

variable {leaves : List Recorded}

omit hI in
theorem of_clearAll {slots : Slots}
    (hl : ∀ r ∈ leaves, ∀ v s, r.kind.fits v = true → I s → I (s.set r.slot v)) (hs : I slots) :
    I (Recorded.clearAll leaves slots) := by
  induction leaves generalizing slots with
  | nil => exact hs
  | cons r rs ih =>
    obtain ⟨hr, hrs⟩ := List.forall_mem_cons.mp hl
    exact ih hrs (hr _ _ (r.fits_cleared _) hs)

omit hI in
theorem of_mergeAll {slots : Slots} {history : List Slots}
    (hl : ∀ r ∈ leaves, ∀ v s, r.kind.fits v = true → I s → I (s.set r.slot v)) (hs : I slots) :
    I (Recorded.mergeAll leaves history slots) := by
  induction leaves generalizing slots with
  | nil => exact hs
  | cons r rs ih =>
    obtain ⟨hr, hrs⟩ := List.forall_mem_cons.mp hl
    exact ih hrs (hr _ _ (r.fits_merged _) hs)

omit hI in
theorem keeps_matchRepeatedly {once : MatchM Bool}
    (hl : ∀ r ∈ leaves, ∀ v s, r.kind.fits v = true → I s → I (s.set r.slot v))
    (honce : KeepsSlots I once) : KeepsSlots I (matchRepeatedly once leaves) := by
  have passes (n : Nat) (history : List Slots) : KeepsSlots I (repeatPasses once leaves n history) := by
    induction n generalizing history with
    | zero => exact fun s hs => hs
    | succ n ih =>
      intro s hs
      simp only [repeatPasses, MatchM.yields_bind, MatchM.yields_argv]
      split
      · exact hs
      · simp only [MatchM.yields_bind, MatchM.yields_slots, MatchM.yields_setSlots]
        refine MatchM.Yields.imp (honce _ ?_) fun b t ht => ?_
        · exact of_clearAll hl hs
        · split
          · exact ht
          · simp only [MatchM.yields_bind, MatchM.yields_slots, MatchM.yields_argv]
            split
            · exact ht
            · exact ih _ t ht
  intro s hs
  simp only [matchRepeatedly, MatchM.yields_bind, MatchM.yields_slots, MatchM.yields_argv]
  refine (passes _ _ s hs).imp fun history t ht => ?_
  split
  · exact hs
  · exact of_mergeAll hl ht

/-! ## Patterns -/

/-- What the writes of the leaves in reach keep, a match keeps, also when it stops. -/
theorem keeps_matchPattern {p : Pattern} (hL : ∀ q, Reaches scope p q → L q) (n : Nat) :
    KeepsSlots I (matchPattern scope n false p) := by
  induction n generalizing p with
  | zero => exact fun s hs => hs
  | succ n ih =>
    cases p with
    | option o => exact hI.keeps_option (hL _ .refl) fun v hv => ih fun q hq => hL q (.value hv hq)
    | command leaf => exact hI.keeps_positional (p := .command leaf) (hL _ .refl)
    | argument leaf => exact hI.keeps_positional (p := .argument leaf) (hL _ .refl)
    | group kind children repeats =>
      have once : KeepsSlots I (matchOnce (matchPattern scope n false) kind children) :=
        hI.keeps_matchOnce (fun c hc q hq => hL q (.child hc hq))
          fun c hc => ih fun q hq => hL q (.child hc hq)
      intro s hs
      simp only [matchPattern, Bool.false_or]
      split
      next hrepeats =>
        split
        next leaves hleaves =>
          have hl : ∀ r ∈ leaves, ∀ v s, r.kind.fits v = true → I s → I (s.set r.slot v) := by
            intro r hr v s hf hs
            obtain ⟨q, hq, hqr⟩ := (Pattern.mem_recorded_iff hleaves).mp hr
            exact hI.repeated (hL _ .refl) hrepeats hq hqr hf hs
          exact MatchM.yields_bind.mpr (keeps_matchRepeatedly hl once s hs)
        next => exact hs
      next => exact once s hs
    | either branches =>
      exact keeps_matchEither (fun _ _ hs _ => hs) fun c hc => ih fun q hq => hL q (.branch hc hq)
    | shortcut sc =>
      intro s hs
      refine MatchM.yields_bind.mpr (keeps_matchEntries (fun c hc s _ hs => ?_) s hs)
      exact ih (fun q hq => hL q (.entry hc hq)) s hs

end Writable

end Synopsis
