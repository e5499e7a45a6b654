import Synopsis.Proofs.Matcher.Scanning

/-! # Leaves outside repeating groups

Only repeating groups count, collect and lend. What a leaf outside of them has recorded is
a truth value or one text.
-/

namespace Synopsis

open Pattern (Reaches slots Distinct)

variable {scope : Scope} {s t : Attempt} {log : List Move} {i : Nat} {b : Bool} {p q : Pattern}

/-- Nothing was counted or collected in a slot. -/
def Slot.isSingle : Slot → Bool
  | .unset | .flag _ | .text _ => true
  | .count _ | .list _ => false

/-- The second pattern lies in the first one, but in none of its repeating groups. -/
inductive Pattern.Once : Pattern → Pattern → Prop
  | refl {p : Pattern} : Once p p
  | child {kind : GroupKind} {children : List Pattern} {c q : Pattern} (hc : c ∈ children)
      (h : Once c q) : Once (.group kind children false) q

namespace Pattern.Once

theorem reaches (h : Once p q) : Reaches scope p q := by
  induction h with
  | refl => exact .refl
  | child hc _ ih => exact .child hc ih

theorem slot_mem (h : Once p q) (hi : q.slot? = some i) : i ∈ slots [p] := by
  induction h with
  | refl => exact mem_slots_self hi
  | child hc _ ih =>
    rw [slots_group]
    exact mem_slots_of_mem hc (ih hi)

theorem not_repeating (h : Once p q) (hi : q.slot? = some i) : p.isRepeatingGroup = false := by
  cases h with
  | refl =>
    cases p with
    | group => cases hi
    | _ => rfl
  | child => rfl

end Pattern.Once

/-! ## Single slots -/

/-- A slot is single if it was before. -/
def StaysSingle (i : Nat) (s t : Attempt) : Prop :=
  (s.slots.get i).isSingle = true → (t.slots.get i).isSingle = true

namespace StaysSingle

theorem of_get_eq (h : t.slots.get i = s.slots.get i) : StaysSingle i s t :=
  fun hs => h ▸ hs

theorem chains (i : Nat) : Chains fun s _ t => StaysSingle i s t where
  refl _ := id
  trans h h' := h' ∘ h
  aim _ _ := id

theorem of_positionalRuns {p : Positional} (h : p.Runs false s log b t) : StaysSingle i s t := by
  cases h with
  | filled | barred | refused => exact id
  | taken =>
    by_cases hi : i = p.slot
    · subst hi
      intro _
      rw [Slots.get_modify_self]
      cases p <;> rfl
    · exact .of_get_eq (Slots.get_modify_of_ne hi)

theorem of_borrows {ps : List Positional} (h : Lending.Borrows ps s t) : StaysSingle i s t := by
  induction h with
  | nil => exact id
  | cons run _ ih => exact ih ∘ of_positionalRuns run

/-- Who lends lies in a repeating group. -/
theorem of_lends {line : List Pattern} {c : Pattern} (hd : Distinct scope line) (hc : c ∈ line)
    (hq : c.Once q) (hi : q.slot? = some i) (h : Lending.Lends line s t) : StaysSingle i s t := by
  obtain ⟨hl, ht, hb⟩ := h
  obtain ⟨before, children, rest, hsplit⟩ := Lending.splits_of_loan? hl
  obtain ⟨new, hpops, -⟩ := Lending.Loan.texts?_pops ht
  have hleft := hpops.get_of_notMem fun hlender => by
    rw [← hsplit.lenders_slots] at hlender
    refine hd.not_reaches hsplit.lender_mem hc ?_ hlender hq.reaches hi
    rintro rfl
    cases hq.not_repeating hi
  have hlent : StaysSingle i _ _ := of_borrows hb
  intro hs
  rw [← hleft] at hs
  exact hlent hs

/-- A scan only runs patterns of its line. -/
theorem of_scan {R : Pattern → Step} {line : List Pattern} {xs : List Scanned}
    (hR : ∀ c ∈ line, ∀ s log b t, R c s log b t → StaysSingle i s t)
    (h : Scan R line s log xs t) : StaysSingle i s t :=
  (chains i).scan hR h

/-- A leaf outside repeating groups never counts or collects. -/
theorem of_run {n : Nat} (hd : Distinct scope [p]) (hq : p.Once q) (hword : q.positional?.isSome)
    (hi : q.slot? = some i) (h : Run scope n false p s log b t) : StaysSingle i s t := by
  induction hq generalizing n s log b t with
  | @refl p =>
    cases n with
    | zero => exact h.elim
    | succ n =>
      cases p with
      | command leaf | argument leaf => exact of_positionalRuns h
      | option | group | either | shortcut => cases hword
  | @child kind line c q hc hq ih =>
    cases n with
    | zero => exact h.elim
    | succ n =>
      have hline : ∀ c' ∈ line, ∀ s log b t, Run scope n false c' s log b t → StaysSingle i s t := by
        intro c' hc' s log b t run
        by_cases he : c = c'
        · subst he
          exact ih (hd.children.singleton hc) hword hi run
        · exact .of_get_eq (run.untouched fun _ hreach =>
            hd.children.not_reaches hc hc' he (hq.slot_mem hi) hreach).get_eq
      cases h with
      | required run =>
        cases run with
        | matched scan => exact of_scan hline scan
        | lent scan _ hl => exact of_lends hd.children hc hq hi hl ∘ of_scan hline scan
        | failed => exact id
      | optional scan => exact of_scan hline scan

end StaysSingle

end Synopsis
