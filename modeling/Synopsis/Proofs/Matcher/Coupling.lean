import Synopsis.Proofs.Matcher.Alike
import Synopsis.Proofs.Matcher.Frame
import Synopsis.Proofs.Matcher.Loans

/-! # Slots that a match does not see

What a match answers depends on the stream and on the slots that its pattern reaches.
-/

namespace Synopsis

open Pattern (Reaches)

variable {K : Argv.Trait} {exact : Prop} {H : Set Nat} {s s' : Attempt} {slots slots' : Slots} {scope : Scope}
  {p : Pattern} {ps : List Pattern}

/-- Nothing in reach of a pattern fills a slot of a set. -/
def Pattern.Avoids (scope : Scope) (H : Set Nat) (p : Pattern) : Prop :=
  ∀ q, Reaches scope p q → ∀ i, q.slot? = some i → i ∉ H

namespace Pattern.Avoids

theorem trans {q : Pattern} (h : p.Avoids scope H) (hq : Reaches scope p q) : q.Avoids scope H :=
  fun _ hr => h _ (hq.trans hr)

theorem child {kind : GroupKind} {repeats : Bool}
    (h : (Pattern.group kind ps repeats).Avoids scope H) : ∀ c ∈ ps, c.Avoids scope H :=
  fun _ hc => h.trans (.child hc .refl)

theorem slot_notMem {i : Nat} (h : p.Avoids scope H) (hi : p.slot? = some i) : i ∉ H :=
  h p .refl i hi

end Pattern.Avoids

/-! ## Leaves -/

theorem Positional.meets {p : Positional} (counting : Bool) (h : Alike K True H s s') (hp : p.slot ∉ H) :
    Meets Eq (Same K True H) (p.run counting s) (p.run counting s') := by
  obtain ⟨slots, a⟩ := s
  obtain ⟨slots', a'⟩ := s'
  obtain rfl : a' = a := h.argv_eq
  simp only [run, MatchM.slots_bind, isFilled_congr (h.slots _ hp)]
  split
  · exact .ok ⟨rfl, h⟩
  simp only [MatchM.argv_bind]
  split
  · exact .ok ⟨rfl, h⟩
  have hknown : K.Holds a'.positional.1 := K.of_subset h.known (by rw [Argv.positional_tokens]; exact List.Subset.refl _)
  simp only [take, MatchM.argv_bind, MatchM.setArgv_bind]
  cases a'.positional.2 with
  | none => exact .ok ⟨rfl, h.withArgv hknown⟩
  | some place =>
    dsimp only
    cases a'.positional.1.tokens[place]? with
    | none => exact .ok ⟨rfl, h.withArgv hknown⟩
    | some token =>
      dsimp only
      split
      · exact .ok ⟨rfl, h.withArgv hknown⟩
      · refine .ok ⟨rfl, (h.withArgv ?_).withSlots (h.slots.modify hp _)⟩
        exact K.of_subset hknown List.eraseIdx_subset

/-- An option is not met in a stream without flags. -/
theorem OptionOf.meets {o : OptionAtom} {value value' : Pattern → MatchM Bool} (counting : Bool)
    (h : Alike .quiet exact H s s') (ho : o.slot ∉ H) :
    Meets Eq (Same .quiet exact H) (o.run value counting s) (o.run value' counting s') := by
  have hquiet : s'.argv.Quiet := Argv.Quiet.of_subset h.known (by rw [h.near.tokens]; exact List.Subset.refl _)
  simp only [run, MatchM.slots_bind, h.slots _ ho]
  split
  · exact .ok ⟨rfl, h⟩
  · simp only [MatchM.argv_bind, Argv.Quiet.takeOption?_eq h.known, hquiet.takeOption?_eq]
    exact .ok ⟨rfl, h⟩

/-! ## Loans -/

namespace Lending

mutual

theorem isSatisfied_congr (h : slots.Agree H slots') : ∀ {p : Pattern}, p.Avoids scope H → isSatisfied slots' p = isSatisfied slots p
  | .option _, _ | .shortcut _, _ | .group .optional _ _, _ | .either _, _ => rfl
  | .command _, hp | .argument _, hp => by rw [isSatisfied, isSatisfied, h _ (hp.slot_notMem rfl)]
  | .group .required _ _, hp => areSatisfied_congr h hp.child

theorem areSatisfied_congr (h : slots.Agree H slots') : ∀ {ps : List Pattern}, (∀ p ∈ ps, p.Avoids scope H) →
    areSatisfied slots' ps = areSatisfied slots ps
  | [], _ => rfl
  | p :: ps, hps => by
    obtain ⟨hp, hps⟩ := List.forall_mem_cons.mp hps
    rw [areSatisfied, areSatisfied, isSatisfied_congr h hp, areSatisfied_congr h hps]

end

mutual

theorem borrowers?_congr (h : slots.Agree H slots') : ∀ {p : Pattern}, p.Avoids scope H → borrowers? slots' p = borrowers? slots p
  | .group .required _ true, _ | .group .optional _ true, _ | .either _, _ => rfl
  | .group .optional _ false, _ | .option _, _ | .shortcut _, _ => rfl
  | .group .required _ false, hp => borrowersAll?_congr h hp.child
  | .command _, hp | .argument _, hp => by rw [borrowers?, borrowers?, h _ (hp.slot_notMem rfl)]

theorem borrowersAll?_congr (h : slots.Agree H slots') : ∀ {ps : List Pattern}, (∀ p ∈ ps, p.Avoids scope H) →
    borrowersAll? slots' ps = borrowersAll? slots ps
  | [], _ => rfl
  | p :: ps, hps => by
    obtain ⟨hp, hps⟩ := List.forall_mem_cons.mp hps
    rw [borrowersAll?, borrowersAll?, borrowers?_congr h hp, borrowersAll?_congr h hps]

end

theorem loan?_congr (h : slots.Agree H slots') (hps : ∀ p ∈ ps, p.Avoids scope H) :
    loan? slots' ps = loan? slots ps := by
  fun_induction loan? slots ps with
  | case1 | case2 => rfl
  | case3 s rest hrest ih =>
    simp only [loan?]
    exact ih (List.forall_mem_cons.mp hps).2
  | case4 kind children rest hne =>
    obtain ⟨hp, hps⟩ := List.forall_mem_cons.mp hps
    simp only [loan?, isSatisfied_congr h hp, borrowersAll?_congr h hps]
  | case5 p rest hne _ _ hsat ih =>
    obtain ⟨hp, hps⟩ := List.forall_mem_cons.mp hps
    simp only [loan?, isSatisfied_congr h hp, hsat, if_true]
    exact ih hps
  | case6 p rest hne _ _ hsat =>
    obtain ⟨hp, hps⟩ := List.forall_mem_cons.mp hps
    simp only [loan?, isSatisfied_congr h hp, hsat]
    rfl

/-! ## Texts that are lent -/

theorem rel_bind {α β γ δ : Type} {R : α → β → Prop} {S : γ → δ → Prop} {x : Option α} {y : Option β}
    {f : α → Option γ} {g : β → Option δ} (h : Option.Rel R x y)
    (hf : ∀ a b, R a b → Option.Rel S (f a) (g b)) : Option.Rel S (x >>= f) (y >>= g) := by
  cases h with
  | some h => exact hf _ _ h
  | none => exact .none

/-- The same texts out of slots that are the same outside a set. -/
def Given (H : Set Nat) (x y : List String × Slots) : Prop := y.1 = x.1 ∧ x.2.Agree H y.2

section

variable {lenders is : List Nat} (h : slots.Agree H slots') (hi : ∀ i ∈ is, i ∉ H)
  (hl : ∀ i ∈ lenders, i ∉ H)

theorem agree_set {i : Nat} (h : slots.Agree H slots') (v : Slot) :
    (slots.set i v).Agree H (slots'.set i v) := by
  intro j hj
  rw [Slots.get_set, Slots.get_set, h j hj]

include h hi in
theorem given_popEach : Given H (popEach slots is) (popEach slots' is) := by
  induction is generalizing slots slots' with
  | nil => exact ⟨rfl, h⟩
  | cons i is ih =>
    obtain ⟨hi, his⟩ := List.forall_mem_cons.mp hi
    simp only [popEach, popText?, h i hi]
    cases (slots.get i).popText? with
    | none => exact ih h his
    | some x =>
      obtain ⟨htexts, hagree⟩ := ih (agree_set h x.2) his
      exact ⟨congrArg (x.1 :: ·) htexts, hagree⟩

include h hl in
theorem given_popRounds (n : Nat) : Given H (popRounds lenders n slots) (popRounds lenders n slots') := by
  induction n generalizing slots slots' with
  | zero => exact ⟨rfl, h⟩
  | succ n ih =>
    obtain ⟨hlast, hagree⟩ := given_popEach h hl
    obtain ⟨htexts, hagree⟩ := ih hagree
    exact ⟨by simp only [popRounds, hlast, htexts], hagree⟩

include h hi in
theorem given_popUntil (n : Nat) (texts : List String) :
    Option.Rel (Given H) (popUntil n is texts slots) (popUntil n is texts slots') := by
  induction is generalizing n texts slots slots' with
  | nil =>
    cases n with
    | zero => exact .some ⟨rfl, h⟩
    | succ => exact .none
  | cons i is ih =>
    cases n with
    | zero => exact .some ⟨rfl, h⟩
    | succ n =>
      obtain ⟨hi, his⟩ := List.forall_mem_cons.mp hi
      simp only [popUntil, popText?, h i hi]
      cases (slots.get i).popText? with
      | none => exact .none
      | some x => exact ih (agree_set h x.2) his n _

include h hl in
theorem leastSize_congr : leastSize lenders slots' = leastSize lenders slots := by
  rw [leastSize, leastSize, List.map_congr_left fun i hi => congrArg Slot.size (h i (hl i hi))]

include h hl in
theorem given_fromRequired? (wanted : Nat) :
    Option.Rel (Given H) (fromRequired? lenders wanted slots) (fromRequired? lenders wanted slots') := by
  simp only [fromRequired?, leastSize_congr h hl]
  split
  · exact .none
  · exact .some (given_popRounds h hl _)

include h hl in
theorem given_fromOptional? (wanted : Nat) :
    Option.Rel (Given H) (fromOptional? lenders wanted slots) (fromOptional? lenders wanted slots') := by
  have hahead : (lenders.reverse.filter fun i => (slots'.get i).size ≠ leastSize lenders slots) =
      lenders.reverse.filter fun i => (slots.get i).size ≠ leastSize lenders slots :=
    List.filter_congr fun i hi => by rw [h i (hl i (List.mem_reverse.mp hi))]
  simp only [fromOptional?, leastSize_congr h hl, hahead]
  refine rel_bind (given_popUntil h (fun i hi => hl i ?_) _ []) ?_
  · exact List.mem_reverse.mp (List.mem_filter.mp (List.mem_of_mem_take hi)).1
  · rintro ⟨texts, left⟩ ⟨_, left'⟩ ⟨rfl, hagree⟩
    refine given_popUntil hagree (fun i hi => hl i ?_) _ _
    obtain ⟨turn, hturn, hi⟩ := List.mem_flatten.mp hi
    rw [(List.mem_replicate.mp hturn).2] at hi
    exact List.mem_reverse.mp hi

include h in
theorem given_texts? {loan : Loan} (hl : ∀ i ∈ loan.lenders, i ∉ H) :
    Option.Rel (Given H) (loan.texts? slots) (loan.texts? slots') := by
  unfold Loan.texts?
  split
  · exact given_fromRequired? h hl _
  · exact given_fromOptional? h hl _

end

/-! ## Making the loan -/

theorem borrow_couples {bs : List Positional} (hb : ∀ b ∈ bs, b.slot ∉ H) :
    Couples K True H (bs.allM (·.run false)) (bs.allM (·.run false)) := by
  induction bs with
  | nil => exact fun _ _ h => .ok ⟨rfl, h⟩
  | cons b bs ih =>
    obtain ⟨hb, hbs⟩ := List.forall_mem_cons.mp hb
    intro s s' h
    simp only [List.allM]
    refine (Positional.meets false h hb).bind ?_
    rintro c t _ t' ⟨rfl, ht⟩
    split
    · exact ih hbs _ _ ht
    · exact .ok ⟨rfl, ht⟩

/-- A loan that lines agree on, between slots that a match sees. -/
theorem lend_couples {line line' : List Pattern} (hps : ∀ p ∈ line, p.Avoids scope H)
    (hloan : ∀ slots slots', slots.Agree H slots' → loan? slots' line' = loan? slots line) :
    Couples K exact H (lend line) (lend line') := by
  intro s s' h
  simp only [lend, MatchM.slots_bind, hloan _ _ h.slots]
  cases hl : loan? s.slots line with
  | none => exact .ok ⟨rfl, h⟩
  | some loan =>
    obtain ⟨before, children, rest, hsplits⟩ := splits_of_loan? hl
    have hseen {q : Pattern} {i : Nat} (hq : q ∈ line.flatMap Pattern.atoms) (hi : q.slot? = some i) :
        i ∉ H := by
      obtain ⟨p, hp, hq⟩ := List.mem_flatMap.mp hq
      exact hps p hp q (Pattern.reaches_of_mem_atoms hq) i hi
    have hlenders : ∀ i ∈ loan.lenders, i ∉ H := by
      intro i hi
      obtain ⟨leaf, hleaf, rfl⟩ := hsplits.lender_atom hi
      exact hseen hleaf rfl
    have htexts := given_texts? h.slots hlenders
    dsimp only
    generalize loan.texts? s.slots = x at htexts ⊢
    generalize loan.texts? s'.slots = y at htexts ⊢
    cases htexts with
    | none => exact .ok ⟨rfl, h⟩
    | @some x y hxy =>
      obtain ⟨texts, left⟩ := x
      obtain ⟨_, left'⟩ := y
      obtain ⟨rfl, hleft⟩ := hxy
      simp only [MatchM.setSlots_bind, MatchM.argv_bind, h.near.style]
      have hborrow : Couples K True H (loan.borrowers.allM (·.run false))
          (loan.borrowers.allM (·.run false)) :=
        borrow_couples fun b hb => hseen (hsplits.borrower_atom hb) b.slot?_pattern
      refine (MatchM.onStream_meets hborrow (h.withSlots hleft) (K.ofValues _ _)).bind ?_
      rintro ⟨c, argv⟩ t ⟨_, argv'⟩ t' ⟨he, ht⟩
      obtain ⟨rfl, rfl⟩ := Prod.mk.inj he
      dsimp only
      split
      · exact .ok ⟨rfl, ht.withSlots h.slots⟩
      · exact .ok ⟨rfl, ht⟩


end Lending

end Synopsis
