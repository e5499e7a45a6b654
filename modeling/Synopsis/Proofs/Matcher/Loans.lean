import Mathlib.Data.Option.Basic
import Synopsis.Proofs.Grammar.Numbering
import Synopsis.Proofs.Matcher.Recorded
import Synopsis.Proofs.Matcher.Run

/-! # Loans

What a loan takes, from whom, and who gets it. The lender is the first repeating
group of its line and everything before it is satisfied; texts leave the lenders
one at a time, from the end, and as many as there are borrowers.
-/

namespace Synopsis

open Pattern (slots Reaches)

theorem Slot.texts_of_popText? {s left : Slot} {text : String}
    (h : s.popText? = some (text, left)) : s.texts = left.texts ++ [text] := by
  cases s with
  | text _ =>
    obtain ⟨rfl, rfl⟩ := Prod.mk.inj (Option.some.inj h)
    rfl
  | list items =>
    obtain ⟨_, hi, h⟩ := Option.map_eq_some_iff.mp h
    obtain ⟨rfl, rfl⟩ := Prod.mk.inj h
    exact (List.dropLast_append_getLast? _ hi).symm
  | unset | flag | count => cases h

theorem Slot.isSome_popText? {s : Slot} (h : 0 < s.size) : s.popText?.isSome := by
  cases s with
  | text => rfl
  | list items =>
    have hne : items ≠ [] := List.ne_nil_of_length_pos h
    simp [popText?, List.getLast?_eq_some_getLast hne]
  | unset | flag | count => cases h

theorem Slot.hasText_of_size_pos {s : Slot} (h : 0 < s.size) : s.hasText = true := by
  cases s with
  | text => rfl
  | list items =>
    have hne : items ≠ [] := List.ne_nil_of_length_pos h
    simpa [hasText] using hne
  | unset | flag | count => cases h

namespace Lending

variable {scope : Scope} {lenders is : List Nat} {s t u : Slots} {text : String}
  {texts : List String} {i n : Nat}

/-! ## Texts that leave -/

theorem popText?_eq_some (h : popText? s i = some (text, t)) :
    ∃ left, (s.get i).popText? = some (text, left) ∧ t = s.set i left := by
  obtain ⟨⟨_, left⟩, hp, h⟩ := Option.map_eq_some_iff.mp h
  obtain ⟨rfl, rfl⟩ := Prod.mk.inj h
  exact ⟨left, hp, rfl⟩

/-- The last texts of some lenders, one after the other. -/
inductive Pops (lenders : List Nat) : Slots → List String → Slots → Prop
  | nil {s : Slots} : Pops lenders s [] s
  | cons {s t u : Slots} {i : Nat} {text : String} {texts : List String} (hi : i ∈ lenders)
      (h : popText? s i = some (text, t)) (rest : Pops lenders t texts u) :
      Pops lenders s (text :: texts) u

namespace Pops

theorem trans {texts' : List String} (h : Pops lenders s texts t)
    (h' : Pops lenders t texts' u) : Pops lenders s (texts ++ texts') u := by
  induction h with
  | nil => exact h'
  | cons hi hp _ ih => exact .cons hi hp (ih h')

theorem get_of_notMem (h : Pops lenders s texts t) (hi : i ∉ lenders) : t.get i = s.get i := by
  induction h with
  | nil => rfl
  | cons hj hp _ ih =>
    obtain ⟨left, -, rfl⟩ := popText?_eq_some hp
    rw [ih, Slots.get_set_of_ne]
    rintro rfl
    exact hi hj

end Pops

theorem popEach_pops (his : ∀ i ∈ is, i ∈ lenders) :
    Pops lenders s (popEach s is).1 (popEach s is).2 := by
  induction is generalizing s with
  | nil => exact .nil
  | cons i is ih =>
    rw [List.forall_mem_cons] at his
    unfold popEach
    cases hp : popText? s i with
    | none => exact ih his.2
    | some r => exact .cons his.1 hp (ih his.2)

theorem popRounds_pops : ∃ new, Pops lenders s new (popRounds lenders n s).2 ∧
    new.Perm (popRounds lenders n s).1 := by
  induction n generalizing s with
  | zero => exact ⟨[], .nil, .nil⟩
  | succ n ih =>
    obtain ⟨new, hn, hp⟩ := ih (s := (popEach s lenders).2)
    refine ⟨_, (popEach_pops fun _ => id).trans hn, ?_⟩
    exact (hp.append_left _).trans List.perm_append_comm

theorem popUntil_pops {texts' : List String} (his : ∀ i ∈ is, i ∈ lenders)
    (h : popUntil n is texts s = some (texts', t)) :
    ∃ new, Pops lenders s new t ∧ (new ++ texts).Perm texts' ∧ new.length = n := by
  induction is generalizing n texts s with
  | nil =>
    cases n with
    | zero =>
      obtain ⟨rfl, rfl⟩ := Prod.mk.inj (Option.some.inj h)
      exact ⟨[], .nil, .refl _, rfl⟩
    | succ => cases h
  | cons i is ih =>
    cases n with
    | zero =>
      obtain ⟨rfl, rfl⟩ := Prod.mk.inj (Option.some.inj h)
      exact ⟨[], .nil, .refl _, rfl⟩
    | succ n =>
      rw [List.forall_mem_cons] at his
      simp only [popUntil, Option.bind_eq_bind, Option.bind_eq_some_iff] at h
      obtain ⟨⟨text, u⟩, hp, h⟩ := h
      obtain ⟨new, hn, hperm, rfl⟩ := ih his.2 h
      exact ⟨text :: new, .cons his.1 hp hn, List.perm_middle.symm.trans hperm, rfl⟩

theorem popEach_size (hd : is.Nodup) (hs : ∀ i ∈ is, 0 < (s.get i).size) :
    (popEach s is).1.length = is.length ∧
      ∀ i ∈ is, ((popEach s is).2.get i).size + 1 = (s.get i).size := by
  induction is generalizing s with
  | nil => simp [popEach]
  | cons i is ih =>
    rw [List.nodup_cons] at hd
    rw [List.forall_mem_cons] at hs
    obtain ⟨⟨text, left⟩, hp⟩ := Option.isSome_iff_exists.mp (Slot.isSome_popText? hs.1)
    have hpop : popText? s i = some (text, s.set i left) := by simp [popText?, hp]
    have hother : ∀ j ∈ is, (s.set i left).get j = s.get j := fun j hj =>
      Slots.get_set_of_ne (by rintro rfl; exact hd.1 hj)
    obtain ⟨hlen, hsize⟩ := ih (s := s.set i left) hd.2
      fun j hj => by rw [hother j hj]; exact hs.2 j hj
    simp only [popEach, hpop]
    refine ⟨by simp [hlen], List.forall_mem_cons.mpr ⟨?_, ?_⟩⟩
    · rw [(popEach_pops fun _ => id).get_of_notMem hd.1, Slots.get_set_self]
      simp [Slot.size, Slot.texts_of_popText? hp]
    · intro j hj
      rw [hsize j hj, hother j hj]

theorem popRounds_size (hd : lenders.Nodup) (hs : ∀ i ∈ lenders, n ≤ (s.get i).size) :
    (popRounds lenders n s).1.length = n * lenders.length ∧
      ∀ i ∈ lenders, ((popRounds lenders n s).2.get i).size + n = (s.get i).size := by
  induction n generalizing s with
  | zero => simp [popRounds]
  | succ n ih =>
    obtain ⟨hlen, hsize⟩ := popEach_size hd fun i hi => Nat.zero_lt_of_lt (hs i hi)
    obtain ⟨hlen', hsize'⟩ := ih (s := (popEach s lenders).2) fun i hi => by
      have := hs i hi
      have := hsize i hi
      omega
    constructor
    · simp only [popRounds, List.length_append, hlen, hlen', Nat.succ_mul]
    · intro i hi
      have := hsize i hi
      have := hsize' i hi
      simp only [popRounds]
      omega

theorem leastSize_le (hi : i ∈ lenders) : leastSize lenders s ≤ (s.get i).size := by
  unfold leastSize
  cases hm : (lenders.map fun i => (s.get i).size).min? with
  | none => exact Nat.zero_le _
  | some m => exact (List.min?_eq_some_iff.mp hm).2 _ (List.mem_map_of_mem hi)

theorem fromRequired?_pops (h : fromRequired? lenders n s = some (texts, t)) :
    ∃ new, Pops lenders s new t ∧ new.Perm texts := by
  simp only [fromRequired?, Option.ite_none_left_eq_some] at h
  obtain ⟨rfl, rfl⟩ := Prod.mk.inj (Option.some.inj h.2)
  exact popRounds_pops

/-- Every lender keeps a text, unless nothing was wanted. -/
theorem fromRequired?_size (hd : lenders.Nodup) (hn : 0 < n)
    (h : fromRequired? lenders n s = some (texts, t)) :
    texts.length = n ∧ ∀ i ∈ lenders, 0 < (t.get i).size := by
  simp only [fromRequired?, Option.ite_none_left_eq_some] at h
  obtain ⟨hc, h⟩ := h
  obtain ⟨hmod, hleast⟩ := not_or.mp hc
  obtain ⟨rfl, rfl⟩ := Prod.mk.inj (Option.some.inj h)
  have hcount : n / lenders.length * lenders.length = n :=
    Nat.div_mul_cancel (Nat.dvd_of_mod_eq_zero (by simpa using hmod))
  have hpos : 0 < n / lenders.length := Nat.pos_of_ne_zero fun h0 => by
    rw [h0, Nat.zero_mul] at hcount
    omega
  have hrounds : ∀ i ∈ lenders, n / lenders.length < (s.get i).size := fun i hi => by
    have := leastSize_le (s := s) hi
    omega
  obtain ⟨hlen, hsize⟩ := popRounds_size hd fun i hi => Nat.le_of_lt (hrounds i hi)
  refine ⟨hlen.trans hcount, ?_⟩
  intro i hi
  have := hsize i hi
  have := hrounds i hi
  omega

theorem fromOptional?_pops (h : fromOptional? lenders n s = some (texts, t)) :
    (∃ new, Pops lenders s new t ∧ new.Perm texts) ∧ texts.length = n := by
  simp only [fromOptional?, Option.bind_eq_bind, Option.bind_eq_some_iff] at h
  obtain ⟨⟨first, u⟩, hfirst, h⟩ := h
  obtain ⟨new, hn, hperm, hlen⟩ := popUntil_pops (fun i hi => by
    have := List.mem_of_mem_filter (List.mem_of_mem_take hi)
    simpa using this) hfirst
  obtain ⟨new', hn', hperm', hlen'⟩ := popUntil_pops (fun i hi => by
    obtain ⟨l, hl, hi⟩ := List.mem_flatten.mp hi
    obtain rfl := (List.mem_replicate.mp hl).2
    simpa using hi) h
  rw [List.append_nil] at hperm
  refine ⟨⟨new ++ new', hn.trans hn', ?_⟩, ?_⟩
  · exact List.perm_append_comm.trans ((hperm.append_left _).trans hperm')
  · have htake := List.length_take_le n
      (lenders.reverse.filter fun i => (s.get i).size ≠ leastSize lenders s)
    rw [← hperm'.length_eq, List.length_append, ← hperm.length_eq, hlen, hlen']
    omega

namespace Loan

variable {loan : Loan}

theorem texts?_pops (h : loan.texts? s = some (texts, t)) :
    ∃ new, Pops loan.lenders s new t ∧ new.Perm texts := by
  unfold texts? at h
  split at h
  · exact fromRequired?_pops h
  · exact (fromOptional?_pops h).1

/-- A loan takes one text for each borrower. -/
theorem length_texts? (hd : loan.lenders.Nodup) (hb : loan.borrowers ≠ [])
    (h : loan.texts? s = some (texts, t)) : texts.length = loan.borrowers.length := by
  unfold texts? at h
  split at h
  · exact (fromRequired?_size hd (List.length_pos_iff.mpr hb) h).1
  · exact (fromOptional?_pops h).2

theorem size_pos (hd : loan.lenders.Nodup) (hb : loan.borrowers ≠ [])
    (h : loan.texts? s = some (texts, t)) (hk : loan.kind = .required) :
    ∀ i ∈ loan.lenders, 0 < (t.get i).size := by
  simp only [texts?, hk] at h
  exact (fromRequired?_size hd (List.length_pos_iff.mpr hb) h).2

end Loan

/-! ## Who lends, who borrows -/

mutual

theorem slots_of_argumentSlots? : ∀ {p : Pattern} {is : List Nat}, argumentSlots? p = some is →
    slots [p] = is ∧ ∀ q ∈ p.leaves, ∃ leaf, q = .argument leaf
  | .argument leaf, is, h => by
    obtain rfl := Option.some.inj h
    exact ⟨rfl, fun q hq => ⟨leaf, List.mem_singleton.mp hq⟩⟩
  | .group _ children false, is, h => by
    rw [Pattern.slots_group, Pattern.leaves, Pattern.leavesAll_eq_flatMap]
    exact slots_of_argumentSlotsAll? h

theorem slots_of_argumentSlotsAll? : ∀ {ps : List Pattern} {is : List Nat},
    argumentSlotsAll? ps = some is →
    slots ps = is ∧ ∀ q ∈ ps.flatMap Pattern.leaves, ∃ leaf, q = .argument leaf
  | [], is, h => by
    obtain rfl := Option.some.inj h
    simp
  | p :: ps, is, h => by
    simp only [argumentSlotsAll?, Option.bind_eq_bind, Option.bind_eq_some_iff] at h
    obtain ⟨first, hf, rest, hr, h⟩ := h
    obtain rfl := Option.some.inj h
    obtain ⟨hp, hpl⟩ := slots_of_argumentSlots? hf
    obtain ⟨hps, hpsl⟩ := slots_of_argumentSlotsAll? hr
    refine ⟨by rw [Pattern.slots_cons, hp, hps], ?_⟩
    intro q hq
    rw [List.flatMap_cons, List.mem_append] at hq
    exact hq.elim (hpl q) (hpsl q)

end

mutual

theorem borrowers?_spec : ∀ {p : Pattern} {bs : List Positional}, borrowers? s p = some bs →
    (bs.map Positional.slot).Sublist (slots [p]) ∧
      ∀ b ∈ bs, b.pattern ∈ p.leaves ∧ b.isFilled s = false
  | .group .required children false, bs, h => by
    rw [Pattern.slots_group, Pattern.leaves, Pattern.leavesAll_eq_flatMap]
    exact borrowersAll?_spec h
  | .group .optional _ false, bs, h | .option _, bs, h | .shortcut _, bs, h => by
    obtain rfl := Option.some.inj h
    simp
  | .command leaf, bs, h | .argument leaf, bs, h => by
    simp only [borrowers?, Option.ite_none_left_eq_some, Bool.not_eq_true] at h
    obtain ⟨hf, h⟩ := h
    obtain rfl := Option.some.inj h
    refine ⟨.refl _, ?_⟩
    intro b hb
    obtain rfl := List.mem_singleton.mp hb
    exact ⟨List.mem_singleton_self _, hf⟩

theorem borrowersAll?_spec : ∀ {ps : List Pattern} {bs : List Positional},
    borrowersAll? s ps = some bs →
    (bs.map Positional.slot).Sublist (slots ps) ∧
      ∀ b ∈ bs, b.pattern ∈ ps.flatMap Pattern.leaves ∧ b.isFilled s = false
  | [], bs, h => by
    obtain rfl := Option.some.inj h
    simp
  | p :: ps, bs, h => by
    simp only [borrowersAll?, Option.bind_eq_bind, Option.bind_eq_some_iff] at h
    obtain ⟨first, hf, rest, hr, h⟩ := h
    obtain rfl := Option.some.inj h
    obtain ⟨hp, hpb⟩ := borrowers?_spec hf
    obtain ⟨hps, hpsb⟩ := borrowersAll?_spec hr
    refine ⟨by rw [Pattern.slots_cons, List.map_append]; exact hp.append hps, ?_⟩
    intro b hb
    rw [List.flatMap_cons, List.mem_append]
    rcases List.mem_append.mp hb with hb | hb
    · exact ⟨.inl (hpb b hb).1, (hpb b hb).2⟩
    · exact ⟨.inr (hpsb b hb).1, (hpsb b hb).2⟩

end

/-- A loan, with what stands before and behind its lender. -/
structure Splits (s : Slots) (line : List Pattern) (loan : Loan)
    (before children rest : List Pattern) : Prop where
  line_eq : line = before ++ .group loan.kind children true :: rest
  first : ∀ p ∈ before, p.isRepeatingGroup = false
  satisfied : ∀ p ∈ before, isSatisfied s p = true
  lender : isSatisfied s (.group loan.kind children true) = true
  lenders_eq : argumentSlotsAll? children = some loan.lenders
  lenders_ne : loan.lenders ≠ []
  borrowers_eq : borrowersAll? s rest = some loan.borrowers
  borrowers_ne : loan.borrowers ≠ []

theorem Splits.cons {p : Pattern} {line before children rest : List Pattern} {loan : Loan}
    (hr : p.isRepeatingGroup = false) (hs : isSatisfied s p = true)
    (h : Splits s line loan before children rest) :
    Splits s (p :: line) loan (p :: before) children rest where
  line_eq := congrArg (p :: ·) h.line_eq
  first := List.forall_mem_cons.mpr ⟨hr, h.first⟩
  satisfied := List.forall_mem_cons.mpr ⟨hs, h.satisfied⟩
  lender := h.lender
  lenders_eq := h.lenders_eq
  lenders_ne := h.lenders_ne
  borrowers_eq := h.borrowers_eq
  borrowers_ne := h.borrowers_ne

theorem splits_of_loan? {line : List Pattern} {loan : Loan} (h : loan? s line = some loan) :
    ∃ before children rest, Splits s line loan before children rest := by
  fun_induction loan? s line with
  | case1 | case2 => cases h
  | case3 line sc hne ih =>
    obtain ⟨before, children, rest, h⟩ := ih h
    exact ⟨_ :: before, children, rest, h.cons rfl rfl⟩
  | case4 kind children rest hne =>
    simp only [Option.bind_eq_bind, Option.bind_eq_some_iff, Option.guard_eq_some',
      Option.ite_none_left_eq_some, Bool.or_eq_true, not_or, List.isEmpty_iff] at h
    obtain ⟨-, hl, lenders, hlenders, borrowers, hborrowers, hne, h⟩ := h
    obtain rfl := Option.some.inj h
    exact ⟨[], children, rest, rfl, List.forall_mem_nil _, List.forall_mem_nil _, hl, hlenders, hne.1, hborrowers, hne.2⟩
  | case5 p line hne hs hg hsat ih =>
    obtain ⟨before, children, rest, h⟩ := ih h
    refine ⟨p :: before, children, rest, h.cons ?_ hsat⟩
    cases p with
    | group kind children repeats =>
      cases repeats with
      | false => rfl
      | true => exact (hg kind children rfl).elim
    | _ => rfl
  | case6 => cases h

namespace Splits

variable {line before children rest : List Pattern} {loan : Loan}
  (h : Splits s line loan before children rest)
include h

theorem lenders_slots : slots [.group loan.kind children true] = loan.lenders := by
  rw [Pattern.slots_group]
  exact (slots_of_argumentSlotsAll? h.lenders_eq).1

theorem lender_argument {q : Pattern} (hq : q ∈ (Pattern.group loan.kind children true).atoms) :
    q ∈ (Pattern.group loan.kind children true).leaves ∧ ∃ leaf, q = .argument leaf := by
  rw [Pattern.atoms_eq_flatMap_leaves] at hq
  obtain ⟨q', hl, hq⟩ := List.mem_flatMap.mp hq
  have hleaves := (slots_of_argumentSlotsAll? h.lenders_eq).2
  obtain ⟨leaf, rfl⟩ := hleaves q' (by rwa [Pattern.leaves, Pattern.leavesAll_eq_flatMap] at hl)
  obtain rfl := List.mem_singleton.mp hq
  exact ⟨hl, leaf, rfl⟩

theorem slots_line : slots line = slots before ++ loan.lenders ++ slots rest := by
  rw [h.line_eq, Pattern.slots_append, Pattern.slots_cons, h.lenders_slots, List.append_assoc]

theorem borrowers_sublist : (loan.borrowers.map Positional.slot).Sublist (slots rest) :=
  (borrowersAll?_spec h.borrowers_eq).1

theorem borrower_mem {b : Positional} (hb : b ∈ loan.borrowers) : b.slot ∈ slots rest :=
  h.borrowers_sublist.subset (List.mem_map_of_mem hb)

theorem borrower_leaf {b : Positional} (hb : b ∈ loan.borrowers) :
    b.pattern ∈ line.flatMap Pattern.leaves := by
  have := ((borrowersAll?_spec h.borrowers_eq).2 b hb).1
  simp [h.line_eq, this]

theorem lender_leaf {i : Nat} (hi : i ∈ loan.lenders) :
    ∃ leaf : Leaf, .argument leaf ∈ line.flatMap Pattern.leaves ∧ leaf.slot = i := by
  obtain ⟨q, hq, hqi⟩ := List.mem_filterMap.mp (h.lenders_slots ▸ hi)
  rw [List.flatMap_singleton] at hq
  obtain ⟨hl, leaf, rfl⟩ := h.lender_argument hq
  refine ⟨leaf, ?_, Option.some.inj hqi⟩
  rw [h.line_eq, List.flatMap_append, List.flatMap_cons]
  exact List.mem_append_right _ (List.mem_append_left _ hl)

theorem borrower_atom {b : Positional} (hb : b ∈ loan.borrowers) :
    b.pattern ∈ line.flatMap Pattern.atoms :=
  Pattern.mem_flatMap_atoms_of_leaves (h.borrower_leaf hb) b.slot?_pattern

theorem lender_atom {i : Nat} (hi : i ∈ loan.lenders) :
    ∃ leaf : Leaf, .argument leaf ∈ line.flatMap Pattern.atoms ∧ leaf.slot = i := by
  obtain ⟨leaf, hleaf, he⟩ := h.lender_leaf hi
  exact ⟨leaf, Pattern.mem_flatMap_atoms_of_leaves hleaf (i := leaf.slot) rfl, he⟩

theorem lender_mem : .group loan.kind children true ∈ line := by
  simp [h.line_eq]

end Splits

end Lending

/-! ## Making a loan -/

theorem Positional.isFilled_congr {p : Positional} {s t : Slots}
    (h : t.get p.slot = s.get p.slot) : p.isFilled t = p.isFilled s := by
  cases p <;> simp only [isFilled, slot] at * <;> rw [h]

theorem Positional.isFilled_record (p : Positional) (text : String) (s : Slots) :
    p.isFilled (s.modify p.slot (p.record false text)) = true := by
  cases p <;>
    simp [isFilled, slot, record, Slot.hit, Slot.pushText, Slot.isTruthy, Slot.hasText]

theorem Positional.Runs.isFilled {p : Positional} {s t : Attempt} {log : List Move}
    (h : p.Runs false s log true t) : p.isFilled t.slots = true := by
  cases h with
  | filled hf => simpa using hf
  | taken => exact p.isFilled_record _ _

theorem Positional.Runs.get_of_ne {p : Positional} {counting b : Bool} {s t : Attempt}
    {log : List Move} {i : Nat} (h : p.Runs counting s log b t) (hi : p.slot ≠ i) :
    t.slots.get i = s.slots.get i := by
  cases h with
  | filled | barred | refused => rfl
  | taken => exact Slots.get_modify_of_ne hi.symm

namespace Lending

variable {s t : Attempt} {i : Nat}

theorem Borrows.get_of_forall_ne {ps : List Positional} (h : Borrows ps s t)
    (hi : ∀ p ∈ ps, p.slot ≠ i) : t.slots.get i = s.slots.get i := by
  induction h with
  | nil => rfl
  | cons run _ ih =>
    rw [List.forall_mem_cons] at hi
    exact (ih hi.2).trans (run.get_of_ne hi.1)

theorem Borrows.isFilled {ps : List Positional} (h : Borrows ps s t)
    (hd : (ps.map Positional.slot).Nodup) : ∀ p ∈ ps, p.isFilled t.slots = true := by
  induction h with
  | nil => simp
  | cons run rest ih =>
    rw [List.map_cons, List.nodup_cons] at hd
    refine List.forall_mem_cons.mpr ⟨?_, ih hd.2⟩
    rw [Positional.isFilled_congr (rest.get_of_forall_ne fun q hq he => ?_)]
    · exact run.isFilled
    · exact hd.1 (he ▸ List.mem_map_of_mem hq)

/-- What a loan leaves behind, apart from where the texts went. -/
structure Repaid (s t : Slots) (loan : Loan) : Prop where
  others : ∀ i ∉ loan.lenders, (∀ b ∈ loan.borrowers, b.slot ≠ i) → t.get i = s.get i
  lenders : loan.kind = .required → ∀ i ∈ loan.lenders, (t.get i).hasText = true
  borrowers : ∀ b ∈ loan.borrowers, b.isFilled t = true

theorem Lends.repaid {scope : Scope} {line : List Pattern} (h : Lends line s t)
    (hd : Pattern.Distinct scope line) :
    ∃ loan before children rest, Splits s.slots line loan before children rest ∧
      Repaid s.slots t.slots loan := by
  obtain ⟨hl, ht, hb⟩ := h
  obtain ⟨before, children, rest, hsplit⟩ := splits_of_loan? hl
  refine ⟨_, before, children, rest, hsplit, ?_⟩
  have hnodup := hsplit.slots_line ▸ hd.slots_nodup
  obtain ⟨hn, hnrest, hdisjoint⟩ := List.nodup_append'.mp hnodup
  obtain ⟨new, hpops, -⟩ := Loan.texts?_pops ht
  refine ⟨?_, ?_, ?_⟩
  · intro i hi hi'
    rw [hb.get_of_forall_ne hi', hpops.get_of_notMem hi]
  · intro hk i hi
    rw [hb.get_of_forall_ne]
    · exact Slot.hasText_of_size_pos
        (Loan.size_pos (List.nodup_append'.mp hn).2.1 hsplit.borrowers_ne ht hk i hi)
    · rintro b hb rfl
      exact hdisjoint (List.mem_append_right _ hi) (hsplit.borrower_mem hb)
  · exact hb.isFilled (hnrest.sublist hsplit.borrowers_sublist)

theorem Lends.argv_eq {line : List Pattern} (h : Lends line s t) : t.argv = s.argv := by
  cases h
  rfl

/-- A loan changes the slots of commands and arguments of its line. -/
theorem Lends.get_of_forall_ne {line : List Pattern} (h : Lends line s t)
    (hi : ∀ p : Positional, p.pattern ∈ line.flatMap Pattern.leaves → p.slot ≠ i) :
    t.slots.get i = s.slots.get i := by
  obtain ⟨hl, ht, hb⟩ := h
  obtain ⟨before, children, rest, hsplit⟩ := splits_of_loan? hl
  obtain ⟨new, hpops, -⟩ := Loan.texts?_pops ht
  rw [hb.get_of_forall_ne fun p hp => hi p (hsplit.borrower_leaf hp), hpops.get_of_notMem]
  intro hlender
  obtain ⟨leaf, hleaf, he⟩ := hsplit.lender_leaf hlender
  exact hi (.argument leaf) hleaf he

/-- A loan changes nothing outside its line. -/
theorem Lends.get_of_notMem {line : List Pattern} (h : Lends line s t) (hi : i ∉ slots line) :
    t.slots.get i = s.slots.get i := by
  refine h.get_of_forall_ne fun p hp he => hi ?_
  have hatom := Pattern.mem_flatMap_atoms_of_leaves hp p.slot?_pattern
  exact List.mem_filterMap.mpr ⟨p.pattern, hatom, he ▸ p.slot?_pattern⟩

end Lending

end Synopsis
