import Synopsis.Proofs.Matcher.Scanning

/-! # What a match guarantees

A pattern that matches has all its required commands and arguments filled, be it by
scanning, by repeating or by a loan. A loan counts options as satisfied that never
appeared, so that a required option is only sure to have appeared if no group around
it can make a loan without it.
-/

namespace Synopsis

open Lending (Splits isSatisfied areSatisfied borrowers? borrowersAll?)
open Pattern (Reaches slots Plain Distinct Regular)

variable {scope : Scope} {L : Pattern → Prop} {n : Nat} {p c q : Pattern} {line : List Pattern}
  {s t : Attempt} {log : List Move} {b : Positional} {o : OptionAtom}

namespace Pattern

/-- The leaf `q` lies in `p`, and in no optional group of it. -/
inductive Owes : Pattern → Pattern → Prop
  | leaf {q : Pattern} (h : q.isAtom = true) : Owes q q
  | child {line : List Pattern} {repeats : Bool} {c q : Pattern} (hc : c ∈ line)
      (h : Owes c q) : Owes (.group .required line repeats) q
  | branch {branches : List Pattern} {c q : Pattern} (hc : c ∈ branches) (h : Owes c q) :
      Owes (.either branches) q

/-- No loan of the line can do without the child: it stands before the lender and has a
command or an argument of its own that must be there. -/
def Secured (line : List Pattern) (c : Pattern) : Prop :=
  c ∈ line ∧ ∀ s loan before children rest, Splits s line loan before children rest →
    c ∈ before ∧ ∃ b : Positional, Owes c b.pattern

/-- If `p` matches, then `q` matches, and not because of a loan. -/
inductive Assures : Pattern → Pattern → Prop
  | refl {p : Pattern} : Assures p p
  | child {line : List Pattern} {repeats : Bool} {c q : Pattern} (hc : Secured line c)
      (h : Assures c q) : Assures (.group .required line repeats) q

theorem secured_of_no_lender (h : ∀ p ∈ line, p.isRepeatingGroup = false) (hc : c ∈ line) :
    Secured line c :=
  ⟨hc, fun _ _ _ _ _ hsplit => by simpa [isRepeatingGroup] using h _ hsplit.lender_mem⟩

theorem secured_of_before {before rest : List Pattern}
    (h : ∀ p ∈ before, p.isRepeatingGroup = false) (hc : c ∈ before) (hb : Owes c b.pattern) :
    Secured (before ++ rest) c := by
  refine ⟨List.mem_append_left _ hc, fun s loan before' children rest' hsplit => ⟨?_, b, hb⟩⟩
  rcases List.append_eq_append_iff.mp hsplit.line_eq with ⟨more, rfl, -⟩ | ⟨more, rfl, hrest⟩
  · exact List.mem_append_left _ hc
  · cases more with
    | nil => simpa using hc
    | cons p more =>
      obtain ⟨rfl, -⟩ := List.cons.inj hrest
      simpa [isRepeatingGroup] using h (.group loan.kind children true) (by simp)

theorem Owes.mem_atoms (h : Owes p q) : q ∈ p.atoms := by
  induction h with
  | @leaf q h =>
    cases q with
    | option o => simp [atoms_option]
    | command | argument => exact List.mem_singleton_self _
    | group | either | shortcut => cases h
  | child hc _ ih | branch hc _ ih =>
    rw [atoms, atomsAll_eq_flatMap]
    exact List.mem_flatMap.mpr ⟨_, hc, ih⟩

theorem Owes.slot_mem (h : Owes p b.pattern) : b.slot ∈ slots [p] :=
  mem_slots.mpr ⟨p, List.mem_singleton_self _, _, h.mem_atoms, b.slot?_pattern⟩

theorem Assures.trans {r : Pattern} (h : Assures p q) (h' : Assures q r) : Assures p r := by
  induction h with
  | refl => exact h'
  | child hc _ ih => exact .child hc (ih h')

theorem Assures.owes (h : Assures p c) (hq : Owes c q) : Owes p q := by
  induction h with
  | refl => exact hq
  | child hc _ ih => exact .child hc.1 (ih hq)

theorem Assures.mem_atoms (h : Assures p (.option o)) : .option o ∈ p.atoms := by
  generalize hq : Pattern.option o = q at h
  induction h with
  | refl =>
    subst hq
    simp [atoms_option]
  | child hc _ ih =>
    rw [atoms, atomsAll_eq_flatMap]
    exact List.mem_flatMap.mpr ⟨_, hc.1, ih hq⟩

theorem Assures.slot_mem (h : Assures p (.option o)) : o.slot ∈ slots [p] :=
  mem_slots.mpr ⟨p, List.mem_singleton_self _, _, h.mem_atoms, rfl⟩

end Pattern

open Pattern (Owes Secured Assures)

/-! ## Leaves that are met -/

/-- The leaf of a record has what it needs. -/
def Recorded.isMet (r : Recorded) (s : Slots) : Bool :=
  match r.kind with
  | .hits => (s.get r.slot).isTruthy
  | .texts => (s.get r.slot).hasText

namespace Recorded

variable {r : Recorded} {leaves : List Recorded} {history : List Slots} {u : Slots}

theorem isMet_cleared {s : Slots} (h : s.get r.slot = r.cleared (u.get r.slot)) :
    r.isMet s = false := by
  obtain ⟨kind, i⟩ := r
  unfold isMet
  rw [h]
  cases kind <;> cases u.get i <;> rfl

theorem foldr_count_pos {i : Nat} (hu : u ∈ history) (hc : 0 < (u.get i).count?.getD 0) :
    0 < (history.map (·.get i)).foldr (fun s n => s.count?.getD 0 + n) 0 := by
  induction history with
  | nil => cases hu
  | cons v history ih =>
    rw [List.map_cons, List.foldr_cons]
    rcases List.mem_cons.mp hu with rfl | hu
    · exact Nat.add_pos_left hc _
    · exact Nat.add_pos_right _ (ih hu)

/-- Merging forgets no leaf that some pass has met. -/
theorem isMet_merged {s : Slots} (h : s.get r.slot = r.merged (history.map (·.get r.slot)))
    (hu : u ∈ history) (hf : r.kind.fits (u.get r.slot) = true) (hm : r.isMet u = true) :
    r.isMet s = true := by
  obtain ⟨kind, i⟩ := r
  unfold isMet at hm ⊢
  rw [h]
  cases kind with
  | hits =>
    have hcount : 0 < (u.get i).count?.getD 0 := by
      cases hs : u.get i <;> simp_all [RecordKind.fits, Slot.isTruthy, Slot.count?]
      omega
    simpa [merged, Slot.isTruthy] using Nat.ne_of_gt (foldr_count_pos hu hcount)
  | texts =>
    have htexts : (u.get i).texts ≠ [] := by
      cases hs : u.get i <;> simp_all [Slot.hasText, Slot.texts]
    obtain ⟨text, htext⟩ := List.exists_mem_of_ne_nil _ htexts
    have hmem : text ∈ (history.map (·.get i)).flatMap Slot.texts :=
      List.mem_flatMap.mpr ⟨u.get i, List.mem_map_of_mem hu, htext⟩
    simpa [merged, Slot.hasText] using List.ne_nil_of_mem hmem

end Recorded

theorem Positional.isFilled_eq_isMet (b : Positional) :
    ∃ r, b.pattern.ownRecord? = some r ∧ ∀ s, r.isMet s = b.isFilled s := by
  cases b <;> exact ⟨_, rfl, fun _ => rfl⟩

theorem RepeatPasses.first_mem {once : Step} {leaves : List Recorded} {history : List Slots}
    (h : RepeatPasses once leaves [] s log history t) (hh : history ≠ []) :
    ∃ log' u, once (s.cleared leaves) log' true u ∧ u.slots ∈ history := by
  cases h with
  | empty | failed => exact absurd rfl hh
  | still _ run => exact ⟨_, _, run, List.mem_cons_self⟩
  | again _ run _ rest => exact ⟨_, _, run, rest.history_suffix.mem List.mem_cons_self⟩

section Repetition

variable {kind : GroupKind} {leaves : List Recorded} {k : Nat}
  (hL : Apart L) (hp : p.Regular scope L) (hl : p.recorded? scope k = .some leaves)
include hL hp hl

theorem Typed.cleared (hs : Typed L s.slots) : Typed L (s.cleared leaves).slots :=
  Typed.clearAll hL (hp.recorded hl) hs

/-- What the first pass of a repetition meets, the repetition meets. -/
theorem RepeatRun.isMet {R : Pattern → Step} {r : Recorded} (hq : Reaches scope p q)
    (hr : q.ownRecord? = .some r)
    (ho : ∀ log u, OnceRun R line kind (s.cleared leaves) log true u →
      Typed L u.slots ∧ r.isMet u.slots = true)
    (h : RepeatRun (OnceRun R line kind) leaves s log true t) : r.isMet t.slots = true := by
  have hmem : r ∈ leaves := (Pattern.mem_recorded_iff hl).mpr ⟨q, hq, hr⟩
  cases h with
  | some passes hh =>
    obtain ⟨log', u, run, hu⟩ := passes.first_mem hh
    obtain ⟨hty, hm⟩ := ho _ _ run
    exact Recorded.isMet_merged
      (Recorded.get_mergeAll hmem (Typed.leaf_unique hL (hp.recorded hl) hmem))
      (List.mem_cons_of_mem _ (List.mem_reverse.mpr hu)) (hty q (hp.reach q hq) r hr) hm

end Repetition

theorem Typed.onceRun {kind : GroupKind} {repeats b : Bool} (hL : Apart L)
    (hp : (Pattern.group kind line repeats).Regular scope L)
    (h : OnceRun (Run scope n false) line kind s log b t) (hs : Typed L s.slots) :
    Typed L t.slots :=
  ((Typed.closed hL).onceRun
    (fun _ hc _ _ _ _ run => (Typed.closed hL).run_steady (hp.child hc).reach run) hp.reach h).1 hs

/-! ## Commands and arguments -/

namespace Lending

theorem areSatisfied_eq_all (s : Slots) (ps : List Pattern) :
    areSatisfied s ps = ps.all (isSatisfied s) := by
  induction ps with
  | nil => rfl
  | cons p ps ih => simp [areSatisfied, ih]

theorem isFilled_of_isSatisfied {s : Slots} (h : Owes p b.pattern)
    (hs : isSatisfied s p = true) : b.isFilled s = true := by
  generalize hq : b.pattern = q at h
  induction h with
  | leaf =>
    subst hq
    cases b <;> exact hs
  | child hc _ ih =>
    rw [isSatisfied, areSatisfied_eq_all, List.all_eq_true] at hs
    exact ih (hs _ hc) hq
  | branch => cases hs

theorem borrowers?_of_mem {s : Slots} {bs : List Positional} (hc : c ∈ line)
    (h : borrowersAll? s line = some bs) : ∃ bs', borrowers? s c = some bs' ∧ bs' ⊆ bs := by
  induction line generalizing bs with
  | nil => cases hc
  | cons p line ih =>
    simp only [borrowersAll?, Option.bind_eq_bind, Option.bind_eq_some_iff] at h
    obtain ⟨first, hf, rest, hr, h⟩ := h
    obtain rfl := Option.some.inj h
    rcases List.mem_cons.mp hc with rfl | hc
    · exact ⟨first, hf, List.subset_append_left _ _⟩
    · obtain ⟨bs', hbs, hsub⟩ := ih hc hr
      exact ⟨bs', hbs, fun _ hb => List.mem_append_right _ (hsub hb)⟩

/-- Whatever must be there behind a lender borrows from it. -/
theorem mem_borrowers {s : Slots} {bs : List Positional} (h : Owes p b.pattern)
    (hb : borrowers? s p = some bs) : b ∈ bs := by
  generalize hq : b.pattern = q at h
  induction h generalizing bs with
  | leaf =>
    subst hq
    cases b <;>
      · simp only [Positional.pattern, borrowers?, Option.ite_none_left_eq_some] at hb
        obtain rfl := Option.some.inj hb.2
        exact List.mem_singleton_self _
  | @child line repeats c q hc _ ih =>
    cases repeats with
    | true => cases hb
    | false =>
      obtain ⟨bs', hbs, hsub⟩ := borrowers?_of_mem hc hb
      exact hsub (ih hbs hq)
  | branch => cases hb

end Lending

/-- What stands before the lender is not touched. -/
theorem Lending.Repaid.before {s t : Slots} {loan : Lending.Loan}
    {before children rest : List Pattern} {i : Nat} (h : Lending.Repaid s t loan)
    (hsplit : Splits s line loan before children rest) (hd : Distinct scope line)
    (hc : c ∈ before) (hi : i ∈ slots [c]) : t.get i = s.get i := by
  have hi := Pattern.mem_slots_of_mem hc hi
  have hnodup := hsplit.slots_line ▸ hd.slots_nodup
  obtain ⟨hbefore, -, hdisjoint⟩ := List.nodup_append'.mp hnodup
  obtain ⟨-, -, hdisjoint'⟩ := List.nodup_append'.mp hbefore
  apply h.others i (hdisjoint' hi)
  rintro b hb rfl
  exact hdisjoint (List.mem_append_left _ hi) (hsplit.borrower_mem hb)

/-- A loan fills whatever the line still misses and takes nothing away for good. -/
theorem Lending.Lends.isFilled (h : Lending.Lends line s t) (hd : Distinct scope line)
    (hc : c ∈ line) (hb : Owes c b.pattern) : b.isFilled t.slots = true := by
  obtain ⟨loan, before, children, rest, hsplit, hrepaid⟩ := h.repaid hd
  have hcases : c ∈ before ∨ c = .group loan.kind children true ∨ c ∈ rest := by
    simpa [hsplit.line_eq] using hc
  rcases hcases with hc | rfl | hc
  · rw [Positional.isFilled_congr (hrepaid.before hsplit hd hc hb.slot_mem)]
    exact isFilled_of_isSatisfied hb (hsplit.satisfied c hc)
  · have hi := hsplit.lenders_slots ▸ hb.slot_mem
    obtain ⟨-, leaf, hleaf⟩ := hsplit.lender_argument hb.mem_atoms
    obtain rfl : b = .argument leaf := Positional.pattern_injective hleaf
    refine hrepaid.lenders ?_ _ hi
    cases hk : loan.kind with
    | required => rfl
    | optional =>
      rw [hk] at hb
      cases hb
  · obtain ⟨bs', hbs, hsub⟩ := borrowers?_of_mem hc hsplit.borrowers_eq
    exact hrepaid.borrowers b (hsub (mem_borrowers hb hbs))

/-- A pattern that counts as matched from the start has nothing that must be there. -/
theorem Scanned.not_owes (h : (Scanned.start c).matched = true) : ¬ Owes c b.pattern := by
  intro hb
  cases hb with
  | leaf => cases b <;> cases h
  | child => cases h
  | branch => cases h

section Line

variable (hp : ∀ c ∈ line, Regular scope L c) (hd : Distinct scope line) (hL : Apart L)
include hp hd hL

theorem LineRun.isFilled
    (hR : ∀ c ∈ line, ∀ s log t, Run scope n false c s log true t → Typed L s.slots →
      ∀ b : Positional, Owes c b.pattern → b.isFilled t.slots = true)
    (h : LineRun (Run scope n false) line s log true t) (hs : Typed L s.slots)
    (hc : c ∈ line) (hb : Owes c b.pattern) : b.isFilled t.slots = true := by
  have hT : Tracks (Run scope n false) line (Typed L)
      (fun c s => ∀ b : Positional, Owes c b.pattern → b.isFilled s = true) := by
    refine .ofRun hd (fun c hc _ _ _ _ run => (Typed.closed hL).run (hp c hc).reach run) hR ?_
    intro c hc s t hst h b hb
    rw [Positional.isFilled_congr (hst _ hb.slot_mem)]
    exact h b hb
  cases h with
  | matched scan hall =>
    exact (hT.scan (fun c _ hm b hb => (Scanned.not_owes hm hb).elim) scan hs).2 hall c hc b hb
  | lent _ _ hl => exact hl.isFilled hd hc hb

end Line

/-- A match fills all commands and arguments that must be there. -/
theorem Run.isFilled (hp : p.Regular scope L) (hL : Apart L)
    (h : Run scope n false p s log true t) (hs : Typed L s.slots) (hb : Owes p b.pattern) :
    b.isFilled t.slots = true := by
  induction n generalizing p s log t b with
  | zero => exact h.elim
  | succ n ih =>
    have hb' := hb
    cases hb with
    | leaf =>
      cases b with
      | command leaf | argument leaf => exact Positional.Runs.isFilled h
    | @child line repeats c _ hc hb =>
      have once {s log t} (h : OnceRun (Run scope n false) line .required s log true t)
          (hs : Typed L s.slots) : b.isFilled t.slots = true := by
        cases h with
        | required run =>
          exact run.isFilled (fun _ => hp.child) hp.distinct.children hL
            (fun c hc _ _ _ run hs b hb => ih (hp.child hc) run hs hb) hs hc hb
      simp only [Run] at h
      split at h
      next =>
        obtain ⟨leaves, matched, hl, h, hm⟩ := h
        obtain rfl : matched = true := by simpa using hm.symm
        obtain ⟨r, hr, hmet⟩ := b.isFilled_eq_isMet
        rw [← hmet]
        refine RepeatRun.isMet hL hp hl (Pattern.reaches_of_mem_atoms hb'.mem_atoms) hr ?_ h
        intro log u run
        have hcleared := Typed.cleared hL hp hl hs
        exact ⟨Typed.onceRun hL hp run hcleared, hmet _ ▸ once run hcleared⟩
      next => exact once h hs
    | branch hc =>
      cases hp.plain

/-! ## Options -/

namespace Pattern

/-- All options that the match of a pattern assures have appeared. -/
def Assured (p : Pattern) (s : Slots) : Prop :=
  ∀ o, Assures p (.option o) → (s.get o.slot).isTruthy = true

/-- Where a part of a pattern has something of what it must have, its options have
appeared. A part that matched once is in this state, and so is one that never did. -/
def Settled (p : Pattern) (s : Slots) : Prop :=
  ∀ c, Assures p c → (∃ b : Positional, Owes c b.pattern ∧ b.isFilled s = true) → Assured c s

theorem Assured.settled {s : Slots} (h : Assured p s) : Settled p s :=
  fun _ hc _ o ho => h o (hc.trans ho)

theorem Assured.congr {s t : Slots} (ht : ∀ i ∈ slots [p], t.get i = s.get i)
    (h : Assured p s) : Assured p t := fun o ho => by
  rw [ht _ ho.slot_mem]
  exact h o ho

theorem Assures.slots_subset (h : Assures p c) : slots [c] ⊆ slots [p] := by
  induction h with
  | refl => exact fun _ => id
  | child hc _ ih =>
    rw [slots_group]
    exact fun _ hi => mem_slots_of_mem hc.1 (ih hi)

theorem Settled.congr {s t : Slots} (ht : ∀ i ∈ slots [p], t.get i = s.get i)
    (h : Settled p s) : Settled p t := by
  rintro c hc ⟨b, hb, hf⟩
  have hct : ∀ i ∈ slots [c], t.get i = s.get i := fun i hi => ht i (hc.slots_subset hi)
  refine (h c hc ⟨b, hb, ?_⟩).congr hct
  rwa [← Positional.isFilled_congr (hct _ hb.slot_mem)]

theorem settled_of_not_filled {s : Slots}
    (h : ∀ b : Positional, Owes p b.pattern → b.isFilled s = false) : Settled p s := by
  rintro c hc ⟨b, hb, hf⟩
  rw [h b (hc.owes hb)] at hf
  cases hf

end Pattern

open Pattern (Assured Settled)

section Line

variable (hp : ∀ c ∈ line, Regular scope L c) (hd : Distinct scope line) (hL : Apart L)
include hp hd hL

theorem LineRun.assured
    (hR : ∀ c ∈ line, ∀ s log t, Run scope n false c s log true t → Typed L s.slots →
      Settled c s.slots → Assured c t.slots)
    (h : LineRun (Run scope n false) line s log true t) (hs : Typed L s.slots)
    (hsettled : ∀ c, Secured line c → Settled c s.slots) (hc : Secured line c) :
    Assured c t.slots := by
  have hkeep {c' s log b t} (hc' : c' ∈ line) (run : Run scope n false c' s log b t)
      (hs : Typed L s.slots ∧ ∀ c, Secured line c → Settled c s.slots) :
      Typed L t.slots ∧ ∀ c, Secured line c → Settled c t.slots := by
    refine ⟨(Typed.closed hL).run (hp c' hc').reach run hs.1, ?_⟩
    intro c hc
    by_cases he : c = c'
    · subst he
      cases b with
      | true => exact (hR c hc' _ _ _ run hs.1 (hs.2 c hc)).settled
      | false => exact run.undone.1.slots_eq ▸ hs.2 c hc
    · refine (hs.2 c hc).congr ?_
      intro i hi
      exact (run.untouched fun _ hreach => hd.not_reaches hc.1 hc' he hi hreach).get_eq
  have hT : Tracks (Run scope n false) line
      (fun s => Typed L s ∧ ∀ c, Secured line c → Settled c s)
      (fun c s => Secured line c → Assured c s) := by
    refine .ofRun hd (fun _ hc' _ _ _ _ => hkeep hc') ?_ ?_
    · intro c hc s log t run hs hsec
      exact hR c hc s log t run hs.1 (hs.2 c hsec)
    · intro c _ s t hst h hsec
      exact (h hsec).congr hst
  have hstart : ∀ c ∈ line, (Scanned.start c).matched = true → Secured line c →
      Assured c s.slots := fun c _ hm _ o ho => by
    cases ho with
    | refl => cases hm
    | child => cases hm
  cases h with
  | matched scan hall => exact (hT.scan hstart scan ⟨hs, hsettled⟩).2 hall c hc.1 hc
  | @lent _ u _ _ _ scan _ hl =>
    obtain ⟨-, hu⟩ := (hT.scan hstart scan ⟨hs, hsettled⟩).1
    obtain ⟨loan, before, children, rest, hsplit, hrepaid⟩ := hl.repaid hd
    obtain ⟨hbefore, b, hb⟩ := hc.2 _ _ _ _ _ hsplit
    have hfilled := Lending.isFilled_of_isSatisfied hb (hsplit.satisfied c hbefore)
    exact (hu c hc c .refl ⟨b, hb, hfilled⟩).congr fun i hi => hrepaid.before hsplit hd hbefore hi

end Line

/-- An option that was found keeps its mark, whatever its value does. -/
theorem OptionOf.Runs.isTruthy {value : Pattern → Step} (hd : Distinct scope [.option o])
    (hv : ∀ v s log b t, value v s log b t → ∃ n, Run scope n false v s log b t)
    (h : o.Runs value false s log true t) : (t.slots.get o.slot).isTruthy = true := by
  cases h with
  | filled hf => simpa using hf
  | found _ _ hc =>
    have hit : ((s.slots.modify o.slot (Slot.hit false)).get o.slot).isTruthy = true := by
      simp [Slot.hit, Slot.isTruthy]
    rcases hc.value_run with ⟨hs, -⟩ | ⟨v, s', log', t', hov, run, hs, ht, -⟩
    · rw [hs]
      exact hit
    · obtain ⟨n, run⟩ := hv _ _ _ _ _ run
      have hkept := (run.untouched fun _ => hd.value_not_reaches hov).get_eq
      rw [← ht, hkept, hs]
      exact hit

/-- A repetition starts from a state in which nothing has been met. -/
theorem Settled.cleared {leaves : List Recorded} {k : Nat} (hL : Apart L)
    (hp : p.Regular scope L) (hl : p.recorded? scope k = some leaves)
    (hc : ∀ b : Positional, Owes c b.pattern → Reaches scope p b.pattern) :
    Settled c (s.cleared leaves).slots := by
  apply Pattern.settled_of_not_filled
  intro b hb
  obtain ⟨r, hr, hmet⟩ := b.isFilled_eq_isMet
  have hmem : r ∈ leaves := (Pattern.mem_recorded_iff hl).mpr ⟨_, hc b hb, hr⟩
  rw [← hmet]
  exact Recorded.isMet_cleared
    (Recorded.get_clearAll hmem (Typed.leaf_unique hL (hp.recorded hl) hmem))

/-- A match of a settled pattern has met all options that it assures. -/
theorem Run.assured (hp : p.Regular scope L) (hL : Apart L)
    (h : Run scope n false p s log true t) (hs : Typed L s.slots)
    (hsettled : Settled p s.slots) : Assured p t.slots := by
  induction n generalizing p s log t with
  | zero => exact h.elim
  | succ n ih =>
    intro o ho
    have ho' := ho
    cases ho with
    | refl => exact OptionOf.Runs.isTruthy hp.distinct (fun _ _ _ _ _ run => ⟨n, run⟩) h
    | @child line repeats c _ hc ho =>
      have once {s log t} (h : OnceRun (Run scope n false) line .required s log true t)
          (hs : Typed L s.slots) (hsettled : ∀ c, Secured line c → Settled c s.slots) :
          (t.slots.get o.slot).isTruthy = true := by
        cases h with
        | required run =>
          exact run.assured (fun _ => hp.child) hp.distinct.children hL
            (fun c hc _ _ _ => ih (hp.child hc)) hs hsettled hc o ho
      simp only [Run] at h
      split at h
      next =>
        obtain ⟨leaves, matched, hl, h, hm⟩ := h
        obtain rfl : matched = true := by simpa using hm.symm
        refine RepeatRun.isMet (r := ⟨.hits, o.slot⟩) hL hp hl
          (Pattern.reaches_of_mem_atoms ho'.mem_atoms) rfl ?_ h
        intro log u run
        have hcleared := Typed.cleared hL hp hl hs
        refine ⟨Typed.onceRun hL hp run hcleared, once run hcleared ?_⟩
        exact fun c hc => Settled.cleared hL hp hl fun b hb =>
          .child hc.1 (Pattern.reaches_of_mem_atoms hb.mem_atoms)
      next => exact once h hs fun c hc c' hc' => hsettled c' (.child hc hc')

end Synopsis
