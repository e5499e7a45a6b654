import Mathlib
import Synopsis.Proofs.Matcher.Adequacy
import Synopsis.Proofs.Matcher.Conservation
import Synopsis.Proofs.Matcher.Depth
import Synopsis.Proofs.Matcher.Exclusion
import Synopsis.Proofs.Matcher.Required
import Synopsis.Proofs.Pattern.Bounds

/-! # How much a value takes

Every token that commands and arguments take is held by one of them, whatever repetitions
and loans do with it afterwards. A match has filled the leaves that it owes, so it took at
least as many tokens, and where nothing repeats no leaf holds two.
-/

namespace Synopsis

open Pattern (Reaches slots Distinct Verbal Owes)

variable {scope : Scope} {n i : Nat} {counting b : Bool} {p q c : Pattern} {ps : List Pattern}
  {s t : Attempt} {log : List Move}

/-! ## Runs of the parts -/

section Parts

variable {R R' : Pattern → Step} {line : List Pattern}
  (hR : ∀ p ∈ line, ∀ s log b t, R p s log b t → R' p s log b t)
include hR

theorem Pass.mono {place : Nat} {last last' : Option Nat} {xs ys : List Scanned}
    (h : Pass R place last xs s log last' ys t) (hx : ∀ x ∈ xs, x.pattern ∈ line) :
    Pass R' place last xs s log last' ys t ∧ ∀ y ∈ ys, y.pattern ∈ line := by
  induction h with
  | nil => exact ⟨.nil, hx⟩
  | empty he => exact ⟨.empty he, hx⟩
  | hit hn run _ ih =>
    rw [List.forall_mem_cons] at hx
    obtain ⟨hrest, hy⟩ := ih hx.2
    exact ⟨.hit hn (hR _ hx.1 _ _ _ _ run) hrest, List.forall_mem_cons.mpr ⟨hx.1, hy⟩⟩
  | miss hn run _ ih =>
    rw [List.forall_mem_cons] at hx
    obtain ⟨hrest, hy⟩ := ih hx.2
    exact ⟨.miss hn (hR _ hx.1 _ _ _ _ run) hrest, List.forall_mem_cons.mpr ⟨hx.1, hy⟩⟩

theorem Passes.mono {last : Option Nat} {xs ys : List Scanned} (h : Passes R last xs s log ys t)
    (hx : ∀ x ∈ xs, x.pattern ∈ line) : Passes R' last xs s log ys t := by
  induction h with
  | empty he => exact .empty he
  | still hn pass heq => exact .still hn (pass.mono hR hx).1 heq
  | again hn pass hne _ ih =>
    obtain ⟨hpass, hy⟩ := pass.mono hR hx
    exact .again hn hpass hne (ih hy)

theorem Scan.mono {xs : List Scanned} (h : Scan R line s log xs t) : Scan R' line s log xs t := by
  refine Passes.mono hR h fun x hx => ?_
  obtain ⟨c, hc, rfl⟩ := List.mem_map.mp hx
  exact hc

theorem OnceRun.mono {kind : GroupKind} (h : OnceRun R line kind s log b t) :
    OnceRun R' line kind s log b t := by
  cases h with
  | required run =>
    cases run with
    | matched scan ha => exact .required (.matched (Scan.mono hR scan) ha)
    | lent scan ha hl => exact .required (.lent (Scan.mono hR scan) ha hl)
    | failed scan ha => exact .required (.failed (Scan.mono hR scan) ha)
  | optional scan => exact .optional (Scan.mono hR scan)

end Parts

section Repetitions

variable {once once' : Step} {leaves : List Recorded}
  (ho : ∀ s log b t, once s log b t → once' s log b t)
include ho

theorem RepeatPasses.mono {history history' : List Slots}
    (h : RepeatPasses once leaves history s log history' t) :
    RepeatPasses once' leaves history s log history' t := by
  induction h with
  | empty he => exact .empty he
  | failed hn run => exact .failed hn (ho _ _ _ _ run)
  | still hn run heq => exact .still hn (ho _ _ _ _ run) heq
  | again hn run hne _ ih => exact .again hn (ho _ _ _ _ run) hne ih

theorem RepeatRun.mono (h : RepeatRun once leaves s log b t) :
    RepeatRun once' leaves s log b t := by
  cases h with
  | none passes => exact .none (passes.mono ho)
  | some passes hh => exact .some (passes.mono ho) hh

end Repetitions

/-! ## Commands and arguments -/

namespace Pattern.Verbal

theorem children {kind : GroupKind} {repeats : Bool} (h : Verbal (.group kind ps repeats)) :
    ∀ c ∈ ps, Verbal c := by
  cases h with
  | group h => exact h

/-- All that is reached lies inside. -/
theorem of_reaches (h : Verbal p) (hq : Reaches scope p q) :
    Verbal q ∧ q.atoms.Sublist p.atoms := by
  induction hq with
  | refl => exact ⟨h, .refl _⟩
  | child hc _ ih =>
    obtain ⟨hv, hsub⟩ := ih (h.children _ hc)
    exact ⟨hv, hsub.trans (atoms_sublist_atomsAll hc)⟩
  | value | branch | entry => cases h

theorem mem_atoms (h : Verbal p) (hq : Reaches scope p q) (hi : q.slot? = some i) : q ∈ p.atoms :=
  (h.of_reaches hq).2.subset (mem_atoms_self hi)

theorem recorded?_eq (h : Verbal p) (scope scope' : Scope) (n : Nat) :
    p.recorded? scope n = p.recorded? scope' n := by
  induction n generalizing p with
  | zero => rfl
  | succ n ih =>
    cases h with
    | command | argument => rfl
    | @group kind ps repeats h =>
      have hps : ps.mapM (recorded? scope n) = ps.mapM (recorded? scope' n) := by
        clear * - h ih
        induction ps with
        | nil => rfl
        | cons c ps ihs =>
          obtain ⟨hc, hps⟩ := List.forall_mem_cons.mp h
          rw [List.mapM_cons, List.mapM_cons, ih hc, ihs hps]
      exact congrArg (Option.map List.flatten) hps

/-- What is declared does not matter. -/
theorem recorded?_depth (h : Verbal p) (scope : Scope) :
    p.recorded? scope (scope.depth p) = p.recorded? .bare (Scope.bare.depth p) := by
  have hsome : (p.recorded? .bare (Scope.bare.depth p)).isSome := by
    refine recorded?_isSome_of_nodes_le (fun q hq => ?_) (by rw [Scope.depth]; omega)
    cases (h.of_reaches hq).1 <;> rfl
  obtain ⟨rs, hrs⟩ := Option.isSome_iff_exists.mp hsome
  rw [h.recorded?_eq scope .bare, hrs]
  refine recorded?_mono hrs ?_
  simp only [Scope.depth]
  change 0 + _ + 1 ≤ _
  omega

theorem run_bare (h : Verbal p) (run : Run scope n counting p s log b t) :
    Run .bare n counting p s log b t := by
  induction n generalizing counting p s log b t with
  | zero => exact run
  | succ n ih =>
    cases h with
    | command | argument => exact run
    | @group kind ps repeats h =>
      have once (s : Attempt) (log : List Move) (b : Bool) (t : Attempt)
          (run : OnceRun (Run scope n false) ps kind s log b t) :
          OnceRun (Run .bare n false) ps kind s log b t :=
        run.mono fun c hc _ _ _ _ => ih (h c hc)
      simp only [Run] at run ⊢
      split at run
      next hr =>
        rw [if_pos hr]
        obtain ⟨leaves, matched, hl, run, hb⟩ := run
        rw [Verbal.recorded?_depth (.group h)] at hl
        exact ⟨leaves, matched, hl, run.mono once, hb⟩
      next hr =>
        rw [if_neg hr]
        exact once _ _ _ _ run

end Pattern.Verbal

/-! ## What is held -/

/-- How many tokens the leaves hold: the texts of arguments, and the hits of commands. -/
def Tally.held : Tally Nat where
  yield q x := Multiset.card (q.yield x)
  unset q := by cases q <;> rfl
  cleared hr x := by rw [Pattern.yield_cleared hr, Multiset.card_zero]
  merged {q _} hr history := by
    rw [Pattern.yield_merged hr]
    induction history with
    | nil => rfl
    | cons x history ih =>
      rw [List.map_cons, List.sum_cons, Multiset.card_add, ih, List.map_cons, List.sum_cons]

/-- Between two streams, as many tokens leave as are held in addition. -/
structure Exchanges (a a' : Argv) (x y : Nat) : Prop where
  style_eq : a'.style = a.style
  sublist : a'.tokens.Sublist a.tokens
  length_eq : a'.tokens.length + y = a.tokens.length + x

theorem Exchanges.ledger : Ledger Exchanges where
  trans h h' := by
    refine ⟨h'.style_eq.trans h.style_eq, h'.sublist.trans h.sublist, ?_⟩
    have := h.length_eq
    have := h'.length_eq
    omega
  add_right more h := by
    refine ⟨h.style_eq, h.sublist, ?_⟩
    have := h.length_eq
    omega
  still ht hs _ := ⟨hs, by rw [ht], by rw [ht]⟩

/-- A command or an argument with a slot of its own among some leaves, or a line of them. -/
structure Held (all : List Pattern) (q : Pattern) : Prop where
  verbal : Verbal q
  mem : ∀ i, q.slot? = some i → q ∈ all
  nodup : (slots [q]).Nodup

variable {all : List Pattern} {texts : List String}

section Totals

variable (hall : (all.filterMap Pattern.slot?).Nodup)
include hall

/-- A leaf that takes a text holds one more. -/
theorem Positional.total_record {r : Positional} {text : String} {S : Slots}
    (hr : r.pattern ∈ all) (hw : (!counting && r.isFilled S) = false) :
    Tally.held.total all (S.modify r.slot (r.record counting text)) =
      Tally.held.total all S + 1 := by
  have h := Tally.held.total_add_content (s := S)
    (t := S.modify r.slot (r.record counting text)) hall hr r.slot?_pattern
    fun j hj => Slots.get_modify_of_ne hj
  have hyield : Tally.held.yield r.pattern (r.record counting text (S.get r.slot)) =
      Tally.held.yield r.pattern (S.get r.slot) + 1 := by
    cases r with
    | command leaf =>
      change Multiset.card (Multiset.replicate _ _) = Multiset.card (Multiset.replicate _ _) + 1
      rw [Multiset.card_replicate, Multiset.card_replicate]
      exact Slot.count?_hit hw
    | argument leaf =>
      change (Slot.pushText text counting (S.get leaf.slot)).texts.length =
        (S.get leaf.slot).texts.length + 1
      cases counting with
      | true => simp [Slot.pushText, Slot.texts]
      | false =>
        have hempty : (S.get leaf.slot).texts = [] := by
          simp only [Bool.not_false, Bool.true_and, Positional.isFilled] at hw
          cases hs : S.get leaf.slot <;> simp_all [Slot.hasText, Slot.texts]
        rw [hempty]
        rfl
  rw [Tally.held.content_of_slot? r.slot?_pattern, Tally.held.content_of_slot? r.slot?_pattern,
    Slots.get_modify_self, hyield] at h
  omega

theorem Lending.Pops.total {lenders : List Nat} {S S' : Slots}
    (hl : ∀ i ∈ lenders, ∃ leaf : Leaf, .argument leaf ∈ all ∧ leaf.slot = i)
    (h : Pops lenders S texts S') :
    Tally.held.total all S' + texts.length = Tally.held.total all S := by
  induction h with
  | nil => rfl
  | @cons S S' S'' i text texts hi hp _ ih =>
    obtain ⟨leaf, hleaf, rfl⟩ := hl _ hi
    obtain ⟨left, hpop, rfl⟩ := popText?_eq_some hp
    have hslot : (Pattern.argument leaf).slot? = some leaf.slot := rfl
    have h := Tally.held.total_add_content hall hleaf hslot fun j hj =>
      Slots.get_set_of_ne (s := S) (v := left) hj
    have htexts : (S.get leaf.slot).texts.length = left.texts.length + 1 := by
      rw [Slot.texts_of_popText? hpop, List.length_append, List.length_singleton]
    rw [Tally.held.content_of_slot? hslot, Tally.held.content_of_slot? hslot,
      Slots.get_set_self] at h
    change _ + (S.get leaf.slot).texts.length = _ + left.texts.length at h
    rw [List.length_cons]
    omega

theorem Lending.Borrows.total {rs : List Positional} (hrs : ∀ r ∈ rs, r.pattern ∈ all)
    (hd : (rs.map Positional.slot).Nodup) (h : Borrows rs s t)
    (hw : ∀ r ∈ rs, r.isFilled s.slots = false) :
    Tally.held.total all t.slots = Tally.held.total all s.slots + rs.length := by
  induction h with
  | nil => rfl
  | @cons s t u log r rs run _ ih =>
    rw [List.forall_mem_cons] at hrs hw
    rw [List.map_cons, List.nodup_cons] at hd
    have hothers : ∀ q ∈ rs, q.isFilled t.slots = false := fun q hq => by
      have hne : r.slot ≠ q.slot := fun he => hd.1 (by rw [he]; exact List.mem_map_of_mem hq)
      rw [Positional.isFilled_congr (run.get_of_ne hne)]
      exact hw.2 q hq
    rw [ih hrs.2 hd.2 hothers, List.length_cons]
    cases run with
    | filled hf => simp [hw.1] at hf
    | @taken _ place token hw' =>
      have htaken : Tally.held.total all (s.slots.modify r.slot (r.record _ token.text)) =
          Tally.held.total all s.slots + 1 := r.total_record hall hrs.1 hw'
      rw [htaken]
      omega

theorem Lending.Lends.total {line : List Pattern} (hd : (slots line).Nodup)
    (hl : ∀ r : Positional, r.pattern ∈ line.flatMap Pattern.atoms → r.pattern ∈ all)
    (h : Lends line s t) : Tally.held.total all t.slots = Tally.held.total all s.slots := by
  obtain ⟨hloan, ht, hb⟩ := h
  obtain ⟨before, children, rest, hsplit⟩ := splits_of_loan? hloan
  rw [hsplit.slots_line, List.nodup_append', List.nodup_append'] at hd
  obtain ⟨⟨-, hlenders, -⟩, hrest, hdisjoint⟩ := hd
  obtain ⟨new, hpops, hperm⟩ := Loan.texts?_pops ht
  have hpopped := hpops.total hall fun i hi => by
    obtain ⟨leaf, hleaf, rfl⟩ := hsplit.lender_atom hi
    exact ⟨leaf, hl (.argument leaf) hleaf, rfl⟩
  have hborrowed := hb.total hall (fun p hp => hl _ (hsplit.borrower_atom hp))
    (hrest.sublist hsplit.borrowers_sublist) fun p hp => by
      have hne : p.slot ∉ _ := fun hi => hdisjoint (List.mem_append_right _ hi)
        (hsplit.borrower_mem hp)
      rw [Positional.isFilled_congr (hpops.get_of_notMem hne)]
      exact ((borrowersAll?_spec hsplit.borrowers_eq).2 p hp).2
  have hlength := Loan.length_texts? hlenders hsplit.borrowers_ne ht
  rw [← hperm.length_eq] at hlength
  rw [hborrowed, ← hlength]
  exact hpopped

end Totals

abbrev Keeps (all : List Pattern) (s : Attempt) (_ : List Move) (t : Attempt) : Prop :=
  Exchanges s.argv t.argv (Tally.held.total all s.slots) (Tally.held.total all t.slots)

theorem Keeps.closed (hall : (all.filterMap Pattern.slot?).Nodup) :
    Closed scope (Held all) (Keeps all) where
  refl _ := ⟨rfl, .refl _, rfl⟩
  trans := Exchanges.ledger.trans
  marks _ _ _ := ⟨rfl, .refl _, rfl⟩
  take {r _ place token s} hp hw _ _ ht _ := by
    have htokens : (s.argv.positional.1.remove place).tokens = s.argv.tokens.eraseIdx place := by
      rw [Argv.remove, Argv.positional_tokens]
    have hplace : place < s.argv.tokens.length := (List.getElem?_eq_some_iff.mp ht).1
    refine ⟨?_, ?_, ?_⟩
    · rw [Argv.positional_eq]
      rfl
    · rw [htokens]
      exact List.eraseIdx_sublist _ _
    · rw [htokens, r.total_record hall (hp.mem _ r.slot?_pattern) hw,
        List.length_eraseIdx_of_lt hplace]
      omega
  option ho := by cases ho.verbal
  lend {line _ s t} hl h := by
    have hnodup := (hl _ .refl).nodup
    rw [Pattern.slots_group] at hnodup
    refine ⟨by rw [h.argv_eq], by rw [h.argv_eq], ?_⟩
    rw [h.argv_eq, h.total hall hnodup fun r hr => ?_]
    obtain ⟨c, hc, hr⟩ := List.mem_flatMap.mp hr
    exact (hl _ (.child hc (Pattern.reaches_of_mem_atoms hr))).mem _ r.slot?_pattern
  repeats hl ho hu hp _ := by
    refine Tally.held.balance_of_repeatPasses Exchanges.ledger ⟨hall, ?_⟩
      (fun s log t => ho s log true t)
      (fun s log t run => ⟨hu s log t run, (ho s log false t run).style_eq⟩) hp
    intro r hr
    obtain ⟨q, hq, hqr⟩ := hl r hr
    exact ⟨q, hq.mem r.slot (by simp [Pattern.slot?, hqr]), hqr⟩

/-! ## Bounds -/

namespace Pattern

/-- What a leaf holds that has what it needs. -/
theorem held_pos {r : Positional} {S : Slots} (h : r.isFilled S = true)
    (hf : ∀ k ∈ r.pattern.ownRecord?, k.kind.fits (S.get k.slot) = true) :
    1 ≤ Tally.held.content S r.pattern := by
  rw [Tally.held.content_of_slot? r.slot?_pattern]
  cases r with
  | command leaf =>
    have hfits := hf _ rfl
    change 1 ≤ Multiset.card (Multiset.replicate ((S.get leaf.slot).count?.getD 0) _)
    rw [Multiset.card_replicate]
    cases hx : S.get leaf.slot <;>
      simp_all [RecordKind.fits, Positional.isFilled, Slot.isTruthy, Slot.count?]
    omega
  | argument leaf =>
    change 1 ≤ (S.get leaf.slot).texts.length
    cases hx : S.get leaf.slot <;> simp_all [Positional.isFilled, Slot.hasText, Slot.texts]
    exact List.length_pos_iff.mpr h

theorem held_le_one {S : Slots} (h : ∀ i, q.slot? = some i → (S.get i).isSingle = true) :
    Tally.held.content S q ≤ 1 := by
  cases q with
  | option | group | either | shortcut => exact Nat.zero_le _
  | command leaf =>
    have hsingle := h _ rfl
    change Multiset.card (Multiset.replicate ((S.get leaf.slot).count?.getD 0) _) ≤ 1
    rw [Multiset.card_replicate]
    cases hx : S.get leaf.slot <;> simp_all [Slot.isSingle, Slot.count?, Bool.toNat_le]
  | argument leaf =>
    have hsingle := h _ rfl
    change (S.get leaf.slot).texts.length ≤ 1
    cases hx : S.get leaf.slot <;> simp_all [Slot.isSingle, Slot.texts]

theorem total_atomsAll (S : Slots) (ps : List Pattern) :
    Tally.held.total (ps.flatMap atoms) S = (ps.map fun p => Tally.held.total p.atoms S).sum := by
  induction ps with
  | nil => rfl
  | cons p ps ih =>
    rw [List.map_cons, List.sum_cons, ← ih]
    simp [Tally.total]

theorem Verbal.owed_le (hv : Verbal p) {S : Slots}
    (h : ∀ r : Positional, Owes p r.pattern → 1 ≤ Tally.held.content S r.pattern) :
    p.owed ≤ Tally.held.total p.atoms S := by
  induction hv with
  | @command leaf => exact h (.command leaf) (.leaf rfl)
  | @argument leaf => exact h (.argument leaf) (.leaf rfl)
  | @group kind ps repeats _ ih =>
    cases kind with
    | optional => exact Nat.zero_le _
    | required =>
      rw [owed, owedAll_eq_sum, atoms, atomsAll_eq_flatMap, total_atomsAll]
      exact List.sum_le_sum fun c hc => ih c hc fun r hr => h r (.child hc hr)

theorem total_le_length {S : Slots} (h : ∀ q ∈ p.atoms, Tally.held.content S q ≤ 1) :
    Tally.held.total p.atoms S ≤ p.atoms.length := by
  have hsum := List.sum_le_card_nsmul (p.atoms.map (Tally.held.content S)) 1
    (List.forall_mem_map.mpr h)
  simpa [Tally.total] using hsum

end Pattern

theorem Positional.Runs.isFilled_of_matched {r : Positional} (h : r.Runs counting s log true t) :
    r.isFilled t.slots = true := by
  cases h with
  | filled hf => exact (Bool.and_eq_true_iff.mp hf).2
  | taken =>
    cases r <;> cases counting <;>
      simp [Positional.isFilled, Positional.slot, Positional.record, Slot.hit, Slot.pushText,
        Slot.isTruthy, Slot.hasText]

namespace Pattern.Verbal

theorem nodup_atoms (hd : (slots [p]).Nodup) : (p.atoms.filterMap slot?).Nodup := by
  simpa only [slots, List.flatMap_singleton] using hd

theorem held_of_reaches (h : Verbal p) (hd : (slots [p]).Nodup) (hq : Reaches scope p q) :
    Held p.atoms q where
  verbal := (h.of_reaches hq).1
  mem _ hi := h.mem_atoms hq hi
  nodup := by
    rw [slots, List.flatMap_singleton]
    exact (nodup_atoms hd).sublist ((h.of_reaches hq).2.filterMap slot?)

theorem regular (h : Verbal p) (hd : (slots [p]).Nodup) : p.Regular .bare (Reaches .bare p) where
  plain := h.plain
  distinct := hd
  reach _ := id

theorem apart (h : Verbal p) (hd : (slots [p]).Nodup) : Apart (Reaches .bare p) :=
  fun _ _ hq hq' _ hi hi' =>
    eq_of_slot?_eq (nodup_atoms hd) (h.mem_atoms hq hi) (h.mem_atoms hq' hi') hi hi'

theorem typed (h : Verbal p) {S : Slots} (hS : ∀ i ∈ slots [p], S.get i = .unset) :
    Typed (Reaches .bare p) S := fun q hq r hr => by
  have hi : q.slot? = some r.slot := by simp [slot?, Option.mem_def.mp hr]
  rw [hS _ (mem_slots.mpr ⟨p, List.mem_singleton_self _, q, h.mem_atoms hq hi, hi⟩)]
  exact r.kind.fits_unset

/-- Whatever must be there is filled. A match that counts takes a group as if it repeated. -/
theorem isFilled (h : Verbal p) (hd : (slots [p]).Nodup)
    (hs : ∀ i ∈ slots [p], s.slots.get i = .unset)
    (run : Run .bare n counting p s log true t) {r : Positional} (hr : Owes p r.pattern) :
    r.isFilled t.slots = true := by
  cases counting with
  | false => exact run.isFilled (h.regular hd) (h.apart hd) (h.typed hs) hr
  | true =>
    cases n with
    | zero => exact run.elim
    | succ n =>
      cases h with
      | command | argument =>
        generalize hq : r.pattern = q at hr
        cases hr
        cases r <;> cases hq
        exact Positional.Runs.isFilled_of_matched run
      | @group kind ps repeats h =>
        have hg : Verbal (.group kind ps true) := .group h
        have hslots : slots [.group kind ps true] = slots [.group kind ps repeats] := by
          rw [slots_group, slots_group]
        have hrun : Run .bare (n + 1) false (.group kind ps true) s log true t := run
        rw [← hslots] at hd hs
        refine hrun.isFilled (hg.regular hd) (hg.apart hd) (hg.typed hs) ?_
        generalize r.pattern = q at hr ⊢
        cases hr with
        | leaf hleaf => cases hleaf
        | child hc hr => exact .child hc hr

end Pattern.Verbal

/-- A match of commands and arguments takes no more and no fewer tokens than their arity
allows. Where hits are counted, a group takes more, as if it repeated. -/
theorem matchPattern_within_arity (hp : p.Verbal) (hd : (slots [p]).Nodup)
    (hs : ∀ i ∈ slots [p], s.slots.get i = .unset)
    (h : matchPattern scope n counting p s = .ok true t) :
    t.argv.tokens.Sublist s.argv.tokens ∧
    ∃ taken, t.argv.tokens.length + taken = s.argv.tokens.length ∧
      (∃ least, p.arity.least = .exactly least ∧ least ≤ taken) ∧
      (counting = false → ∀ greatest, p.arity.greatest = .exactly greatest → taken ≤ greatest) := by
  obtain ⟨log, run⟩ := run_of_matchPattern h
  replace run := hp.run_bare run
  have hslot {q : Pattern} {i : Nat} (hq : q ∈ p.atoms) (hi : q.slot? = some i) :
      s.slots.get i = .unset :=
    hs i (Pattern.mem_slots.mpr ⟨p, List.mem_singleton_self _, q, hq, hi⟩)
  obtain ⟨-, hsub, hlength⟩ := (Keeps.closed (Verbal.nodup_atoms hd)).run
    (fun q hq => hp.held_of_reaches hd hq) run
  have hstart : Tally.held.total p.atoms s.slots = 0 := by
    rw [← show Tally.held.total p.atoms (.blank 0) = 0 from Tally.held.total_blank 0]
    refine Tally.held.total_congr fun q hq i hi => ?_
    rw [hslot hq hi, Slots.get_blank]
  rw [hstart, Nat.add_zero] at hlength
  refine ⟨hsub, _, hlength, ?_, ?_⟩
  · have htyped := (Typed.closed (hp.apart hd)).run (fun _ => id) run (hp.typed hs)
    obtain ⟨least, hle, hleast⟩ := Arity.exists_least hp.exactly_owed_mem
    refine ⟨least, hleast, hle.trans (hp.owed_le fun r hr => ?_)⟩
    exact Pattern.held_pos (hp.isFilled hd hs run hr)
      (htyped _ (Pattern.reaches_of_mem_atoms hr.mem_atoms))
  · rintro rfl greatest hgreatest
    refine (Pattern.total_le_length fun q hq => ?_).trans
      (Arity.le_of_greatest hp.exactly_atoms_mem hgreatest)
    have honce := hp.once_of_mem_atoms (Arity.unbounded_notMem hgreatest) hq
    refine Pattern.held_le_one fun i hi => ?_
    have hword : q.positional?.isSome := by
      have hreach : Pattern.Reaches .bare p q := Pattern.reaches_of_mem_atoms hq
      cases (hp.of_reaches hreach).1 with
      | command | argument => rfl
      | group => cases hi
    have hdistinct : Distinct .bare [p] := hd
    refine StaysSingle.of_run hdistinct honce hword hi run ?_
    rw [hslot hq hi]
    rfl

/-- The value `((<a>)... <b> [go])`. -/
def lendingValue : Pattern := .required
  [.group .required [.argument { names := .singleton "<a>" }] true,
    .argument { names := .singleton "<b>", slot := 1 },
    .optional [.command { names := .singleton "go", slot := 2 }]]

/-- The values `x` and `y`. -/
def twoValues : Attempt := ⟨.blank 3, .ofValues ["x", "y"] ⟨true, true, true⟩⟩

theorem Pattern.verbal_lendingValue : lendingValue.Verbal := by
  refine .group ?_
  simp only [List.forall_mem_cons, List.not_mem_nil, IsEmpty.forall_iff, implies_true, and_true]
  exact ⟨.group (List.forall_mem_singleton.mpr .argument), .argument,
    .group (List.forall_mem_singleton.mpr .command)⟩

/-- Both values are taken, and the group lends the last one. -/
theorem lendingValue_takes_two :
    ∃ t, matchPattern .bare 9 false lendingValue twoValues = .ok true t ∧
      ∃ taken, t.argv.tokens.length + taken = 2 ∧
        ∃ least, lendingValue.arity.least = .exactly least ∧ least ≤ taken := by
  have ht : matchPattern .bare 9 false lendingValue twoValues = .ok true
      ⟨⟨[.list ["x"], .text "y", .unset]⟩, .ofValues [] ⟨true, true, true⟩⟩ := by cbv
  obtain ⟨-, taken, htaken, hleast, -⟩ :=
    matchPattern_within_arity Pattern.verbal_lendingValue (by decide) (by decide) ht
  exact ⟨_, ht, taken, htaken, hleast⟩

end Synopsis
