import Mathlib.Algebra.BigOperators.Group.Multiset.Basic
import Mathlib.Algebra.Order.Group.Multiset
import Synopsis.Proofs.Argv.Spelling
import Synopsis.Proofs.Argv.Spent
import Synopsis.Proofs.Matcher.Tally

/-! # No argument is lost

Whatever a run does, what the leaves hold grows by the texts that have left the
stream, and by a `--` for each stack that left as one. Repetitions and loans move
texts about and lose none.
-/

namespace Synopsis

/-! ## What the leaves hold -/

namespace Pattern

/-- The texts in the slot of an argument, and the name of a command once for each time
it was met. -/
def yield : Pattern → Slot → Multiset String
  | .argument _, x => x.texts
  | .command leaf, x => .replicate (x.count?.getD 0) (leaf.names.toList.head?.getD "")
  | _, _ => 0

def content (s : Slots) (q : Pattern) : Multiset String :=
  q.slot?.elim 0 fun i => q.yield (s.get i)

variable {q : Pattern} {r : Recorded} {s t : Slots} {i : Nat}

theorem content_of_slot? (h : q.slot? = some i) : content s q = q.yield (s.get i) := by
  simp [content, h]

theorem yield_cleared (hr : q.ownRecord? = some r) (x : Slot) : q.yield (r.cleared x) = 0 := by
  cases q with
  | option => rfl
  | command | argument =>
    obtain rfl := Option.some.inj hr
    cases x <;> rfl
  | group | either | shortcut => cases hr

theorem yield_merged (hr : q.ownRecord? = some r) (history : List Slot) :
    q.yield (r.merged history) = (history.map q.yield).sum := by
  cases q with
  | option =>
    suffices h : (history.map fun _ => (0 : Multiset String)).sum = 0 from h.symm
    simp
  | command leaf =>
    obtain rfl := Option.some.inj hr
    induction history with
    | nil => rfl
    | cons x history ih =>
      rw [List.map_cons, List.sum_cons, ← ih]
      exact Multiset.replicate_add _ _ _
  | argument leaf =>
    obtain rfl := Option.some.inj hr
    induction history with
    | nil => rfl
    | cons x history ih =>
      rw [List.map_cons, List.sum_cons, ← ih]
      exact (Multiset.coe_add _ _).symm
  | group | either | shortcut => cases hr

end Pattern

open Argv (Fate Spent)
open Pattern (slots content yield)

/-- All that some leaves hold. -/
def holdings (leaves : List Pattern) (s : Slots) : Multiset String :=
  (leaves.map (content s)).sum

/-- The texts of leaves, as a tally. -/
def Tally.texts : Tally (Multiset String) where
  yield := Pattern.yield
  unset q := by cases q <;> rfl
  cleared := Pattern.yield_cleared
  merged := Pattern.yield_merged

section Holdings

variable {all : List Pattern} {q : Pattern} {s t : Slots} {i : Nat}

theorem holdings_blank (size : Nat) : holdings all (.blank size) = 0 :=
  Tally.texts.total_blank size

/-- A single slot changes. -/
theorem holdings_add_content (hall : (all.filterMap Pattern.slot?).Nodup) (hq : q ∈ all)
    (hi : q.slot? = some i) (h : ∀ j ≠ i, t.get j = s.get j) :
    holdings all t + content s q = holdings all s + content t q :=
  Tally.texts.total_add_content hall hq hi h

end Holdings

/-! ## What is spent is held -/

/-- A pattern whose leaves are its own and among some leaves, with one name for each
command. -/
structure Sole (all : List Pattern) (q : Pattern) : Prop where
  mem : ∀ i, q.slot? = some i → q ∈ all
  nodup : (slots [q]).Nodup
  named : ∀ leaf, q = .command leaf → ∃ name, leaf.names = .singleton name

/-- Between two streams, what is held grows by what was spent. -/
structure Balanced (all : List Pattern) (a b : Argv) (held held' : Multiset String) : Prop where
  style_eq : b.style = a.style
  spent : Tokenized a.tokens → ∃ used strays, Spent all a.style a.tokens b.tokens used strays ∧
    held' = held + used + Multiset.replicate strays "--"

namespace Balanced

variable {all : List Pattern} {a b c : Argv} {held held' held'' more : Multiset String}

theorem refl : Balanced all a a held held := ⟨rfl, fun _ => ⟨0, 0, .refl _, by simp⟩⟩

theorem trans (h : Balanced all a b held held') (h' : Balanced all b c held' held'') :
    Balanced all a c held held'' where
  style_eq := h'.style_eq.trans h.style_eq
  spent ht := by
    obtain ⟨used, strays, hspent, rfl⟩ := h.spent ht
    obtain ⟨used', strays', hspent', rfl⟩ := h'.spent (hspent.tokenized ht)
    refine ⟨_, _, hspent.trans (h.style_eq ▸ hspent'), ?_⟩
    rw [Multiset.replicate_add]
    abel

theorem add_right (h : Balanced all a b held held') :
    Balanced all a b (held + more) (held' + more) where
  style_eq := h.style_eq
  spent ht := by
    obtain ⟨used, strays, hspent, rfl⟩ := h.spent ht
    refine ⟨used, strays, hspent, ?_⟩
    abel

theorem ledger : Ledger (Balanced all) where
  trans := trans
  add_right _ h := h.add_right
  still ht hs _ := ⟨hs, fun _ => ⟨0, 0, by rw [ht]; exact .refl _, by simp⟩⟩

end Balanced

abbrev Conserves (all : List Pattern) (s : Attempt) (_ : List Move) (t : Attempt) : Prop :=
  Balanced all s.argv t.argv (holdings all s.slots) (holdings all t.slots)

variable {all : List Pattern} {s t u : Attempt} {log log' : List Move} {p : Positional}
  {place i : Nat} {token : Token} {counting : Bool} {texts : List String}

/-! ## Positionals -/

theorem OrderedSet.eq_of_contains_singleton {a b : String}
    (h : (OrderedSet.singleton a).contains b = true) : b = a := by
  have hany : [a].any (compare b · == .eq) = true := h
  simpa using hany

/-- A hit counts once more. Without counting, the slot was empty before. -/
theorem Slot.count?_hit {x : Slot} (hw : (!counting && x.isTruthy) = false) :
    (Slot.hit counting x).count?.getD 0 = x.count?.getD 0 + 1 := by
  cases counting with
  | true => rfl
  | false => cases x <;> simp_all [Slot.hit, Slot.count?, Slot.isTruthy]

namespace Sole

/-- A command or an argument that takes a text holds it in addition to what it held. -/
theorem yield_record (hp : Sole all p.pattern) (ha : p.accepts place token = true)
    {s : Slots} (hw : (!counting && p.isFilled s) = false) :
    yield p.pattern (p.record counting token.text (s.get p.slot)) =
      yield p.pattern (s.get p.slot) + {token.text} := by
  cases p with
  | command leaf =>
    obtain ⟨name, hname⟩ := hp.named leaf rfl
    simp only [Positional.accepts, hname, Bool.and_eq_true] at ha
    have htext := OrderedSet.eq_of_contains_singleton ha.1
    have hhead : leaf.names.toList.head?.getD "" = token.text := by
      rw [hname, htext]
      rfl
    change Multiset.replicate ((Slot.hit counting (s.get leaf.slot)).count?.getD 0) _ =
      Multiset.replicate ((s.get leaf.slot).count?.getD 0) _ + _
    rw [Slot.count?_hit hw, hhead, Multiset.replicate_add, Multiset.replicate_one]
  | argument leaf =>
    cases counting with
    | true => exact (Multiset.coe_add _ _).symm
    | false =>
      have hempty : (s.get leaf.slot).texts = [] := by
        simp only [Bool.not_false, Bool.true_and, Positional.isFilled] at hw
        cases hs : s.get leaf.slot <;> simp_all [Slot.hasText, Slot.texts]
      change ([token.text] : Multiset String) = ((s.get leaf.slot).texts : Multiset String) + _
      rw [hempty]
      rfl

theorem holdings_record (hall : (all.filterMap Pattern.slot?).Nodup) (hp : Sole all p.pattern)
    (ha : p.accepts place token = true) {s : Slots}
    (hw : (!counting && p.isFilled s) = false) :
    holdings all (s.modify p.slot (p.record counting token.text)) =
      holdings all s + {token.text} := by
  have h := holdings_add_content (s := s)
    (t := s.modify p.slot (p.record counting token.text)) hall (hp.mem _ p.slot?_pattern)
    p.slot?_pattern fun j hj => Slots.get_modify_of_ne hj
  rw [Pattern.content_of_slot? p.slot?_pattern, Pattern.content_of_slot? p.slot?_pattern,
    Slots.get_modify_self, hp.yield_record ha hw, ← add_assoc, add_right_comm] at h
  exact add_right_cancel h

end Sole

namespace Conserves

theorem taken (hall : (all.filterMap Pattern.slot?).Nodup) (hp : Sole all p.pattern)
    (hw : (!counting && p.isFilled s.slots) = false) (hpl : s.argv.positional.2 = some place)
    (ht : s.argv.tokens[place]? = some token) (ha : p.accepts place token = true) :
    Conserves all s [.take p.slot place]
      ⟨s.slots.modify p.slot (p.record counting token.text), s.argv.positional.1.remove place⟩ where
  style_eq := by
    rw [Argv.positional_eq]
    rfl
  spent hs := by
    obtain ⟨used, strays, hfate, htext⟩ := Argv.fate_of_accepts hs hpl ht ha
    refine ⟨used, strays, ?_, ?_⟩
    · change Spent all _ s.argv.tokens (s.argv.positional.1.tokens.eraseIdx place) _ _
      rw [s.argv.positional_tokens]
      exact .eraseIdx ht hfate
    · rw [hp.holdings_record hall ha hw, ← htext, add_assoc]

end Conserves

/-! ## Loans -/

namespace Lending

theorem Pops.holdings {lenders : List Nat} {s t : Slots}
    (hall : (all.filterMap Pattern.slot?).Nodup)
    (hl : ∀ i ∈ lenders, ∃ leaf : Leaf, .argument leaf ∈ all ∧ leaf.slot = i)
    (h : Pops lenders s texts t) : holdings all t + texts = holdings all s := by
  induction h with
  | nil => simp
  | @cons s t u i text texts hi hp _ ih =>
    obtain ⟨leaf, hleaf, rfl⟩ := hl _ hi
    obtain ⟨left, hpop, rfl⟩ := popText?_eq_some hp
    have hslot : (Pattern.argument leaf).slot? = some leaf.slot := rfl
    have h := holdings_add_content hall hleaf hslot fun j hj =>
      Slots.get_set_of_ne (s := s) (v := left) hj
    have hcontent : content s (.argument leaf) = content (s.set leaf.slot left) (.argument leaf) +
        {text} := by
      rw [Pattern.content_of_slot? hslot, Pattern.content_of_slot? hslot, Slots.get_set_self]
      change ((s.get leaf.slot).texts : Multiset String) = _
      rw [Slot.texts_of_popText? hpop]
      exact (Multiset.coe_add _ _).symm
    rw [hcontent, ← add_assoc, add_right_comm] at h
    rw [← add_right_cancel h, ← ih, ← Multiset.cons_coe, ← Multiset.singleton_add]
    abel

/-- Borrowers that wait for a text take one each. -/
theorem Borrows.holdings {ps : List Positional} (hall : (all.filterMap Pattern.slot?).Nodup)
    (hps : ∀ p ∈ ps, Sole all p.pattern) (hd : (ps.map Positional.slot).Nodup)
    (h : Borrows ps s t) (hw : ∀ p ∈ ps, p.isFilled s.slots = false)
    (ht : s.argv.tokens = texts.map (⟨·, .value⟩)) (hlen : texts.length = ps.length) :
    holdings all t.slots = holdings all s.slots + texts := by
  induction h generalizing texts with
  | nil =>
    obtain rfl := List.length_eq_zero_iff.mp hlen
    simp
  | @cons s t u log p ps run _ ih =>
    rw [List.forall_mem_cons] at hps hw
    rw [List.map_cons, List.nodup_cons] at hd
    obtain ⟨text, texts, rfl⟩ := List.exists_cons_of_length_eq_add_one hlen
    have hothers : ∀ q ∈ ps, q.isFilled t.slots = false := fun q hq => by
      have hne : p.slot ≠ q.slot := fun he => hd.1 (by rw [he]; exact List.mem_map_of_mem hq)
      rw [Positional.isFilled_congr (run.get_of_ne hne)]
      exact hw.2 q hq
    cases run with
    | filled hf => simp [hw.1] at hf
    | @taken _ place token hw' _ hpl htok ha =>
      obtain rfl : place = 0 := by
        rcases Argv.positional_cases hpl with ⟨rfl, -⟩ | ⟨-, d, hd, hdash⟩
        · rfl
        · rw [ht] at hd
          obtain rfl := Option.some.inj hd
          cases hdash
      obtain rfl : ⟨text, .value⟩ = token := by simpa [ht] using htok
      have hleft : s.argv.positional.1.tokens.eraseIdx 0 = texts.map (⟨·, .value⟩) := by
        rw [s.argv.positional_tokens, ht]
        rfl
      rw [ih hps.2 hd.2 hothers hleft (by simpa using hlen)]
      change holdings all (s.slots.modify p.slot (p.record false text)) + _ = _
      rw [hps.1.holdings_record hall ha hw', ← Multiset.cons_coe, ← Multiset.singleton_add,
        add_assoc]

theorem Lends.holdings {line : List Pattern} (hall : (all.filterMap Pattern.slot?).Nodup)
    (hd : (slots line).Nodup) (hl : ∀ q ∈ line.flatMap Pattern.atoms, Sole all q)
    (h : Lends line s t) : holdings all t.slots = holdings all s.slots := by
  obtain ⟨hloan, ht, hb⟩ := h
  obtain ⟨before, children, rest, hsplit⟩ := splits_of_loan? hloan
  rw [hsplit.slots_line, List.nodup_append', List.nodup_append'] at hd
  obtain ⟨⟨-, hlenders, -⟩, hrest, hdisjoint⟩ := hd
  obtain ⟨new, hpops, hperm⟩ := Loan.texts?_pops ht
  have hpopped := hpops.holdings hall fun i hi => by
    obtain ⟨leaf, hleaf, rfl⟩ := hsplit.lender_atom hi
    exact ⟨leaf, (hl _ hleaf).mem _ rfl, rfl⟩
  have hborrowed := hb.holdings hall (fun p hp => hl _ (hsplit.borrower_atom hp))
    (hrest.sublist hsplit.borrowers_sublist) (fun p hp => ?_) rfl
    (Loan.length_texts? hlenders hsplit.borrowers_ne ht)
  · rw [hborrowed, ← hpopped, Multiset.coe_eq_coe.mpr hperm]
  · have hne : p.slot ∉ _ := fun hi => hdisjoint (List.mem_append_right _ hi)
      (hsplit.borrower_mem hp)
    rw [Positional.isFilled_congr (hpops.get_of_notMem hne)]
    exact ((borrowersAll?_spec hsplit.borrowers_eq).2 p hp).2

end Lending

/-! ## Options -/

theorem OptionOf.TakesSeparate.conserves {value : Step} {arity : Arity}
    (hv : ∀ s log t, value s log true t → Conserves all s log t)
    (h : TakesSeparate value arity place s log t) : Conserves all s log t := by
  cases h with
  | intro _ run =>
    refine ⟨rfl, ?_⟩
    intro hs
    have hsplit := valueSplit_append s.argv place
    have hgiven : Tokenized (valueSplit s.argv place).2 := by
      rw [← hsplit] at hs
      exact hs.sublist (List.sublist_append_right _ _)
    obtain ⟨used, strays, hspent, hh⟩ := (hv _ _ _ run).spent hgiven
    refine ⟨used, strays, ?_, hh⟩
    have hkept :
        Spent all s.argv.style (valueSplit s.argv place).1 (valueSplit s.argv place).1 0 0 :=
      .refl _
    have h := hkept.append hspent
    rw [zero_add, zero_add] at h
    exact hsplit ▸ h

namespace Conserves

variable {o : OptionAtom} {value : Pattern → Step} {found : Argv.Found} {a : Argv}

theorem holdings_hit (hall : (all.filterMap Pattern.slot?).Nodup) (ho : Sole all (.option o))
    (s : Slots) : holdings all (s.modify o.slot (Slot.hit counting)) = holdings all s := by
  have hslot : (Pattern.option o).slot? = some o.slot := rfl
  have h := holdings_add_content (s := s) (t := s.modify o.slot (Slot.hit counting)) hall
    (ho.mem _ hslot) hslot fun j hj => Slots.get_modify_of_ne hj
  simpa [Pattern.content_of_slot? hslot, yield] using h

theorem option (hall : (all.filterMap Pattern.slot?).Nodup) (ho : Sole all (.option o))
    (hf : s.argv.takeOption? o.names = some (found, a))
    (hv : ∀ v s log t, o.value = some v → value v s log true t → Conserves all s log t)
    (hc : o.Completes value found ⟨s.slots.modify o.slot (Slot.hit counting), a⟩ log t) :
    Conserves all s log t := by
  obtain ⟨token, ht, hk, hs, rfl⟩ := Argv.exists_of_takeOption? hf
  have hopt : .option o ∈ all := ho.mem o.slot rfl
  have hhit : holdings all (s.slots.modify o.slot (Slot.hit counting)) = holdings all s.slots :=
    holdings_hit hall ho s.slots
  -- The token goes as a whole, with the texts that it gives.
  have gone {used : Multiset String} {slots : Slots}
      (fate : Fate all s.argv.style token [] used 0)
      (hslots : holdings all slots = holdings all s.slots + used) :
      Balanced all s.argv (s.argv.remove found.index) (holdings all s.slots)
        (holdings all slots) :=
    ⟨rfl, fun _ => ⟨used, 0, .eraseIdx ht fate, by simpa using hslots⟩⟩
  -- The rest of its stack stays.
  have stays {rest : String} (hr : found.attached = some rest)
      (hshort : OptionOf.isShort (s.argv.remove found.index) found = true) :
      Balanced all s.argv
        ((s.argv.remove found.index).insert found.index (OptionOf.restOfStack rest))
        (holdings all s.slots) (holdings all (s.slots.modify o.slot (Slot.hit counting))) := by
    refine ⟨rfl, fun htok => ⟨0, 0, ?_, by simpa using hhit⟩⟩
    rw [hr] at hs
    have hspelled := Argv.spelled_of_spelledBy? (htok.flags token (List.mem_of_getElem? ht) hk) hs
    obtain ⟨c, cs, htext, hne, -, rfl⟩ := hspelled.stack_of_some (by simpa [OptionOf.isShort] using hspelled.isShort_eq.symm.trans hshort)
    rw [Argv.remove_insert_tokens _ ht, OptionOf.restOfStack_ofList]
    exact .replace ht (.shortened hopt hk hs htext hne .kept)
  cases hc with
  | plain _ hr => exact gone (.option hopt hk (hr ▸ hs)) (by simpa using hhit)
  | stacked _ hr hshort => exact stays hr (Bool.and_eq_true _ _ ▸ hshort).1
  | @attached t log p text hov hr _ run he =>
    have hvalue : Tokenized [(⟨text, .value⟩ : Token)] := ⟨by simp, by simp⟩
    obtain ⟨used, strays, hspent, hh⟩ := (hv _ _ _ _ hov run).spent hvalue
    rw [show t.argv.tokens = [] from List.isEmpty_iff.mp he] at hspent
    obtain ⟨rfl, rfl⟩ := hspent.of_value
    exact gone (.attached hopt (by simp [hov]) hk (hr ▸ hs)) (by rw [hh, hhit]; simp)
  | separate hov hr run =>
    have first := gone (.option hopt hk (hr ▸ hs)) (by simpa using hhit)
    exact first.trans (run.conserves fun s log t => hv _ s log t hov)
  | stackedSeparate hov hr hshort run =>
    simp only [Bool.and_eq_true] at hshort
    have first := stays hr hshort.1.1
    exact first.trans (run.conserves fun s log t => hv _ s log t hov)

end Conserves

/-! ## Runs -/

namespace Conserves

theorem closed {scope : Scope} (hall : (all.filterMap Pattern.slot?).Nodup) :
    Closed scope (Sole all) (Conserves all) where
  refl _ := .refl
  trans := .trans
  marks _ _ _ := ⟨rfl, fun _ => ⟨0, 0, .refl _, by simp⟩⟩
  take hp hw _ hpl ht ha := taken hall hp hw hpl ht ha
  option ho _ hf hv _ hc := option hall ho hf hv hc
  lend hl h := by
    have hnodup := (hl _ .refl).nodup
    rw [Pattern.slots_group] at hnodup
    have hheld := h.holdings hall hnodup fun q hq => by
      obtain ⟨c, hc, hq⟩ := List.mem_flatMap.mp hq
      exact hl q (.child hc (Pattern.reaches_of_mem_atoms hq))
    cases h
    exact ⟨rfl, fun _ => ⟨0, 0, .refl _, by simpa using hheld⟩⟩
  repeats hl ho hu hp _ := by
    refine Tally.texts.balance_of_repeatPasses Balanced.ledger ⟨hall, ?_⟩
      (fun s log t => ho s log true t)
      (fun s log t run => ⟨hu s log t run, (ho s log false t run).style_eq⟩) hp
    intro r hr
    obtain ⟨q, hq, hqr⟩ := hl r hr
    exact ⟨q, hq.mem r.slot (by simp [Pattern.slot?, hqr]), hqr⟩

end Conserves

end Synopsis
