import Synopsis.Proofs.Matcher.Given
import Synopsis.Proofs.Matcher.Replaced

/-! # Attached values

An option whose value is a single argument does the same with a value behind its flag
as with one attached to the flag, if its argument is still empty.
-/

namespace Synopsis

variable {scope : Scope} {n : Nat} {w p : Pattern} {leaf : Leaf} {s t : Attempt} {v : String}
  {tokens : List Token} {run : Pattern → MatchM Bool} {last : Option Nat} {x : Scanned} {y : Token}

/-! ## Lines of one pattern -/

theorem scanPass_singleton {place : Nat} (hs : s.argv.isEmpty = false)
    (h : run x.pattern (s.aimed place last) = .ok true t) :
    ∃ last', scanPass run place last [x] s = .ok (last', [{ x with matched := true }]) t := by
  simp only [scanPass, MatchM.argv_bind, hs, Bool.false_eq_true, if_false, MatchM.setArgv_bind]
  exact ⟨_, (MatchM.bind_apply_of_ok h).trans rfl⟩

/-- A pass that takes nothing is the last one. -/
theorem scanPasses_still (hs : s.argv.isEmpty = false) (h : run x.pattern (s.aimed 0 last) = .ok true t)
    (ht : t.argv.tokens = s.argv.tokens) :
    scanPasses run (n + 1) last [x] s = .ok [{ x with matched := true }] t := by
  obtain ⟨last', hpass⟩ := scanPass_singleton hs h
  simp only [scanPasses, MatchM.argv_bind, hs, Bool.false_eq_true, if_false]
  refine (MatchM.bind_apply_of_ok hpass).trans ?_
  simp only [MatchM.argv_bind, if_pos ht]
  rfl

theorem scanPasses_again (hs : s.argv.isEmpty = false) (h : run x.pattern (s.aimed 0 last) = .ok true t)
    (ht : t.argv.tokens ≠ s.argv.tokens) : ∃ last', scanPasses run (n + 1) last [x] s =
      scanPasses run n last' [{ x with matched := true }] t := by
  obtain ⟨last', hpass⟩ := scanPass_singleton hs h
  refine ⟨last', ?_⟩
  simp only [scanPasses, MatchM.argv_bind, hs, Bool.false_eq_true, if_false]
  refine (MatchM.bind_apply_of_ok hpass).trans ?_
  simp only [MatchM.argv_bind, if_neg ht]

theorem matchLine_of_scanLine (h : scanLine run [p] s = .ok [x] t) (hx : x.matched = true) :
    matchLine run [p] s = .ok true t := by
  simp only [matchLine, MatchM.restoring, MatchM.get_bind]
  refine (MatchM.bind_apply_of_ok (a := true) (t := t) ((MatchM.bind_apply_of_ok h).trans ?_)).trans rfl
  simp only [List.all_cons, hx, List.all_nil, Bool.and_self, if_true]
  rfl

/-! ## Single arguments -/

/-- An argument takes the token from the front. -/
def Token.Given (x : Token) : Prop :=
  x.isDoubleDash = false ∧ ∀ leaf, (Positional.argument leaf).accepts 0 x = true

theorem Token.given_value (text : String) : Token.Given ⟨text, .value⟩ :=
  ⟨rfl, fun _ => by simp [Positional.accepts]⟩

/-- A step that matches, with the slots and tokens that it leaves. -/
def Settles (m : MatchM Bool) (s : Attempt) (slots : Slots) (tokens : List Token) : Prop :=
  ∃ t, m s = .ok true t ∧ t.slots = slots ∧ t.argv.tokens = tokens

namespace SoleArgument

/-- The argument holds something already. -/
theorem keeps (h : SoleArgument w leaf) (hn : (w.recorded? scope n).isSome)
    (hs : (s.slots.get leaf.slot).hasText = true) (hne : s.argv.isEmpty = false) :
    Settles (matchPattern scope n false w) s s.slots s.argv.tokens := by
  induction h generalizing n s with
  | argument =>
    cases n with
    | zero => cases hn
    | succ n => exact ⟨s, by simp [matchPattern, Positional.run, Positional.isFilled, hs], rfl, rfl⟩
  | @group p leaf h ih =>
    cases n with
    | zero => cases hn
    | succ n =>
      have hp := Pattern.isSome_recorded?_of_mem (List.mem_singleton_self p) hn
      obtain ⟨t, ht, hslots, htokens⟩ := ih (s := s.aimed 0 none) hp hs hne
      have hscan : scanLine (matchPattern scope n false) [p] s = .ok [⟨p, true⟩] t :=
        scanPasses_still hne ht htokens
      exact ⟨t, matchLine_of_scanLine hscan rfl, hslots, htokens⟩

/-- The argument is empty, and its value stands in front. -/
theorem takes (h : SoleArgument w leaf) (hn : (w.recorded? scope n).isSome)
    (hs : (s.slots.get leaf.slot).hasText = false) (ht : s.argv.tokens = y :: tokens) (hy : y.Given)
    (ho : s.argv.optionOnly = false) : Settles (matchPattern scope n false w) s
      (s.slots.modify leaf.slot (Slot.pushText y.text false)) tokens := by
  induction h generalizing n s with
  | @argument leaf =>
    cases n with
    | zero => cases hn
    | succ n =>
      have hplace : s.argv.positional = (s.argv, some 0) := Argv.positional_of_cons ht hy.1
      refine ⟨⟨s.slots.modify leaf.slot (Slot.pushText y.text false), s.argv.remove 0⟩, ?_, rfl, ?_⟩
      · simp [matchPattern, Positional.run, Positional.take, Positional.isFilled, hs, ho, hplace, ht,
          hy.2, Positional.slot, Positional.record]
      · simp [Argv.remove, ht]
  | @group p leaf h ih =>
    cases n with
    | zero => cases hn
    | succ n =>
      have hp := Pattern.isSome_recorded?_of_mem (List.mem_singleton_self p) hn
      have hne : s.argv.isEmpty = false := by simp [Argv.isEmpty, ht]
      obtain ⟨t, htaken, hslots, htokens⟩ := ih (s := s.aimed 0 none) hp hs ht rfl
      have hmoved : t.argv.tokens ≠ s.argv.tokens := by
        rw [htokens, ht]
        exact (List.cons_ne_self _ _).symm
      obtain ⟨last, hagain⟩ := scanPasses_again (n := s.argv.size) (x := .start p) hne htaken hmoved
      obtain ⟨u, hpasses, huslots, hutokens⟩ : ∃ u, scanPasses (matchPattern scope n false) s.argv.size
          last [⟨p, true⟩] t = .ok [⟨p, true⟩] u ∧ u.slots = t.slots ∧ u.argv.tokens = t.argv.tokens := by
        have hsize : s.argv.size = s.argv.size - 1 + 1 := by
          simp [Argv.size, ht]
          omega
        rw [hsize]
        cases hempty : t.argv.isEmpty with
        | true => exact ⟨t, by simp [scanPasses, hempty], rfl, rfl⟩
        | false =>
          have hfull : ((t.aimed 0 last).slots.get leaf.slot).hasText = true := by
            change (t.slots.get leaf.slot).hasText = true
            rw [hslots, Slots.get_modify_self]
            rfl
          obtain ⟨u, hu, huslots, hutokens⟩ := h.keeps hp hfull hempty
          exact ⟨u, scanPasses_still hempty hu hutokens, huslots, hutokens⟩
      have hscan : scanLine (matchPattern scope n false) [p] s = .ok [⟨p, true⟩] u :=
        hagain.trans hpasses
      exact ⟨u, matchLine_of_scanLine hscan rfl, huslots.trans hslots, hutokens.trans htokens⟩

end SoleArgument
/-! ## Options -/

/-- Two spellings of an option with a value, which only differ in where the value stands. -/
structure Attaches (style : OptionStyle) (name v joined : String) : Prop where
  attached : style.attached = true
  looks : looksLikeOption name = true
  looks_joined : looksLikeOption joined = true
  spelled (names : Names) : Argv.spelledBy? style names name =
    if names.contains name then some (name, none) else none
  spelled_joined (names : Names) : Argv.spelledBy? style names joined =
    if names.contains name then some (name, some v) else none

/-- A flag with its value behind it, and the flag that has the value attached. -/
inductive AttachedPart (name v joined : String) : List Token → List Token → Prop
  | intro : AttachedPart name v joined [⟨name, .flag⟩, ⟨v, .value⟩] [⟨joined, .flag⟩]

namespace OptionOf

variable {o : OptionAtom} {arity : Arity} {m : MatchM Bool} {a : Argv} {slots slots' : Slots}
  {xs ys : List Token} {name joined : String}

theorem takeSeparate_settles {y : Token} (ha : a.tokens = xs ++ y :: ys) (hy : y.isDoubleDash = false)
    (hm : Settles m ⟨slots, a.valueStream (y :: ys)⟩ slots' tokens) :
    o.takeSeparate arity m xs.length ⟨slots, a⟩ =
      .ok true ⟨slots', { a with tokens := xs ++ tokens }⟩ := by
  obtain ⟨t, ht, rfl, rfl⟩ := hm
  have hstream : MatchM.onStream (a.valueStream (y :: ys)) m ⟨slots, a⟩ =
      .ok (true, t.argv) ⟨t.slots, a⟩ := MatchM.onStream_eq_ok.mpr ⟨t, ht, rfl, rfl⟩
  simp only [takeSeparate, MatchM.argv_bind, ha, List.getElem?_append_right (Nat.le_refl _), Nat.sub_self,
    List.getElem?_cons_zero, Option.any_some, hy, Bool.and_false, Bool.false_and, Bool.false_eq_true,
    if_false, List.take_left, List.drop_left]
  exact (MatchM.bind_apply_of_ok hstream).trans rfl

theorem takeAttached_settles (hm : Settles m ⟨slots, a.valueStream [⟨v, .value⟩]⟩ slots' []) :
    o.takeAttached m v ⟨slots, a⟩ = .ok true ⟨slots', a⟩ := by
  obtain ⟨t, ht, rfl, hleft⟩ := hm
  have hstream : MatchM.onStream (a.valueStream [⟨v, .value⟩]) m ⟨slots, a⟩ =
      .ok (true, t.argv) ⟨t.slots, a⟩ := MatchM.onStream_eq_ok.mpr ⟨t, ht, rfl, rfl⟩
  simp only [takeAttached, MatchM.argv_bind]
  refine (MatchM.bind_apply_of_ok hstream).trans ?_
  simp only [Argv.isEmpty, hleft]
  rfl

/-- Where the flag stands, the option takes the same value in both spellings. -/
theorem run_attached (hw : o.value = some w) (hsole : SoleArgument w leaf)
    (hn : (w.recorded? scope n).isSome) (hne : o.slot ≠ leaf.slot)
    (ha : Attaches s.argv.style name v joined) (hname : o.names.contains name = true)
    (hmet : (s.slots.get o.slot).isTruthy = false) (hempty : (s.slots.get leaf.slot).hasText = false)
    (hxs : ∀ x ∈ xs, x.isDoubleDash = false) (hf : s.argv.findOption? o.names 0 xs = none)
    {us us' : List Token} (hpart : AttachedPart name v joined us us')
    (ht : s.argv.tokens = xs ++ (us ++ ys) ∨ s.argv.tokens = xs ++ (us' ++ ys)) :
    o.run (matchPattern scope n false) false s =
      .ok true ⟨(s.slots.modify o.slot (Slot.hit false)).modify leaf.slot (Slot.pushText v false),
        { s.argv with tokens := xs ++ ys }⟩ := by
  obtain ⟨⟩ := hpart
  have hvalue (zs : List Token) : Settles (matchPattern scope n false w)
      ⟨s.slots.modify o.slot (Slot.hit false), s.argv.valueStream (⟨v, .value⟩ :: zs)⟩
      ((s.slots.modify o.slot (Slot.hit false)).modify leaf.slot (Slot.pushText v false)) zs := by
    refine hsole.takes hn ?_ rfl (Token.given_value v) rfl
    rwa [Slots.get_modify_of_ne hne.symm]
  have hfound {x : Token} {attached : Option String} {zs : List Token} (hx : x.kind = .flag)
      (hspelled : Argv.spelledBy? s.argv.style o.names x.text = some (name, attached))
      (ht : s.argv.tokens = xs ++ x :: zs) : s.argv.takeOption? o.names =
        some (⟨name, attached, xs.length⟩, { s.argv with tokens := xs ++ zs }) := by
    have hremove : s.argv.remove xs.length = { s.argv with tokens := xs ++ zs } :=
      congrArg (fun ts => { s.argv with tokens := ts }) (remove_tokens ht)
    rw [Argv.takeOption?, ht, Argv.findOption?_append hxs, hf, Option.none_or, Nat.zero_add]
    simp [Argv.findOption?, Token.isDoubleDash, hx, hspelled, hremove]
  simp only [run, MatchM.slots_bind, hmet, Bool.and_false, Bool.false_eq_true, if_false, MatchM.argv_bind]
  rcases ht with ht | ht
  · rw [hfound (x := ⟨name, .flag⟩) rfl ((ha.spelled o.names).trans (if_pos hname)) ht]
    simp only [MatchM.setArgv_bind, MatchM.modifySlot_bind, takeFound, MatchM.argv_bind, hw]
    exact takeSeparate_settles rfl rfl (hvalue ys)
  · rw [hfound (x := ⟨joined, .flag⟩) rfl ((ha.spelled_joined o.names).trans (if_pos hname)) ht]
    simp only [MatchM.setArgv_bind, MatchM.modifySlot_bind, takeFound, MatchM.argv_bind, hw, ha.attached,
      Bool.not_true, Bool.and_false, Bool.false_eq_true, if_false]
    exact takeAttached_settles (hvalue [])

end OptionOf

end Synopsis
