import Synopsis.Proofs.Matcher.Ahead
import Synopsis.Proofs.Matcher.Requests

/-! # Supplying a request

An option takes what the first token that spells it supplies, and records it, or it stops. So an
attempt leads to the same slots and tokens before and after an option takes what is asked for.
-/

namespace Synopsis

open Argv (spelledBy?)
open Pattern (Reaches slots)

variable {scope : Scope} {σ : OptionStyle} {auto : Bool} {O : OptionAtom → Prop} {s t : Attempt}
  {o : OptionAtom} {n : Nat} {ts front rest us ls : List Token} {x : Token} {r : Request}
  {w : Pattern} {leaf : Leaf} {arity : Arity} {m : MatchM Bool} {a : Argv} {table : Slots}

/-! ## Searches -/

namespace Argv

variable {i : Nat} {found : Found}

theorem finds_of_findOption? (h : a.findOption? o.names i ts = some found) :
    ∃ front x rest, ts = front ++ x :: rest ∧ found.index = i + front.length ∧
      spelledBy? a.style o.names x.text = some (found.name, found.attached) ∧
      Finds a.style a.autoDashes o front x := by
  induction ts generalizing i with
  | nil => cases h
  | cons y ts ih =>
    simp only [findOption?] at h
    split at h
    · cases h
    next hd =>
      have hd : (a.autoDashes && y.isDoubleDash) = false := by simpa using hd
      -- The search goes on behind the first token.
      have next (h : a.findOption? o.names (i + 1) ts = some found)
          (hy : y.kind = .flag → spelledBy? a.style o.names y.text = none) :
          ∃ front x rest, y :: ts = front ++ x :: rest ∧ found.index = i + front.length ∧
            spelledBy? a.style o.names x.text = some (found.name, found.attached) ∧
            Finds a.style a.autoDashes o front x := by
        obtain ⟨front, x, rest, rfl, hi, hs, hf⟩ := ih h
        refine ⟨y :: front, x, rest, rfl, ?_, hs, hf.kind, hf.spelled, unended_cons.mpr ⟨hd, hf.unended⟩,
          List.forall_mem_cons.mpr ⟨hy, hf.missed⟩⟩
        rw [hi, List.length_cons, Nat.add_assoc, Nat.add_comm 1]
      split at h
      next hk =>
        split at h
        next name attached hs =>
          obtain rfl := Option.some.inj h
          exact ⟨[], y, ts, rfl, rfl, hs, hk, by rw [hs]; rfl, List.forall_mem_nil _,
            List.forall_mem_nil _⟩
        next hs => exact next h fun _ => hs
      next hk => exact next h fun hflag => absurd hflag hk

theorem not_spots_of_findOption? (h : a.findOption? o.names i ts = none) :
    ¬ Spots a.style a.autoDashes o ts := by
  induction ts generalizing i with
  | nil =>
    rintro ⟨front, x, rest, hts, -⟩
    simp at hts
  | cons y ts ih =>
    intro hs
    simp only [findOption?] at h
    rcases hs.tail with ⟨hk, hspelled⟩ | ⟨hd, hs⟩
    · obtain ⟨r, hr⟩ := Option.isSome_iff_exists.mp hspelled
      simp [Token.isDoubleDash, hk, hr] at h
    · rw [hd] at h
      split at h
      · contradiction
      · split at h
        · split at h
          · cases h
          · exact ih h hs
        · exact ih h hs

end Argv

/-! ## Values -/

theorem Positional.sees_argument_eq_none (hauto : s.argv.autoDashes = false)
    (hx : ∀ x ∈ s.argv.tokens.head?, ¬ x.Given) : (Positional.argument leaf).sees s = none := by
  cases hsees : (Positional.argument leaf).sees s with
  | none => rfl
  | some r =>
    rcases Positional.sees_cases hsees with ⟨htokens, hplain, haccepts⟩ | ⟨d, rest, hended, -⟩
    · exact absurd ⟨hplain.1, fun _ => haccepts⟩ (hx r.1 (by rw [htokens]; rfl))
    · rw [hauto] at hended
      cases hended

/-- Without a token that it takes, a single argument does not match. -/
theorem SoleArgument.misses (h : SoleArgument w leaf) (hn : (w.recorded? scope n).isSome)
    (hs : (s.slots.get leaf.slot).hasText = false) (ho : s.argv.optionOnly = false)
    (hauto : s.argv.autoDashes = false) (hx : ∀ x ∈ s.argv.tokens.head?, ¬ x.Given) :
    ∃ t, matchPattern scope n false w s = .ok false t ∧ t.argv.tokens = s.argv.tokens := by
  induction h generalizing n s with
  | @argument leaf =>
    cases n with
    | zero => cases hn
    | succ n =>
      obtain ⟨t, ht, hlevel⟩ := Positional.run_of_sees_none (p := .argument leaf) hs ho
        (Positional.sees_argument_eq_none hauto hx)
      exact ⟨t, ht, hlevel.tokens_eq⟩
  | @group p leaf h ih =>
    cases n with
    | zero => cases hn
    | succ n =>
      have hp := Pattern.isSome_recorded?_of_mem (List.mem_singleton_self p) hn
      have hstart : (Scanned.start p).matched = false := by cases h <;> rfl
      obtain ⟨xs, t, hscan, hxs⟩ : ∃ xs t, scanLine (matchPattern scope n false) [p] s = .ok xs t ∧
          xs.all (·.matched) = false := by
        by_cases he : s.argv.isEmpty
        · exact ⟨_, s, scanLine_of_isEmpty he, by simp [hstart]⟩
        · have he : s.argv.isEmpty = false := by simpa using he
          obtain ⟨t, ht, htokens⟩ := ih (s := s.aimed 0 none) hp hs rfl hauto hx
          refine ⟨[.start p], t, ?_, by simp [hstart]⟩
          have hpass : scanPass (matchPattern scope n false) 0 none [.start p] s = .ok _ t :=
            scanPass_cons_of_ok he ht rfl
          rw [scanLine_eq he]
          refine (MatchM.bind_apply_of_ok hpass).trans ?_
          have hstill : t.argv.tokens = s.argv.tokens := htokens
          rw [MatchM.argv_bind, if_pos hstill]
          rfl
      have hlend : Lending.lend [p] t = .ok false t :=
        Lending.lend_of_not_repeating (List.forall_mem_singleton.mpr h.isRepeatingGroup_eq) t
      refine ⟨s.restored t, MatchM.restoring_eq_ok.mpr (.inr ⟨rfl, t, ?_, rfl⟩), rfl⟩
      rw [MatchM.bind_apply_of_ok hscan, hxs]
      exact hlend

/-! ## One option -/

namespace OptionOf

theorem takeSeparate_misses (hm : ∃ t, m ⟨table, a.valueStream rest⟩ = .ok false t)
    (ha : a.tokens = front ++ rest) (harity : (arity.least != .exactly 0) = true) :
    ∃ e t, o.takeSeparate arity m front.length ⟨table, a⟩ = .error (.error e) t := by
  obtain ⟨t, ht⟩ := hm
  simp only [takeSeparate, MatchM.argv_bind, harity, Bool.and_true]
  cases hend : a.autoDashes && a.tokens[front.length]?.any Token.isDoubleDash with
  | true => exact ⟨_, _, rfl⟩
  | false =>
    have hstream : MatchM.onStream (a.valueStream rest) m ⟨table, a⟩ = .ok (false, t.argv) ⟨t.slots, a⟩ :=
      MatchM.onStream_eq_ok.mpr ⟨t, ht, rfl, rfl⟩
    simp only [Bool.false_eq_true, if_false, ha, List.take_left, List.drop_left]
    exact ⟨_, _, (MatchM.bind_apply_of_ok hstream).trans rfl⟩

end OptionOf

/-- What a request records in a slot. -/
def Request.effect (r : Request) (i : Nat) (slot : Slot) : Slot :=
  if i = r.option.slot then slot.hit false
  else if i ∈ slots [.option r.option] then r.given.elim slot (Slot.pushText · false slot)
  else slot

theorem SoleArgument.slot_ne (h : SoleArgument w leaf) (hv : o.value = some w)
    (hd : (slots [.option o]).Nodup) : leaf.slot ≠ o.slot := by
  rw [Pattern.slots_option hv, h.slots_eq] at hd
  exact fun he => (List.nodup_cons.mp hd).1 (he ▸ List.mem_singleton_self _)

namespace Request

variable {i : Nat} {slot : Slot}

theorem effect_of_notMem (hi : i ∉ slots [.option r.option]) : r.effect i slot = slot := by
  have hne : i ≠ r.option.slot := fun h => hi (h ▸ Pattern.mem_slots_self rfl)
  rw [effect, if_neg hne, if_neg hi]

theorem get_modify_flag (o : OptionAtom) (table : Slots) (i : Nat) :
    (table.modify o.slot (Slot.hit false)).get i = effect ⟨o, none⟩ i (table.get i) := by
  by_cases hi : i = o.slot
  · rw [effect, if_pos hi, hi, Slots.get_modify_self]
  · rw [effect, if_neg hi, Slots.get_modify_of_ne hi]
    simp

theorem get_modify_value (hv : o.value = some w) (h : SoleArgument w leaf)
    (hd : (slots [.option o]).Nodup) (text : String) (table : Slots) (i : Nat) :
    ((table.modify o.slot (Slot.hit false)).modify leaf.slot (Slot.pushText text false)).get i =
      effect ⟨o, some text⟩ i (table.get i) := by
  have hslots : slots [.option o] = [o.slot, leaf.slot] := by rw [Pattern.slots_option hv, h.slots_eq]
  have hne := h.slot_ne hv hd
  unfold effect
  by_cases hi : i = o.slot
  · rw [if_pos hi, hi, Slots.get_modify_of_ne hne.symm, Slots.get_modify_self]
  · by_cases hl : i = leaf.slot
    · rw [if_neg hi, if_pos (by simp [hslots, hl]), hl, Slots.get_modify_self, Slots.get_modify_of_ne hne]
      rfl
    · rw [if_neg hi, if_neg (by simp [hslots, hi, hl]), Slots.get_modify_of_ne hl,
        Slots.get_modify_of_ne hi]

end Request

/-- An option was met, or no token spells it. -/
def OptionOf.Missed (o : OptionAtom) (s : Attempt) : Prop :=
  (s.slots.get o.slot).isTruthy = true ∨ s.argv.findOption? o.names 0 s.argv.tokens = none

/-- The first token that spells an option supplies a request for it, which is recorded. -/
structure Grants (σ : OptionStyle) (auto : Bool) (o : OptionAtom) (s t : Attempt) (front : List Token)
    (x : Token) (rest : List Token) (r : Request) (us : List Token) : Prop where
  tokens : s.argv.tokens = front ++ x :: rest
  finds : Finds σ auto o front x
  supplies : Supplies σ x rest r us
  option_eq : r.option = o
  free : (s.slots.get o.slot).isTruthy = false
  argv : t.argv = { s.argv with tokens := front ++ us }
  get_eq : ∀ i, t.slots.get i = r.effect i (s.slots.get i)

/-- The first token that spells an option does not supply it. -/
def Refuses (σ : OptionStyle) (auto : Bool) (o : OptionAtom) (ts : List Token) : Prop :=
  ∃ front x rest, ts = front ++ x :: rest ∧ Finds σ auto o front x ∧
    ∀ r us, r.option = o → ¬ Supplies σ x rest r us

namespace OptionOf

section Found

variable {name : String} {attached : Option String}
  (hmet : (s.slots.get o.slot).isTruthy = false) (htokens : s.argv.tokens = front ++ x :: rest)
  (hs : spelledBy? s.argv.style o.names x.text = some (name, attached))
  (hf : Finds s.argv.style s.argv.autoDashes o front x)
include hmet htokens hs hf

theorem yields_takeFound_flag (hv : o.value = none) (value : Pattern → MatchM Bool) :
    (o.takeFound value ⟨name, attached, front.length⟩).Yields
      ⟨s.slots.modify o.slot (Slot.hit false), { s.argv with tokens := front ++ rest }⟩
      (fun _ t => ∃ r us, Grants s.argv.style s.argv.autoDashes o s t front x rest r us)
      fun _ _ => Refuses s.argv.style s.argv.autoDashes o s.argv.tokens := by
  have hget := Request.get_modify_flag o s.slots
  simp only [takeFound, MatchM.yields_bind, MatchM.yields_argv, hv]
  cases attached with
  | none => exact ⟨_, _, htokens, hf, .flag hf.kind hs hv, rfl, hmet, rfl, hget⟩
  | some text =>
    cases hstacks : s.argv.style.stacks name with
    | true =>
      have hshort := hstacks
      rw [OptionStyle.stacks] at hshort
      simp only [hshort, if_true, MatchM.yields_bind, MatchM.yields_setArgv]
      refine ⟨_, _, htokens, hf, .stacked hf.kind hs hv hstacks, rfl, hmet, ?_, hget⟩
      simp [Argv.insert]
    | false =>
      have hshort := hstacks
      rw [OptionStyle.stacks] at hshort
      simp only [hshort, Bool.false_eq_true, if_false, MatchM.yields_fail]
      refine ⟨front, x, rest, htokens, hf, ?_⟩
      rintro r us rfl hsupplies
      cases hsupplies with
      | flag _ hs' =>
        rw [hs] at hs'
        cases hs'
      | stacked _ hs' _ hstacks' =>
        rw [hs] at hs'
        cases hs'
        rw [hstacks] at hstacks'
        cases hstacks'
      | attached _ _ hv' | separate _ _ hv' =>
        rw [hv] at hv'
        cases hv'

theorem yields_takeFound_value (hv : o.value = some w) (hsole : SoleArgument w leaf)
    (hn : (w.recorded? scope n).isSome) (hd : (slots [.option o]).Nodup)
    (hattached : s.argv.style.attached = true) (hempty : (s.slots.get leaf.slot).hasText = false) :
    (o.takeFound (matchPattern scope n false) ⟨name, attached, front.length⟩).Yields
      ⟨s.slots.modify o.slot (Slot.hit false), { s.argv with tokens := front ++ rest }⟩
      (fun _ t => ∃ r us, Grants s.argv.style s.argv.autoDashes o s t front x rest r us)
      fun _ _ => Refuses s.argv.style s.argv.autoDashes o s.argv.tokens := by
  have hget (text : String) := Request.get_modify_value hv hsole hd text s.slots
  have hleaf : ((s.slots.modify o.slot (Slot.hit false)).get leaf.slot).hasText = false := by
    rwa [Slots.get_modify_of_ne (hsole.slot_ne hv hd)]
  simp only [takeFound, MatchM.yields_bind, MatchM.yields_argv, hv]
  cases attached with
  | none =>
    dsimp only
    by_cases hgiven : ∃ y ys, rest = y :: ys ∧ y.Given
    · obtain ⟨y, ys, rfl, hy⟩ := hgiven
      refine .of_eq_ok (takeSeparate_settles rfl hy.1 (hsole.takes hn hleaf rfl hy rfl)) ?_
      exact ⟨_, _, htokens, hf, .separate hf.kind hs hv hy, rfl, hmet, rfl, hget y.text⟩
    · have hhead : ∀ y ∈ rest.head?, ¬ y.Given := by
        intro y hy hgiven'
        obtain ⟨ys, rfl⟩ := List.head?_eq_some_iff.mp hy
        exact hgiven ⟨y, ys, rfl, hgiven'⟩
      obtain ⟨u, hu, -⟩ := hsole.misses (s := ⟨s.slots.modify o.slot (Slot.hit false),
        s.argv.valueStream rest⟩) hn hleaf rfl rfl hhead
      have harity : (w.arity.least != .exactly 0) = true := by rw [hsole.arity_eq]; rfl
      obtain ⟨e, t, he⟩ := takeSeparate_misses (o := o)
        (a := { s.argv with tokens := front ++ rest }) ⟨u, hu⟩ rfl harity
      refine .of_eq_error he ⟨front, x, rest, htokens, hf, ?_⟩
      rintro r us rfl hsupplies
      cases hsupplies with
      | flag _ _ hv' | stacked _ _ hv' =>
        rw [hv] at hv'
        cases hv'
      | attached _ hs' =>
        rw [hs] at hs'
        cases hs'
      | separate _ _ _ hy => exact hhead _ rfl hy
  | some text =>
    simp only [hattached, Bool.not_true, Bool.and_false, Bool.false_eq_true, if_false]
    refine .of_eq_ok (takeAttached_settles (hsole.takes hn hleaf rfl (Token.given_value text) rfl)) ?_
    exact ⟨_, _, htokens, hf, .attached hf.kind hs hv, rfl, hmet, rfl, hget text⟩

end Found

/-- An option that was not met takes what the first token that spells it supplies. -/
theorem yields_run (hO : Offer O) (ho : O o) (hn : ((Pattern.option o).recorded? scope (n + 1)).isSome)
    (hattached : o.value.isSome = true → s.argv.style.attached = true)
    (hempty : (s.slots.get o.slot).isTruthy = false →
      ∀ i ∈ slots [.option o], i ≠ o.slot → (s.slots.get i).hasText = false) :
    (o.run (matchPattern scope n false) false).Yields s
      (fun _ t => (t = s ∧ o.Missed s) ∨
        ∃ front x rest r us, Grants s.argv.style s.argv.autoDashes o s t front x rest r us)
      fun _ _ => Refuses s.argv.style s.argv.autoDashes o s.argv.tokens := by
  simp only [run, MatchM.yields_bind, MatchM.yields_slots]
  cases hmet : (s.slots.get o.slot).isTruthy with
  | true => exact .inl ⟨rfl, .inl hmet⟩
  | false =>
    simp only [Bool.and_false, Bool.false_eq_true, if_false, MatchM.yields_bind, MatchM.yields_argv]
    cases hfind : s.argv.findOption? o.names 0 s.argv.tokens with
    | none =>
      rw [Argv.takeOption?_eq_none hfind]
      exact .inl ⟨rfl, .inr hfind⟩
    | some found =>
      obtain ⟨front, x, rest, htokens, hi, hs, hf⟩ := Argv.finds_of_findOption? hfind
      obtain ⟨name, attached, i⟩ := found
      obtain rfl : i = front.length := hi.trans (Nat.zero_add _)
      have hremove : s.argv.remove front.length = { s.argv with tokens := front ++ rest } :=
        congrArg (fun ts => { s.argv with tokens := ts }) (remove_tokens htokens)
      simp only [Argv.takeOption?, hfind, Option.map_some, hremove, MatchM.yields_bind,
        MatchM.yields_setArgv, MatchM.yields_modifySlot]
      have granted (t : Attempt) (h : ∃ r us,
          Grants s.argv.style s.argv.autoDashes o s t front x rest r us) : (t = s ∧ o.Missed s) ∨
            ∃ front x rest r us, Grants s.argv.style s.argv.autoDashes o s t front x rest r us := by
        obtain ⟨r, us, h⟩ := h
        exact .inr ⟨front, x, rest, r, us, h⟩
      cases hv : o.value with
      | none =>
        exact (yields_takeFound_flag hmet htokens hs hf hv _).imp fun _ => granted
      | some v =>
        obtain ⟨leaf, hsole⟩ := hO.value o ho v hv
        have hleaf : leaf.slot ∈ slots [.option o] := by
          rw [Pattern.slots_option hv]
          exact List.mem_cons_of_mem _ hsole.slot_mem
        have hfound := yields_takeFound_value hmet htokens hs hf hv hsole
          (Pattern.isSome_recorded?_of_value hv hn) (hO.nodup o ho) (hattached (by rw [hv]; rfl))
          (hempty hmet _ hleaf (hsole.slot_ne hv (hO.nodup o ho)))
        exact hfound.imp fun _ => granted

end OptionOf

/-! ## What an attempt leads to -/

/-- In a stream of arguments, the values of options that were not met are empty. -/
structure Sound (σ : OptionStyle) (auto : Bool) (O : OptionAtom → Prop) (s : Attempt) : Prop where
  style : s.argv.style = σ
  autoDashes : s.argv.autoDashes = auto
  chained : Chained σ O s.argv.tokens
  empty : ∀ o, O o → (s.slots.get o.slot).isTruthy = false →
    ∀ i ∈ slots [.option o], i ≠ o.slot → (s.slots.get i).hasText = false

/-- Once some requests are supplied, an attempt has come to the slots of a table and to some tokens. -/
structure LeadsTo (σ : OptionStyle) (auto : Bool) (O : OptionAtom → Prop) (table : Slots)
    (ls : List Token) (s : Attempt) (rs : List Request) : Prop where
  asks : Asks σ auto O s.argv.tokens rs ls
  nodup : (rs.map (·.option)).Nodup
  free : ∀ r ∈ rs, (s.slots.get r.option.slot).isTruthy = false
  recorded : ∀ r ∈ rs, ∀ i ∈ slots [.option r.option], table.get i = r.effect i (s.slots.get i)
  kept : ∀ i, (∀ r ∈ rs, i ∉ slots [.option r.option]) → table.get i = s.slots.get i

namespace Grants

variable {p : OptionAtom} {i : Nat} (hO : Offer O) (ho : O o) (h : Grants σ auto o s t front x rest r us)
include h

theorem get_of_notMem (hi : i ∉ slots [.option o]) : t.slots.get i = s.slots.get i := by
  rw [h.get_eq, Request.effect_of_notMem (by rwa [h.option_eq])]

theorem isTruthy : (t.slots.get o.slot).isTruthy = true := by
  rw [h.get_eq, Request.effect, h.option_eq, if_pos rfl]
  rfl

include hO ho

theorem get_of_ne (hp : O p) (hne : p ≠ o) (hi : i ∈ slots [.option p]) : t.slots.get i = s.slots.get i :=
  h.get_of_notMem fun ho' => hO.disjoint p o hp ho hne hi ho'

theorem sound (hs : Sound σ auto O s) : Sound σ auto O t where
  style := by rw [h.argv]; exact hs.style
  autoDashes := by rw [h.argv]; exact hs.autoDashes
  chained := by
    rw [h.argv]
    have hchain := hs.chained
    rw [h.tokens] at hchain
    exact hchain.behind (h.option_eq ▸ ho) h.supplies
  empty p hp hmet i hi hne := by
    have hpo : p ≠ o := by
      rintro rfl
      rw [h.isTruthy] at hmet
      cases hmet
    have hget {j : Nat} := h.get_of_ne hO ho (i := j) hp hpo
    rw [hget hi]
    rw [hget (Pattern.mem_slots_self rfl)] at hmet
    exact hs.empty p hp hmet i hi hne

/-- Supplying the first request for an option leaves the others. -/
theorem leadsTo {rs : List Request} (hl : LeadsTo σ auto O table ls s rs) :
    ∃ rs, LeadsTo σ auto O table ls t rs := by
  have hasks := hl.asks
  rw [h.tokens] at hasks
  obtain ⟨r', us', rs₁, rs₂, hr', hsupplies, rfl, hleft⟩ := hasks.supply hO ho h.finds hl.nodup
  obtain ⟨rfl, rfl⟩ := h.supplies.unique hsupplies (hr'.trans h.option_eq.symm)
  have hsub : (rs₁ ++ rs₂).Sublist (rs₁ ++ r' :: rs₂) := (List.sublist_cons_self r' rs₂).append_left rs₁
  have hmem : ∀ r ∈ rs₁ ++ rs₂, r ∈ rs₁ ++ r' :: rs₂ := fun r hr => hsub.subset hr
  have hasks' : Asks σ auto O t.argv.tokens (rs₁ ++ rs₂) ls := by
    rw [h.argv]
    exact hleft
  have hne : ∀ r ∈ rs₁ ++ rs₂, r.option ≠ o := by
    have hperm : (r' :: (rs₁ ++ rs₂)).Perm (rs₁ ++ r' :: rs₂) := List.perm_middle.symm
    have hnodup := (hperm.map (·.option)).nodup_iff.mpr hl.nodup
    rw [List.map_cons, List.nodup_cons, h.option_eq] at hnodup
    rintro r hr rfl
    exact hnodup.1 (List.mem_map_of_mem hr)
  have hO' : ∀ r ∈ rs₁ ++ rs₂, O r.option := hasks'.offered
  refine ⟨rs₁ ++ rs₂, hasks', hl.nodup.sublist (hsub.map _), fun r hr => ?_, fun r hr i hi => ?_,
    fun i hi => ?_⟩
  · rw [h.get_of_ne hO ho (hO' r hr) (hne r hr) (Pattern.mem_slots_self rfl)]
    exact hl.free r (hmem r hr)
  · rw [h.get_of_ne hO ho (hO' r hr) (hne r hr) hi]
    exact hl.recorded r (hmem r hr) i hi
  · by_cases hi' : i ∈ slots [.option r'.option]
    · rw [h.get_eq]
      exact hl.recorded r' (by simp) i hi'
    · rw [h.get_of_notMem (by rwa [← h.option_eq])]
      refine hl.kept i fun r hr => ?_
      rcases List.mem_append.mp hr with hr | hr
      · exact hi r (List.mem_append_left _ hr)
      · rcases List.mem_cons.mp hr with rfl | hr
        · exact hi'
        · exact hi r (List.mem_append_right _ hr)

/-- What is asked for once a request was supplied, was asked for besides it. -/
theorem of_leadsTo {rs : List Request} (hs : Sound σ auto O s) (hl : LeadsTo σ auto O table ls t rs) :
    ∃ rs, LeadsTo σ auto O table ls s rs := by
  have hasks := hl.asks
  rw [h.argv] at hasks
  have hchain := hs.chained
  rw [h.tokens] at hchain
  have hO' := hl.asks.offered
  have hr : O r.option := h.option_eq ▸ ho
  obtain ⟨rs₁, rs₂, rfl, hall⟩ := hasks.unsupply hr h.supplies h.finds.unended hchain
  rw [← h.tokens] at hall
  have hne : ∀ r ∈ rs₁ ++ rs₂, r.option ≠ o := by
    intro r hr he
    have hfree := hl.free r hr
    rw [he, h.isTruthy] at hfree
    cases hfree
  have hperm : (rs₁ ++ r :: rs₂).Perm (r :: (rs₁ ++ rs₂)) := List.perm_middle
  refine ⟨rs₁ ++ r :: rs₂, hall, ?_, ?_, ?_, fun i hi => ?_⟩
  · rw [(hperm.map _).nodup_iff, List.map_cons, List.nodup_cons, h.option_eq]
    refine ⟨fun hmem => ?_, hl.nodup⟩
    obtain ⟨r', hr', he⟩ := List.mem_map.mp hmem
    exact hne r' hr' he
  · refine fun r' hr' => ?_
    rcases List.mem_cons.mp (hperm.mem_iff.mp hr') with rfl | hr'
    · rw [h.option_eq]
      exact h.free
    · rw [← h.get_of_ne hO ho (hO' r' hr') (hne r' hr') (Pattern.mem_slots_self rfl)]
      exact hl.free r' hr'
  · intro r' hr' i hi
    rcases List.mem_cons.mp (hperm.mem_iff.mp hr') with rfl | hr'
    · rw [← h.get_eq]
      refine hl.kept i fun r'' hr'' hi'' => ?_
      rw [h.option_eq] at hi
      exact hO.disjoint _ _ (hO' r'' hr'') ho (hne r'' hr'') hi'' hi
    · rw [← h.get_of_ne hO ho (hO' r' hr') (hne r' hr') hi]
      exact hl.recorded r' hr' i hi
  · rw [← h.get_of_notMem (h.option_eq ▸ hi r (by simp))]
    exact hl.kept i fun r' hr' => hi r' (hperm.mem_iff.mpr (List.mem_cons_of_mem _ hr'))

end Grants

end Synopsis
