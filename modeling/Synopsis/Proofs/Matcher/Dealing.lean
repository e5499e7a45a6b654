import Synopsis.Proofs.Matcher.Rounds
import Synopsis.Proofs.Matcher.Words

/-! # Groups that deal words out

A repeating group of arguments takes plain words round by round until none is left. Each
argument gets every word whose turn is its own. With all words taken, the group changes
nothing any more.
-/

namespace Synopsis

open Pattern (slots Reaches)
open Lending (column Dealt)

variable {front ts : List Token} {s t : Attempt} {is : List Nat} {i j m n : Nat} {scope : Scope}
  {once : MatchM Bool} {leaves : List Recorded} {history : List Slots} {gentle : Prop}

/-- All words are taken. -/
def Attempt.spent (front : List Token) (s : Attempt) : Attempt :=
  ⟨s.slots, { s.argv with tokens := front }⟩

theorem Attempt.spent_eq (h : s.Words front []) : s.spent front = s := by
  have htokens : s.argv.tokens = front := by
    rw [h.tokens, List.append_nil]
  rw [spent, ← htokens]

theorem Attempt.Words.spent {exact : Prop} {H : Set Nat} (h : s.Words front ts)
    (ht : Fronted [] exact H (s.spent front) t) : t.Words front [] where
  tokens := ht.tokens.trans (List.append_nil front).symm
  front := h.front.imp_right fun ⟨d, hd, hdash, hauto⟩ => ⟨d, hd, hdash, ht.autoDashes.trans hauto⟩
  plain := nofun

/-- A slot that was cleared holds no texts. -/
theorem Recorded.texts_cleared {r : Recorded} (h : r.kind = .texts) (x : Slot) :
    (r.cleared x).texts = [] ∧ (r.cleared x).hasText = false := by
  obtain ⟨kind, slot⟩ := r
  cases h
  cases x <;> exact ⟨rfl, rfl⟩

/-- What some passes have put into a slot. -/
def gathered (i : Nat) (history : List Slots) : List String :=
  history.reverse.flatMap fun σ => (σ.get i).texts

theorem gathered_cons (i : Nat) (σ : Slots) (history : List Slots) :
    gathered i (σ :: history) = gathered i history ++ (σ.get i).texts := by
  simp [gathered]

/-- A step whose answer is that it matches. -/
def Matching (m : MatchM Bool) : Prop := ∀ s, m.Yields s (fun b _ => b = true) fun _ _ => True

section Passes

variable (hleaves : ∀ r, r ∈ leaves ↔ r.kind = .texts ∧ r.slot ∈ is)
include hleaves

theorem get_clearAll_of_texts (hi : i ∈ is) (σ : Slots) :
    ((Recorded.clearAll leaves σ).get i).texts = [] ∧
      ((Recorded.clearAll leaves σ).get i).hasText = false := by
  have hmem : (⟨.texts, i⟩ : Recorded) ∈ leaves := (hleaves _).mpr ⟨rfl, hi⟩
  have hget : (Recorded.clearAll leaves σ).get i = _ := Recorded.get_clearAll hmem fun r hr he => by
    obtain ⟨kind, slot⟩ := r
    obtain ⟨rfl, -⟩ := (hleaves _).mp hr
    cases he
    rfl
  rw [hget]
  exact Recorded.texts_cleared rfl _

theorem get_clearAll_of_notMem (hi : i ∉ is) (σ : Slots) :
    (Recorded.clearAll leaves σ).get i = σ.get i :=
  Recorded.get_clearAll_of_forall_ne fun r hr he => hi (he ▸ ((hleaves r).mp hr).2)

theorem fronted_of_cleared (h : ∀ i ∉ is, t.slots.get i = (Recorded.clearAll leaves s.slots).get i)
    (htokens : t.argv.tokens = front) (hstyle : t.argv.style = s.argv.style)
    (hdashes : t.argv.autoDashes = s.argv.autoDashes) :
    Fronted [] False {i | i ∈ is} (s.spent front) t where
  tokens := htokens
  style := hstyle
  autoDashes := hdashes
  dashes := False.elim
  only := False.elim
  slots i hi := (h i hi).trans (get_clearAll_of_notMem hleaves hi s.slots)

theorem texts_fill_cleared (hd : is.Nodup) (hj : is[j]? = some i)
    (ht : Level ((s.cleared leaves).fill is front ts) t) :
    (t.slots.get i).texts = ((ts.map (·.text))[j]?).toList := by
  have hcleared := (get_clearAll_of_texts hleaves (List.mem_of_getElem? hj) s.slots).1
  have hget : t.slots.get i = _ := (ht.get_eq i).trans (Slots.get_fill hd hj)
  rw [hget]
  cases (ts.map (·.text))[j]? with
  | none => exact hcleared
  | some w => rfl

/-- A round that begins with words matches. -/
theorem fills_round (hfills : ∀ s, FillsAt is gentle once s) (hw : s.Words front ts) (hts : ts ≠ [])
    (hmode : is.length ∣ ts.length ∨ gentle ∧ Matching once) :
    once.Runs (s.cleared leaves) fun b t =>
      b = true ∧ Level ((s.cleared leaves).fill is front ts) t := by
  have hwc : (s.cleared leaves).Words front ts := ⟨hw.tokens, hw.front, hw.plain⟩
  have hfree : ∀ i ∈ is, ((s.cleared leaves).slots.get i).hasText = false :=
    fun i hi => (get_clearAll_of_texts hleaves hi s.slots).2
  rcases hmode with hdvd | ⟨hgentle, halways⟩
  · have hle := Nat.le_of_dvd (List.length_pos_iff.mpr hts) hdvd
    exact (hfills _ front _ hwc hfree (.inl hle)).imp fun b t ht => ⟨ht.2 hle, ht.1⟩
  · exact ((hfills _ front _ hwc hfree (.inr hgentle)).and (halways _)).mono
      (fun b t ht => ⟨ht.2, ht.1.1⟩) fun _ _ h => h.1

variable (hd : is.Nodup) (hne : is ≠ []) (hfills : ∀ s, FillsAt is gentle once s)
  (hidle : ∀ s, s.Done is → once.Runs s fun _ t => Level s t)
include hd hne hfills hidle

/-- Each round adds one word to every slot, or to the first ones if the words end within it. -/
theorem deals_passes (hw : s.Words front ts)
    (hmode : is.length ∣ ts.length ∨ gentle ∧ Matching once) :
    (repeatPasses once leaves n history).Runs s fun history' t =>
      Fronted [] False {i | i ∈ is} (s.spent front) t ∧ (history' = [] → history = [] ∧ ts = []) ∧
        ∀ j i, is[j]? = some i →
          gathered i history' = gathered i history ++ column is.length j (ts.map (·.text)) := by
  induction n generalizing s ts history with
  | zero => exact rfl
  | succ n ih =>
    have hwc : (s.cleared leaves).Words front ts := ⟨hw.tokens, hw.front, hw.plain⟩
    simp only [MatchM.Runs, repeatPasses, MatchM.yields_bind, MatchM.yields_argv]
    split
    next he =>
      obtain ⟨rfl, rfl⟩ : front = [] ∧ ts = [] := by
        simpa [Argv.isEmpty, hw.tokens] using he
      refine ⟨⟨hw.tokens, rfl, rfl, False.elim, False.elim, .refl _⟩, fun h => ⟨h, rfl⟩, ?_⟩
      intro j i _
      exact (List.append_nil _).symm
    next he =>
      simp only [MatchM.yields_bind, MatchM.yields_slots, MatchM.yields_setSlots]
      cases ts with
      | nil =>
        refine (hidle (s.cleared leaves) (.inr ⟨front, hwc⟩)).imp fun b t ht => ?_
        have hfront : t.argv.tokens = front := by
          rw [ht.tokens_eq, hwc.tokens, List.append_nil]
        have hspent : Fronted [] False {i | i ∈ is} (s.spent front) t :=
          fronted_of_cleared hleaves (fun i _ => ht.get_eq i) hfront ht.style ht.autoDashes
        have hsame : t.argv.tokens = s.argv.tokens := ht.tokens_eq
        cases b with
        | false => exact ⟨hspent, fun h => ⟨h, rfl⟩, fun j i _ => (List.append_nil _).symm⟩
        | true =>
          simp only [Bool.not_true, Bool.false_eq_true, if_false, MatchM.yields_bind,
            MatchM.yields_slots, MatchM.yields_argv, hsame, if_true]
          refine ⟨hspent, fun h => absurd h (List.cons_ne_nil _ _), fun j i hj => ?_⟩
          have hcleared := (get_clearAll_of_texts hleaves (List.mem_of_getElem? hj) s.slots).1
          rw [gathered_cons, ht.get_eq]
          exact congrArg (gathered i history ++ ·) hcleared
      | cons x ts =>
        have hpos : 0 < is.length := List.length_pos_iff.mpr hne
        refine (fills_round hleaves hfills hw (List.cons_ne_nil x ts) hmode).imp ?_
        rintro _ t ⟨rfl, ht⟩
        simp only [Bool.not_true, Bool.false_eq_true, if_false, MatchM.yields_bind, MatchM.yields_slots,
          MatchM.yields_argv]
        have htokens : t.argv.tokens = front ++ (x :: ts).drop is.length := ht.tokens_eq
        have hmoved : t.argv.tokens ≠ s.argv.tokens := by
          intro hsame
          rw [htokens, hw.tokens, List.append_cancel_left_eq] at hsame
          have hlen := congrArg List.length hsame
          rw [List.length_drop, List.length_cons] at hlen
          omega
        rw [if_neg hmoved]
        have hmode' : is.length ∣ ((x :: ts).drop is.length).length ∨
            gentle ∧ Matching once := by
          refine hmode.imp_left fun hdvd => ?_
          rw [List.length_drop]
          exact Nat.dvd_sub hdvd (Nat.dvd_refl _)
        refine MatchM.Yields.imp (ih ((Attempt.fill_words hwc).congr ht) hmode')
          fun history' u hu => ?_
        obtain ⟨hfronted, hnil, htexts⟩ := hu
        refine ⟨?_, fun h => absurd (hnil h).1 (List.cons_ne_nil _ _), fun j i hj => ?_⟩
        · refine fronted_of_cleared hleaves (fun i hi => ?_) hfronted.tokens
            (hfronted.style.trans ht.style) (hfronted.autoDashes.trans ht.autoDashes)
          have hget : ((s.cleared leaves).fill is front (x :: ts)).slots.get i =
              (s.cleared leaves).slots.get i := Slots.get_fill_of_notMem hi
          exact (hfronted.slots i hi).trans ((ht.get_eq i).trans hget)
        · have hlt : j < is.length := (List.getElem?_eq_some_iff.mp hj).1
          rw [htexts j i hj, gathered_cons, texts_fill_cleared hleaves hd hj ht, List.map_drop,
            List.append_assoc, ← Lending.column_eq_append hlt]

/-- Nothing changes besides the slots, which now hold the words. If there are none, the slots
may be left as they are. -/
theorem deals_matchRepeatedly (hw : s.Words front ts)
    (hmode : is.length ∣ ts.length ∨ gentle ∧ Matching once) :
    (matchRepeatedly once leaves).Runs s fun b t =>
      Fronted [] False {i | i ∈ is} (s.spent front) t ∧ (ts ≠ [] → b = true) ∧
        ∀ j i, is[j]? = some i →
          t.slots.get i = .list ((s.slots.get i).texts ++ column is.length j (ts.map (·.text))) ∨
            ts = [] ∧ t.slots.get i = s.slots.get i := by
  simp only [MatchM.Runs, matchRepeatedly, MatchM.yields_bind, MatchM.yields_slots, MatchM.yields_argv]
  refine MatchM.Yields.imp (deals_passes hleaves hd hne hfills hidle hw hmode) ?_
  rintro history u ⟨hu, hnil, htexts⟩
  cases history with
  | nil =>
    obtain ⟨-, rfl⟩ := hnil rfl
    refine ⟨⟨hu.tokens, hu.style, hu.autoDashes, False.elim, False.elim, .refl _⟩,
      fun h => absurd rfl h, fun j i _ => .inr ⟨rfl, rfl⟩⟩
  | cons σ history =>
    refine ⟨⟨hu.tokens, hu.style, hu.autoDashes, False.elim, False.elim, fun i hi => ?_⟩,
      fun _ => rfl, fun j i hj => .inl ?_⟩
    · refine (Recorded.get_mergeAll_of_forall_ne fun r hr he => hi ?_).trans (hu.slots i hi)
      exact he ▸ ((hleaves r).mp hr).2
    · have hmem : (⟨.texts, i⟩ : Recorded) ∈ leaves := (hleaves _).mpr ⟨rfl, List.mem_of_getElem? hj⟩
      have hget : (Recorded.mergeAll leaves (s.slots :: (σ :: history).reverse) u.slots).get i = _ :=
        Recorded.get_mergeAll hmem fun r hr he => by
          obtain ⟨kind, slot⟩ := r
          obtain ⟨rfl, -⟩ := (hleaves _).mp hr
          cases he
          rfl
      have hgathered : gathered i (σ :: history) = column is.length j (ts.map (·.text)) := htexts j i hj
      rw [← hgathered]
      refine hget.trans ?_
      simp only [Recorded.merged, gathered, List.map_cons, List.flatMap_cons, List.flatMap_map]

end Passes

/-! ## Patterns -/

variable {P : Nat → Prop} {p : Pattern} {kind : GroupKind} {children : List Pattern}

theorem Pattern.records_group {repeats : Bool} {r : Recorded}
    (h : ∀ c ∈ children, (∃ q, Reaches scope c q ∧ q.ownRecord? = some r) ↔
      r.kind = .texts ∧ r.slot ∈ slots [c]) :
    (∃ q, Reaches scope (.group kind children repeats) q ∧ q.ownRecord? = some r) ↔
      r.kind = .texts ∧ r.slot ∈ slots children := by
  rw [slots_eq_flatMap, List.mem_flatMap]
  constructor
  · rintro ⟨q, hq, hr⟩
    cases hq with
    | refl => cases hr
    | child hc hq =>
      obtain ⟨hkind, hslot⟩ := (h _ hc).mp ⟨q, hq, hr⟩
      exact ⟨hkind, _, hc, hslot⟩
  · rintro ⟨hkind, c, hc, hslot⟩
    obtain ⟨q, hq, hr⟩ := (h c hc).mpr ⟨hkind, hslot⟩
    exact ⟨q, .child hc hq, hr⟩

/-- A nest of arguments records the texts of its slots. -/
theorem Pattern.Nest.records (h : p.Nest P) (r : Recorded) :
    (∃ q, Reaches scope p q ∧ q.ownRecord? = some r) ↔ r.kind = .texts ∧ r.slot ∈ slots [p] := by
  induction h with
  | optional _ ih | required _ _ ih =>
    rw [slots_group]
    exact records_group ih
  | @argument leaf =>
    rw [slots_argument, List.mem_singleton]
    constructor
    · rintro ⟨q, hq, hr⟩
      cases hq
      obtain rfl := Option.some.inj hr
      exact ⟨rfl, rfl⟩
    · obtain ⟨kind, slot⟩ := r
      rintro ⟨rfl, rfl⟩
      exact ⟨_, .refl, rfl⟩

theorem matching_optional {run : Pattern → MatchM Bool} : Matching (matchOnce run .optional children) :=
  fun _ => MatchM.yields_bind.mpr (.intro (fun _ _ _ => rfl) fun _ _ _ => trivial)

/-- When the words come out even, or no two arguments have to match together in a round that may
end early, a repeating group deals out all words. -/
def Pattern.Deals (kind : GroupKind) (children : List Pattern) (count : Nat) : Prop :=
  (slots children).length ∣ count ∨ kind = .optional ∧ ∀ c ∈ children, c.Nest (· = 1)

theorem deals_group (hp : (Pattern.group kind children false).Nest (0 < ·))
    (hd : (slots children).Nodup) (hne : slots children ≠ []) (hw : s.Words front ts)
    (hmode : Pattern.Deals kind children ts.length) :
    (matchPattern scope n false (.group kind children true)).Runs s fun b t =>
      Fronted [] False {i | i ∈ slots children} (s.spent front) t ∧ (ts ≠ [] → b = true) ∧
        ∀ j i, (slots children)[j]? = some i →
          t.slots.get i = .list ((s.slots.get i).texts ++
            column (slots children).length j (ts.map (·.text))) ∨
            ts = [] ∧ t.slots.get i = s.slots.get i := by
  cases n with
  | zero => exact rfl
  | succ n =>
    have hchildren : ∀ c ∈ children, c.Nest (0 < ·) := by
      cases hp <;> assumption
    have hsub : ∀ c ∈ children, (slots [c]).Nodup := by
      rw [Pattern.slots_eq_flatMap, List.nodup_flatMap] at hd
      exact hd.1
    have hfills : ∀ s, FillsAt _ _ (matchOnce (matchPattern scope n false) kind children) s :=
      fills_matchOnce hp hd (fun c hc s ho => fills_nest (hchildren c hc) (hsub c hc) ho)
        fun c hc s hs => idle_nest (hchildren c hc) hs
    have hidle (s : Attempt) (hs : s.Done (slots children)) :
        (matchOnce (matchPattern scope n false) kind children).Runs s fun _ t => Level s t :=
      idle_matchOnce (fun c hc => (hchildren c hc).not_repeating)
        (fun c hc s hs => idle_nest (hchildren c hc) hs) hs
    have hmode' : (slots children).length ∣ ts.length ∨
        (Pattern.group kind children false).Nest (· = 1) ∧
          Matching (matchOnce (matchPattern scope n false) kind children) := by
      rcases hmode with hdvd | ⟨rfl, hgentle⟩
      · exact .inl hdvd
      · exact .inr ⟨.optional hgentle, matching_optional⟩
    simp only [MatchM.Runs, matchPattern, Bool.false_or, if_true]
    split
    next leaves hleaves =>
      simp only [MatchM.yields_bind]
      refine (deals_matchRepeatedly (fun r => ?_) hd hne hfills hidle hw hmode').imp
        fun b t ht => ?_
      · rw [Pattern.mem_recorded_iff hleaves]
        exact Pattern.records_group fun c hc => (hchildren c hc).records r
      · exact ⟨ht.1, fun hts => by simp [ht.2.1 hts], ht.2.2⟩
    next => exact rfl

end Synopsis
