import Synopsis.Proofs.Matcher.Dealing

/-! # Lines that begin with a repeating group

A repeating group of arguments takes all plain words, and nothing is left for the commands and
arguments behind it. They match if they fit the last words, and the group can lend these.
-/

namespace Synopsis

open Pattern (slots)
open Lending (column Dealt CanLend)

variable {front ts : List Token} {s t : Attempt} {i j k n : Nat} {scope : Scope} {σ : Slots}
  {kind : GroupKind} {children : List Pattern} {p : Positional} {es : List Positional}
  {ws : List String} {w : String} {style : OptionStyle} {P : Nat → Prop} {q : Pattern}
  {place : Nat} {last : Option Nat}

/-! ## Who takes part in a loan -/

theorem Lending.areSatisfied_of_forall {ps : List Pattern}
    (h : ∀ p ∈ ps, Lending.isSatisfied σ p = true) : Lending.areSatisfied σ ps = true := by
  induction ps with
  | nil => rfl
  | cons p ps ih =>
    obtain ⟨hp, hps⟩ := List.forall_mem_cons.mp h
    rw [areSatisfied, hp, ih hps]
    rfl

theorem Lending.argumentSlotsAll?_of_forall {ps : List Pattern}
    (h : ∀ p ∈ ps, Lending.argumentSlots? p = some (slots [p])) :
    Lending.argumentSlotsAll? ps = some (slots ps) := by
  induction ps with
  | nil => rfl
  | cons p ps ih =>
    obtain ⟨hp, hps⟩ := List.forall_mem_cons.mp h
    rw [Pattern.slots_cons p ps, argumentSlotsAll?, hp, ih hps]
    rfl

namespace Pattern.Nest

theorem isSatisfied (h : q.Nest P) (hs : ∀ i ∈ slots [q], (σ.get i).hasText = true) :
    Lending.isSatisfied σ q = true := by
  induction h with
  | argument => exact hs _ (List.mem_singleton_self _)
  | optional => rfl
  | required hn _ ih =>
    rw [slots_group] at hs
    exact Lending.areSatisfied_of_forall fun c hc => ih c hc fun i hi => hs i (mem_slots_of_mem hc hi)

theorem argumentSlots? (h : q.Nest P) : Lending.argumentSlots? q = some (slots [q]) := by
  induction h with
  | argument => rfl
  | optional _ ih | required _ _ ih =>
    rw [slots_group]
    exact Lending.argumentSlotsAll?_of_forall ih

end Pattern.Nest

theorem Lending.borrowersAll?_of_free (h : ∀ p ∈ es, p.isFilled σ = false) :
    Lending.borrowersAll? σ (es.map (·.pattern)) = some es := by
  induction es with
  | nil => rfl
  | cons p es ih =>
    obtain ⟨hp, hes⟩ := List.forall_mem_cons.mp h
    have hfirst : borrowers? σ p.pattern = some [p] := by
      cases p with
      | command leaf | argument leaf => exact if_neg (Bool.eq_false_iff.mp hp)
    rw [List.map_cons, borrowersAll?, hfirst, ih hes]
    rfl

/-- The group is the lender, and everything behind it borrows. -/
theorem Lending.loan?_of_free (hes : es ≠ []) (hne : slots children ≠ [])
    (hg : Lending.isSatisfied σ (.group kind children true) = true)
    (hc : ∀ c ∈ children, c.Nest P) (hfree : ∀ p ∈ es, p.isFilled σ = false) :
    Lending.loan? σ (.group kind children true :: es.map (·.pattern)) =
      some ⟨kind, slots children, es⟩ := by
  have hlenders : argumentSlotsAll? children = some (slots children) :=
    argumentSlotsAll?_of_forall fun c hmem => (hc c hmem).argumentSlots?
  have hborrowers := borrowersAll?_of_free hfree
  obtain ⟨p, es, rfl⟩ := List.exists_cons_of_ne_nil hes
  rw [List.map_cons] at hborrowers ⊢
  simp [loan?, hg, hlenders, hborrowers, hne]

/-! ## Words for the borrowers -/

/-- A command or an argument that a word satisfies. -/
def Positional.fits (w : String) (p : Positional) : Bool := p.accepts 0 ⟨w, .value⟩

/-- Each of them fits the word at its place. -/
def FitAll (es : List Positional) (ws : List String) : Prop :=
  ∀ (j : Nat) (p : Positional) (w : String), es[j]? = some p → ws[j]? = some w → p.fits w = true

theorem FitAll.cons_iff : FitAll (p :: es) (w :: ws) ↔ p.fits w = true ∧ FitAll es ws := by
  constructor
  · intro h
    exact ⟨h 0 p w rfl rfl, fun j q v hq hv => h (j + 1) q v hq hv⟩
  · rintro ⟨hp, hes⟩ (_ | j) q v hq hv
    · obtain rfl := Option.some.inj hq
      obtain rfl := Option.some.inj hv
      exact hp
    · exact hes j q v hq hv

theorem Positional.record_congr (x y : Slot) : p.record false w x = p.record false w y := by
  cases p <;> rfl

/-- Each borrower takes the word at its place, or one of them does not fit its word. -/
theorem borrows_words (hd : (es.map (·.slot)).Nodup) (hfree : ∀ p ∈ es, p.isFilled σ = false)
    (hlen : ws.length = es.length) :
    (es.allM (Positional.run · false)).Yields ⟨σ, .ofValues ws style⟩ (fun b t =>
      (b = true ↔ FitAll es ws) ∧ (b = true →
        (∀ (j : Nat) (p : Positional) (w : String), es[j]? = some p → ws[j]? = some w →
          t.slots.get p.slot = p.record false w .unset) ∧
          ∀ i ∉ es.map (·.slot), t.slots.get i = σ.get i)) fun _ _ => False := by
  induction es generalizing σ ws with
  | nil => exact ⟨⟨fun _ _ _ _ h => (nomatch h), fun _ => rfl⟩, fun _ => ⟨nofun, fun _ _ => rfl⟩⟩
  | cons p es ih =>
    obtain ⟨w, ws, rfl⟩ := List.exists_cons_of_length_eq_add_one hlen
    obtain ⟨hp, hes⟩ := List.forall_mem_cons.mp hfree
    obtain ⟨hpd, hd⟩ := List.nodup_cons.mp hd
    have hsees : p.sees ⟨σ, .ofValues (w :: ws) style⟩ =
        if p.fits w then some (⟨w, .value⟩, ws.map (⟨·, .value⟩)) else none :=
      Positional.sees_of_tokens rfl rfl
    have hrun := Positional.run_eq (s := ⟨σ, .ofValues (w :: ws) style⟩) hp rfl
    rw [FitAll.cons_iff]
    refine MatchM.yields_bind.mpr ?_
    cases hfits : p.fits w with
    | false =>
      rw [hsees, hfits, if_neg Bool.false_ne_true] at hrun
      refine .of_eq_ok hrun ?_
      simp
    | true =>
      rw [hsees, if_pos hfits] at hrun
      refine .of_eq_ok hrun ?_
      have hother : ∀ q ∈ es, q.slot ≠ p.slot := fun q hq he => hpd (List.mem_map.mpr ⟨q, hq, he⟩)
      have hes' : ∀ q ∈ es, q.isFilled (σ.modify p.slot (p.record false w)) = false := fun q hq =>
        (Positional.isFilled_congr (Slots.get_modify_of_ne (hother q hq))).trans (hes q hq)
      refine (ih (σ := σ.modify p.slot (p.record false w)) hd hes' (Nat.succ.inj hlen)).imp
        fun b t ht => ?_
      obtain ⟨hiff, hgets⟩ := ht
      refine ⟨by simpa using hiff, fun hb => ⟨?_, fun i hi => ?_⟩⟩
      · rintro (_ | j) q v hq hv
        · obtain rfl := Option.some.inj hq
          obtain rfl := Option.some.inj hv
          rw [(hgets hb).2 _ hpd, Slots.get_modify_self]
          exact Positional.record_congr _ _
        · exact (hgets hb).1 j q v hq hv
      · rw [List.map_cons, List.mem_cons, not_or] at hi
        rw [(hgets hb).2 i hi.2, Slots.get_modify_of_ne hi.1]

/-! ## The scan -/

/-- Commands and arguments of a line that have not matched. -/
def waiting (es : List Positional) : List Scanned := es.map fun p => ⟨p.pattern, false⟩

theorem map_start_waiting (es : List Positional) :
    (es.map (·.pattern)).map Scanned.start = waiting es := by
  rw [List.map_map]
  refine List.map_congr_left fun p _ => ?_
  cases p <;> rfl

theorem all_waiting (hes : es ≠ []) : (waiting es).all (·.matched) = false := by
  obtain ⟨p, es, rfl⟩ := List.exists_cons_of_ne_nil hes
  rfl

/-- Without words, a command or an argument does not match. -/
theorem idle_positional (hw : s.Words front []) (hfree : p.isFilled s.slots = false) :
    (matchPattern scope n false p.pattern).Runs s fun b t => b = false ∧ Level s t := by
  cases n with
  | zero => exact rfl
  | succ n =>
    have hrun : matchPattern scope (n + 1) false p.pattern = p.run false := by
      cases p <;> rfl
    rw [hrun]
    cases ho : s.argv.optionOnly with
    | true => exact .of_eq_ok (Positional.run_barred ho) ⟨hfree, .refl s⟩
    | false =>
      obtain ⟨t, ht, hlevel⟩ := Positional.run_of_sees_none hfree ho (hw.sees_nil p)
      exact .of_eq_ok ht ⟨rfl, hlevel⟩

theorem idle_waiting (hw : s.Words front []) (hfree : ∀ p ∈ es, p.isFilled s.slots = false) :
    (scanPass (matchPattern scope n false) place last (waiting es)).Runs s fun r t =>
      Level s t ∧ r.2 = waiting es := by
  induction es generalizing place last s with
  | nil => exact ⟨.refl s, rfl⟩
  | cons p es ih =>
    obtain ⟨hp, hes⟩ := List.forall_mem_cons.mp hfree
    simp only [MatchM.Runs, waiting, List.map_cons, scanPass, MatchM.yields_bind, MatchM.yields_argv]
    split
    · exact ⟨.refl s, rfl⟩
    · simp only [MatchM.yields_bind, MatchM.yields_setArgv]
      have haimed := Level.aimed s place last
      refine (idle_positional (s := s.aimed place last) (hw.congr haimed) hp).imp ?_
      rintro _ t ⟨rfl, ht⟩
      have ht : Level s t := haimed.trans ht
      refine MatchM.yields_bind.mpr ((ih (hw.congr ht) fun q hq => ?_).imp fun r u hu => ?_)
      · exact (Positional.isFilled_congr (ht.get_eq q.slot)).trans (hes q hq)
      · exact ⟨ht.trans hu.1, congrArg (⟨p.pattern, false⟩ :: ·) hu.2⟩

theorem isFilled_of_unset (h : σ.get p.slot = .unset) : p.isFilled σ = false := by
  cases p with
  | command leaf | argument leaf =>
    have h : σ.get leaf.slot = .unset := h
    rw [Positional.isFilled, h]
    rfl

/-- A repeating group of arguments, and commands and arguments behind it. -/
structure Ellipsis (kind : GroupKind) (children : List Pattern) (es : List Positional) : Prop where
  nest : (Pattern.group kind children false).Nest (0 < ·)
  lenders_ne : slots children ≠ []
  borrowers_ne : es ≠ []
  nodup : (slots children ++ es.map (·.slot)).Nodup

namespace Ellipsis

variable (h : Ellipsis kind children es)
include h

theorem lenders_nodup : (slots children).Nodup := (List.nodup_append'.mp h.nodup).1

theorem borrowers_nodup : (es.map (·.slot)).Nodup := (List.nodup_append'.mp h.nodup).2.1

theorem slot_notMem (hp : p ∈ es) : p.slot ∉ slots children := fun hmem =>
  (List.nodup_append'.mp h.nodup).2.2 hmem (List.mem_map_of_mem hp)

theorem children_nest : ∀ c ∈ children, c.Nest (0 < ·) := by
  cases h.nest <;> assumption

/-- In a pass over the line, only the group takes something. -/
theorem pass (hw : s.Words front ts) (hmode : Pattern.Deals kind children ts.length)
    (hfree : ∀ p ∈ es, p.isFilled s.slots = false) (hne : s.argv.isEmpty = false) {b : Bool}
    (hb : ts ≠ [] ∨ b = true) :
    (scanPass (matchPattern scope n false) place last
      (⟨.group kind children true, b⟩ :: waiting es)).Runs s fun r t =>
        r.2 = ⟨.group kind children true, true⟩ :: waiting es ∧
        Fronted [] False {i | i ∈ slots children} (s.spent front) t ∧
        ∀ j i, (slots children)[j]? = some i →
          t.slots.get i = .list ((s.slots.get i).texts ++
            column (slots children).length j (ts.map (·.text))) ∨
            ts = [] ∧ t.slots.get i = s.slots.get i := by
  simp only [MatchM.Runs, scanPass, MatchM.yields_bind, MatchM.yields_argv]
  rw [if_neg (Bool.eq_false_iff.mp hne)]
  simp only [MatchM.yields_bind, MatchM.yields_setArgv]
  have haimed := Level.aimed s place last
  refine (deals_group (s := s.aimed place last) h.nest h.lenders_nodup h.lenders_ne (hw.congr haimed)
    hmode).imp fun b' t ht => ?_
  obtain ⟨hspent, hb', hslots⟩ := ht
  have hspent : Fronted [] False {i | i ∈ slots children} (s.spent front) t :=
    ⟨hspent.tokens, hspent.style, hspent.autoDashes, False.elim, False.elim, hspent.slots⟩
  have hwt : t.Words front [] := hw.spent hspent
  have hfree' : ∀ p ∈ es, p.isFilled t.slots = false := fun p hp =>
    (Positional.isFilled_congr (hspent.slots p.slot (h.slot_notMem hp))).trans (hfree p hp)
  have hrest (l : Option Nat) : (scanPass (matchPattern scope n false) (place + 1) l (waiting es)).Runs t
      fun r u => r.2 = waiting es ∧ Fronted [] False {i | i ∈ slots children} (s.spent front) u ∧
        ∀ j i, (slots children)[j]? = some i →
          u.slots.get i = .list ((s.slots.get i).texts ++
            column (slots children).length j (ts.map (·.text))) ∨
            ts = [] ∧ u.slots.get i = s.slots.get i := by
    refine (idle_waiting hwt hfree').imp fun r u hu => ⟨hu.2, hspent.trans hu.1, ?_⟩
    intro j i hj
    rw [hu.1.get_eq]
    exact hslots j i hj
  cases b' with
  | true =>
    refine MatchM.yields_bind.mpr ((hrest _).imp fun r u hu => ⟨?_, hu.2⟩)
    exact congrArg (⟨.group kind children true, true⟩ :: ·) hu.1
  | false =>
    have hb : b = true := hb.resolve_left fun hts => Bool.false_ne_true (hb' hts)
    refine MatchM.yields_bind.mpr ((hrest _).imp fun r u hu => ⟨?_, hu.2⟩)
    rw [hb]
    exact congrArg (⟨.group kind children true, true⟩ :: ·) hu.1

/-- With all words dealt out, further passes change nothing. -/
theorem idle_passes (hw : s.Words front []) (hdealt : Dealt (slots children) ws s.slots)
    (hfree : ∀ p ∈ es, p.isFilled s.slots = false) :
    (scanPasses (matchPattern scope n false) k last
      (⟨.group kind children true, true⟩ :: waiting es)).Runs s fun xs t =>
        Level s t ∧ xs = ⟨.group kind children true, true⟩ :: waiting es := by
  cases k with
  | zero => exact rfl
  | succ k =>
    simp only [MatchM.Runs, scanPasses, MatchM.yields_bind, MatchM.yields_argv]
    split
    · exact ⟨.refl s, rfl⟩
    next hne =>
      refine MatchM.yields_bind.mpr ((h.pass hw (.inl (Nat.dvd_zero _)) hfree (Bool.eq_false_iff.mpr hne)
        (.inr rfl)).imp fun r t ht => ?_)
      obtain ⟨hxs, hspent, hslots⟩ := ht
      have hlevel : Level (s.spent front) t := hspent.level fun i hi => by
        obtain ⟨j, hj⟩ := List.mem_iff_getElem?.mp hi
        change t.slots.get i = s.slots.get i
        rcases hslots j i hj with hget | ⟨-, hget⟩
        · rw [hget, hdealt j i hj]
          exact congrArg Slot.list (List.append_nil _)
        · exact hget
      rw [Attempt.spent_eq hw] at hlevel
      simp only [MatchM.yields_bind, MatchM.yields_argv, hlevel.tokens_eq, if_true]
      exact ⟨hlevel, hxs⟩

theorem scans (hw : s.Words front ts) (hts : ts ≠ []) (hmode : Pattern.Deals kind children ts.length)
    (hblank : ∀ i, s.slots.get i = .unset) :
    (scanLine (matchPattern scope n false)
      (.group kind children true :: es.map (·.pattern))).Runs s fun xs t =>
        t.Words front [] ∧ Dealt (slots children) (ts.map (·.text)) t.slots ∧
          (∀ i ∉ slots children, t.slots.get i = .unset) ∧ xs.all (·.matched) = false := by
  have hne : s.argv.isEmpty = false := by
    simp [Argv.isEmpty, hw.tokens, hts]
  have hfree : ∀ p ∈ es, p.isFilled s.slots = false := fun p _ => isFilled_of_unset (hblank p.slot)
  have hstart : ∃ b, Scanned.start (.group kind children true) = ⟨.group kind children true, b⟩ :=
    ⟨_, rfl⟩
  obtain ⟨b, hb⟩ := hstart
  simp only [MatchM.Runs, scanLine, scanPasses, List.map_cons, map_start_waiting, hb, MatchM.yields_bind,
    MatchM.yields_argv, hne, Bool.false_eq_true, if_false]
  refine (h.pass hw hmode hfree hne (.inl hts)).imp fun r t ht => ?_
  obtain ⟨hxs, hspent, hslots⟩ := ht
  have hwt : t.Words front [] := hw.spent hspent
  have hdealt : Dealt (slots children) (ts.map (·.text)) t.slots := fun j i hj => by
    have hget := (hslots j i hj).resolve_right fun hnil => hts hnil.1
    rwa [hblank] at hget
  have hunset : ∀ i ∉ slots children, t.slots.get i = .unset := fun i hi =>
    (hspent.slots i hi).trans (hblank i)
  have hall : (⟨.group kind children true, true⟩ :: waiting es : List Scanned).all (·.matched) = false := by
    rw [List.all_cons, all_waiting h.borrowers_ne, Bool.and_false]
  split
  · exact ⟨hwt, hdealt, hunset, hxs ▸ hall⟩
  · have hfree' : ∀ p ∈ es, p.isFilled t.slots = false := fun p hp =>
      isFilled_of_unset (hunset p.slot (h.slot_notMem hp))
    rw [hxs]
    refine (h.idle_passes hwt hdealt hfree').imp fun xs u hu => ?_
    refine ⟨hwt.congr hu.1, fun j i hj => ?_, fun i hi => ?_, hu.2 ▸ hall⟩
    · rw [hu.1.get_eq, hdealt j i hj]
    · rw [hu.1.get_eq, hunset i hi]

/-! ## The loan -/

/-- The words that the borrowers want can be lent, and fit them. -/
def Pays (kind : GroupKind) (children : List Pattern) (es : List Positional) (ws : List String) : Prop :=
  CanLend (slots children).length ws.length es.length kind ∧ FitAll es (ws.drop (ws.length - es.length))

/-- The group keeps the first words, and everything behind it holds the last ones. -/
structure Paid (children : List Pattern) (es : List Positional) (ws : List String) (σ : Slots) : Prop where
  lenders : Dealt (slots children) (ws.take (ws.length - es.length)) σ
  borrowers : ∀ (j : Nat) (p : Positional) (w : String), es[j]? = some p →
    ws[ws.length - es.length + j]? = some w → σ.get p.slot = p.record false w .unset

theorem lends (hdealt : Dealt (slots children) ws s.slots)
    (hfree : ∀ p ∈ es, p.isFilled s.slots = false)
    (hround : kind = .required → (slots children).length ∣ ws.length ∧ ws ≠ []) :
    (Lending.lend (.group kind children true :: es.map (·.pattern))).Yields s (fun b t =>
      t.argv = s.argv ∧ (b = true ↔ Pays kind children es ws) ∧ (b = true → Paid children es ws t.slots))
      fun _ _ => False := by
  have hg : Lending.isSatisfied s.slots (.group kind children true) = true := by
    cases kind with
    | optional => rfl
    | required =>
      obtain ⟨hdvd, hne⟩ := hround rfl
      refine Lending.areSatisfied_of_forall fun c hc => (h.children_nest c hc).isSatisfied fun i hi => ?_
      obtain ⟨j, hj⟩ := List.mem_iff_getElem?.mp (Pattern.mem_slots_of_mem hc hi)
      have hrounds := Nat.div_pos (Nat.le_of_dvd (List.length_pos_iff.mpr hne) hdvd)
        (List.length_pos_iff.mpr h.lenders_ne)
      apply Slot.hasText_of_size_pos
      rw [hdealt.size_eq hj]
      omega
  have hloan := Lending.loan?_of_free h.borrowers_ne h.lenders_ne hg h.children_nest hfree
  obtain ⟨hnone, hsome⟩ := Lending.texts?_of_dealt ⟨kind, slots children, es⟩ h.lenders_nodup
    h.lenders_ne h.borrowers_ne hdealt fun hk => (hround hk).1
  simp only [Lending.lend, MatchM.yields_bind, MatchM.yields_slots, hloan]
  cases htexts : Lending.Loan.texts? ⟨kind, slots children, es⟩ s.slots with
  | none =>
    have hpays : ¬ Pays kind children es ws := fun hpays => hnone.mp htexts hpays.1
    exact ⟨rfl, iff_of_false Bool.false_ne_true hpays, fun hb => absurd hb Bool.false_ne_true⟩
  | some r =>
    obtain ⟨texts, left⟩ := r
    obtain ⟨rfl, hleft⟩ := hsome texts left htexts
    have hcan : CanLend (slots children).length ws.length es.length kind := by
      by_contra hcan
      rw [hnone.mpr hcan] at htexts
      cases htexts
    have hlen : (ws.drop (ws.length - es.length)).length = es.length :=
      Lending.Loan.length_texts? h.lenders_nodup h.borrowers_ne htexts
    obtain ⟨new, hpops, -⟩ := Lending.Loan.texts?_pops htexts
    have hfree' : ∀ p ∈ es, p.isFilled left = false := fun p hp =>
      (Positional.isFilled_congr (hpops.get_of_notMem (h.slot_notMem hp))).trans (hfree p hp)
    simp only [MatchM.yields_bind, MatchM.yields_setSlots, MatchM.yields_argv, MatchM.yields_onStream]
    refine (borrows_words h.borrowers_nodup hfree' hlen).imp fun b t ht => ?_
    obtain ⟨hfit, hgets⟩ := ht
    cases b with
    | false =>
      have hpays : ¬ Pays kind children es ws := fun hpays => Bool.false_ne_true (hfit.mpr hpays.2)
      exact ⟨rfl, iff_of_false Bool.false_ne_true hpays, fun hb => absurd hb Bool.false_ne_true⟩
    | true =>
      obtain ⟨hborrowers, hothers⟩ := hgets rfl
      refine ⟨rfl, ⟨fun _ => ⟨hcan, hfit.mp rfl⟩, fun _ => rfl⟩, fun _ => ⟨fun j i hj => ?_, ?_⟩⟩
      · have hi : i ∉ es.map (·.slot) := fun hmem => by
          obtain ⟨p, hp, rfl⟩ := List.mem_map.mp hmem
          exact h.slot_notMem hp (List.mem_of_getElem? hj)
        exact (hothers i hi).trans (hleft j i hj)
      · intro j p w hp hw
        rw [← List.getElem?_drop] at hw
        exact hborrowers j p w hp hw

/-- Without texts, there is nothing to lend. -/
theorem lend_of_unset (hblank : ∀ i, s.slots.get i = .unset) :
    Lending.lend (.group kind children true :: es.map (·.pattern)) s = .ok false s := by
  have hfree : ∀ p ∈ es, p.isFilled s.slots = false := fun p _ => isFilled_of_unset (hblank p.slot)
  cases hg : Lending.isSatisfied s.slots (.group kind children true) with
  | false =>
    have hnone : Lending.loan? s.slots (.group kind children true :: es.map (·.pattern)) = none := by
      obtain ⟨p, es', hes⟩ := List.exists_cons_of_ne_nil h.borrowers_ne
      rw [hes, List.map_cons]
      simp [Lending.loan?, hg]
    simp only [Lending.lend, MatchM.slots_bind, hnone]
    rfl
  | true =>
    have hloan := Lending.loan?_of_free h.borrowers_ne h.lenders_ne hg h.children_nest hfree
    have hnone : Lending.Loan.texts? ⟨kind, slots children, es⟩ s.slots = none := by
      cases htexts : Lending.Loan.texts? ⟨kind, slots children, es⟩ s.slots with
      | none => rfl
      | some r =>
        obtain ⟨texts, left⟩ := r
        obtain ⟨new, hpops, hperm⟩ := Lending.Loan.texts?_pops htexts
        have hlen := Lending.Loan.length_texts? h.lenders_nodup h.borrowers_ne htexts
        have hpos := List.length_pos_iff.mpr h.borrowers_ne
        cases hpops with
        | nil =>
          obtain rfl := hperm.nil_eq
          exact absurd hlen.symm (Nat.ne_of_gt hpos)
        | cons _ hpop _ =>
          obtain ⟨left, hpop, -⟩ := Lending.popText?_eq_some hpop
          rw [hblank] at hpop
          cases hpop
    simp only [Lending.lend, MatchM.slots_bind, hloan, hnone]
    rfl

theorem not_pays_nil : ¬ Pays kind children es [] := by
  have hpos := List.length_pos_iff.mpr h.borrowers_ne
  rintro ⟨hcan, -⟩
  cases kind with
  | optional => exact absurd hcan (Nat.not_le_of_gt hpos)
  | required =>
    obtain ⟨-, hle⟩ := hcan
    rw [List.length_nil] at hle
    omega

/-! ## The line -/

theorem matches_of_nil (hnil : s.argv.tokens = []) (hblank : ∀ i, s.slots.get i = .unset) :
    (matchPattern scope n false
      (.group .required (.group kind children true :: es.map (·.pattern)) false)).Runs s fun b _ =>
        b = false := by
  cases n with
  | zero => exact rfl
  | succ n =>
    have hempty : s.argv.isEmpty = true := List.isEmpty_iff.mpr hnil
    rw [matchPattern_once]
    simp only [MatchM.Runs, matchOnce, matchLine, scanLine, scanPasses, List.map_cons, map_start_waiting,
      MatchM.yields_restoring, MatchM.yields_bind, MatchM.yields_argv, hempty, if_true, MatchM.yields_pure,
      List.all_cons, all_waiting h.borrowers_ne, Bool.and_false, Bool.false_eq_true, if_false]
    exact .of_eq_ok (h.lend_of_unset hblank) trivial

/-- All words are taken, and the line matches if the loan is made. -/
theorem matches_line (hw : s.Words front ts) (hfront : ts = [] → front = [])
    (hmode : Pattern.Deals kind children ts.length) (hblank : ∀ i, s.slots.get i = .unset) :
    (matchPattern scope n false
      (.group .required (.group kind children true :: es.map (·.pattern)) false)).Runs s fun b t =>
        (b = true ↔ Pays kind children es (ts.map (·.text))) ∧
        (b = true → t.Words front [] ∧ Paid children es (ts.map (·.text)) t.slots) := by
  by_cases hts : ts = []
  · subst hts
    have hnil : s.argv.tokens = [] := by
      rw [hw.tokens, hfront rfl, List.append_nil]
    refine (h.matches_of_nil hnil hblank).imp ?_
    rintro _ t rfl
    exact ⟨iff_of_false Bool.false_ne_true h.not_pays_nil, fun hb => absurd hb Bool.false_ne_true⟩
  cases n with
  | zero => exact rfl
  | succ n =>
    rw [matchPattern_once]
    simp only [MatchM.Runs, matchOnce, matchLine, MatchM.yields_restoring, MatchM.yields_bind]
    refine (h.scans hw hts hmode hblank).imp fun xs t ht => ?_
    obtain ⟨hwt, hdealt, hunset, hall⟩ := ht
    rw [hall, if_neg Bool.false_ne_true]
    have hfree : ∀ p ∈ es, p.isFilled t.slots = false := fun p hp =>
      isFilled_of_unset (hunset p.slot (h.slot_notMem hp))
    have hround : kind = .required →
        (slots children).length ∣ (ts.map (·.text)).length ∧ ts.map (·.text) ≠ [] := by
      rintro rfl
      rw [List.length_map, Ne, List.map_eq_nil_iff]
      exact ⟨hmode.resolve_right fun hopt => GroupKind.noConfusion hopt.1, hts⟩
    refine (h.lends hdealt hfree hround).mono (fun b u hu => ?_) fun _ _ h => h.elim
    obtain ⟨hargv, hpays, hpaid⟩ := hu
    cases b with
    | false => exact ⟨hpays, fun hb => absurd hb Bool.false_ne_true⟩
    | true =>
      have hwu : u.Words front [] := ⟨hargv ▸ hwt.tokens, hargv ▸ hwt.front, List.forall_mem_nil _⟩
      exact ⟨by simpa using hpays, fun _ => ⟨hwu, hpaid rfl⟩⟩

end Ellipsis

end Synopsis
