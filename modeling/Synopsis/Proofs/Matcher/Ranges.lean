import Synopsis.Proofs.Matcher.Budget

/-! # Calls keep within their means

What a call has counted and what its stream is worth is covered by what the match began with,
also while the passes of a repetition, the value of an option or a loan are under way.
-/

namespace Synopsis

open Pattern (Reaches)

variable {T : Tally Nat} {F : Tariff T} {all : List Pattern} {scope : Scope} {s t u : Attempt}
  {log : List Move} {p : Pattern}

/-- What is counted, and what can still be paid. -/
def Tariff.holdings (F : Tariff T) (all : List Pattern) (s : Attempt) : Nat :=
  T.total all s.slots + F.worth s.argv.style s.argv.tokens

namespace Affords

theorem holdings_le (h : Affords F all s log t) (hs : Tokenized s.argv.tokens) :
    F.holdings all t ≤ F.holdings all s := by
  rw [Tariff.holdings, Tariff.holdings, h.style_eq]
  exact h.paid hs

section Calls

variable {n : Nat} {counting repeats : Bool} {kind : GroupKind} {children : List Pattern}
  (hall : (all.filterMap Pattern.slot?).Nodup)
include hall

theorem of_answers {b : Bool} (hL : ∀ q, Reaches scope p q → Listed all q)
    (h : answers scope n counting p s log b t) : Affords F all s log t ∧ Steady s t := by
  obtain ⟨_, run⟩ := run_of_matchPattern h
  obtain ⟨hafford, hsteady⟩ := (closed (F := F) hall).run_steady hL run
  exact ⟨hafford, hsteady⟩

/-- Clearing leaves forgets what they counted. -/
theorem starts (hL : ∀ q, Reaches scope (.group kind children repeats) q → Listed all q)
    (h : Starts scope n counting kind children repeats s t) : Affords F all s [] t := by
  cases h with
  | once => exact .still rfl rfl le_rfl
  | @pass _ leaves _ hl starts =>
    have ha : Among all leaves := by
      refine ⟨hall, fun r hr => ?_⟩
      obtain ⟨q, hq, hqr⟩ := (Pattern.mem_recorded_iff hl).mp hr
      exact ⟨q, hL q hq r.slot (by simp [Pattern.slot?, hqr]), hqr⟩
    have cleared (s : Attempt) : Affords F all s [] (s.cleared leaves) :=
      .still rfl rfl ((Nat.le_add_right _ _).trans_eq (T.total_clearAll ha))
    have hC : Closed scope (Listed all) (Affords F all) := closed hall
    have once {s t : Attempt} {log : List Move} {b : Bool}
        (run : OnceRun (answers scope n false) children kind s log b t) : Affords F all s log t :=
      (hC.onceRun (fun p hp _ _ _ _ => of_answers hall fun q hq => hL q (.child hp hq)) hL run).1
    induction starts with
    | here => exact cleared _
    | next _ run _ _ ih => exact (cleared _).trans ((once run).trans ih)

end Calls

end Affords

theorem OptionOf.Offers.rules_eq {found : Argv.Found} (h : Offers p found s u) :
    u.slots = s.slots ∧ u.argv.style = s.argv.style := by
  cases h with
  | attached | separate => exact ⟨rfl, rfl⟩
  | stacked _ _ ha =>
    subst ha
    exact ⟨rfl, rfl⟩

/-- A value is offered a part of what its flag did not cost. -/
theorem OptionOf.Offers.worth_le (F : Tariff T) {names : Names} {found : Argv.Found} {a : Argv}
    {slots : Slots} (hs : Tokenized s.argv.tokens)
    (hf : s.argv.takeOption? names = some (found, a)) (h : Offers p found ⟨slots, a⟩ u) :
    Tokenized u.argv.tokens ∧
      F.fee + F.worth s.argv.style u.argv.tokens ≤ F.worth s.argv.style s.argv.tokens := by
  obtain ⟨-, xs, x, ys, htokens, hk, hstream⟩ := h.stream hs hf
  have hd := hs.flags x (by simp [htokens]) hk
  have hprice (text : String) := F.attached s.argv.style hk hd text
  have hfee := Nat.le_of_add_right_le (hprice "")
  rw [htokens] at hs ⊢
  simp only [Tariff.worth_append, Tariff.worth_cons]
  rcases hstream with hu | hu | ⟨text, hu⟩ <;> rw [hu]
  · refine ⟨hs.sublist ((List.sublist_cons_self _ _).trans (List.sublist_append_right _ _)), ?_⟩
    omega
  · refine ⟨⟨nofun, .nil⟩, ?_⟩
    rw [Tariff.worth_nil]
    omega
  · refine ⟨.value text, ?_⟩
    have := hprice text
    rw [Tariff.worth_cons, Tariff.worth_nil]
    omega

/-- A call on a stream in order that has counted, and can count, no more than a budget. -/
structure Call.Solvent (F : Tariff T) (all : List Pattern) (scope : Scope) (budget : Nat)
    (c : Call) : Prop where
  tokenized : Tokenized c.state.argv.tokens
  listed : ∀ q, Reaches scope c.pattern q → Listed all q
  within : F.holdings all c.state ≤ budget

namespace Call.Solvent

variable {budget : Nat} {c d : Call} {b : Bool}

theorem of_affords (h : c.Solvent F all scope budget) (hd : Reaches scope c.pattern d.pattern)
    (ha : Affords F all c.state [] d.state) : d.Solvent F all scope budget where
  tokenized := ha.tokenized h.tokenized
  listed q hq := h.listed q (hd.trans hq)
  within := (ha.holdings_le h.tokenized).trans h.within

section Steps

variable (hall : (all.filterMap Pattern.slot?).Nodup)
include hall

theorem total_hit {o : OptionAtom} {found : Argv.Found} {a : Argv}
    (h : c.Solvent F all scope budget) (ho : c.pattern = .option o)
    (hf : c.state.argv.takeOption? o.names = some (found, a)) :
    T.total all (c.state.slots.modify o.slot (Slot.hit c.counting)) ≤ budget := by
  obtain ⟨x, hx, hk, -, -⟩ := Argv.exists_of_takeOption? hf
  have hhit := Affords.total_hit (F := F) hall c.counting
    (h.listed _ (ho ▸ .refl) o.slot rfl) c.state.slots
  have hd := h.tokenized.flags x (List.mem_of_getElem? hx) hk
  have hprice := F.attached c.state.argv.style hk hd ""
  have hworth : F.worth c.state.argv.style _ + F.price c.state.argv.style x =
      F.worth c.state.argv.style c.state.argv.tokens := F.worth_eraseIdx hx
  have hwithin := h.within
  rw [Tariff.holdings] at hwithin
  omega

theorem makes (h : c.Solvent F all scope budget) (hm : c.Makes scope d) :
    d.Solvent F all scope budget := by
  have hR {n : Nat} {counting : Bool} {ps : List Pattern} (hps : ∀ p ∈ ps, Reaches scope c.pattern p)
      (p : Pattern) (hp : p ∈ ps) (s : Attempt) (log : List Move) (b : Bool) (t : Attempt)
      (run : answers scope n counting p s log b t) : Affords F all s log t ∧ Steady s t :=
    Affords.of_answers hall (fun q hq => h.listed q ((hps p hp).trans hq)) run
  have hC : Closed scope (Listed all) (Affords F all) := Affords.closed hall
  have hreaches := hm.reaches
  cases hm with
  | @value n counting o p k s u found a _ _ hf offers =>
    obtain ⟨-, -, -, -, rfl⟩ := Argv.exists_of_takeOption? hf
    obtain ⟨hs, hoffer⟩ := offers.worth_le F h.tokenized hf
    obtain ⟨hslots, hstyle⟩ := offers.rules_eq
    have hhit := Affords.total_hit (F := F) hall counting
      (h.listed _ .refl o.slot rfl) s.slots
    refine ⟨hs, fun q hq => h.listed q (hreaches.trans hq), ?_⟩
    calc F.holdings all u
      _ = T.total all (s.slots.modify o.slot (Slot.hit counting)) +
          F.worth s.argv.style u.argv.tokens := by rw [Tariff.holdings, hslots, hstyle]; rfl
      _ ≤ T.total all s.slots + F.fee + F.worth s.argv.style u.argv.tokens :=
        Nat.add_le_add_right hhit _
      _ = T.total all s.slots + (F.fee + F.worth s.argv.style u.argv.tokens) := Nat.add_assoc _ _ _
      _ ≤ F.holdings all s := Nat.add_le_add_left hoffer _
      _ ≤ budget := h.within
  | child starts tries =>
    obtain ⟨-, _, htries⟩ := hC.scanTries (hR fun p hp => .child hp .refl) tries
    exact h.of_affords hreaches ((Affords.starts hall h.listed starts).trans htries)
  | @borrower n counting repeats children p k s t u v log xs starts scan _ tries =>
    have hbefore : Affords F all s [] u := (Affords.starts hall h.listed starts).trans
      (hC.scan (hR fun p hp => .child hp .refl) scan).1
    obtain ⟨hloan, ht, hb⟩ := tries
    obtain ⟨hlent, hborrowers⟩ := Affords.loan (F := F) hall u.argv.style
      (fun q hq => by
        obtain ⟨c, hc, hq⟩ := List.mem_flatMap.mp hq
        exact h.listed q (.child hc (Pattern.reaches_of_mem_atoms hq))) hloan ht
    have hborrowed := Affords.borrowsTries (F := F) hall hborrowers hb
    refine ⟨hborrowed.tokenized (Argv.tokenized_ofValues _ _), fun q hq => h.listed q (hreaches.trans hq), ?_⟩
    calc F.holdings all v
      _ ≤ _ := hborrowed.holdings_le (Argv.tokenized_ofValues _ _)
      _ ≤ _ := hlent
      _ ≤ F.holdings all u := Nat.le_add_right _ _
      _ ≤ F.holdings all s := hbefore.holdings_le h.tokenized
      _ ≤ budget := h.within
  | branch tries =>
    obtain ⟨-, _, htries⟩ := hC.eitherTries (hR fun p hp => .branch hp .refl) tries fun _ => id
    exact h.of_affords hreaches htries
  | entry tries =>
    obtain ⟨-, _, htries⟩ := hC.entriesTries (hR fun p hp => .entry hp .refl) tries fun _ => id
    exact h.of_affords hreaches htries

theorem leadsTo (h : c.Solvent F all scope budget) (hl : c.LeadsTo scope d) :
    d.Solvent F all scope budget := by
  induction hl with
  | refl => exact h
  | tail _ hm ih => exact ih.makes hall hm

theorem total_answer (h : c.Solvent F all scope budget) (ha : c.answer scope = .ok b t) :
    T.total all t.slots ≤ budget := by
  have hanswer : answers scope c.fuel c.counting c.pattern c.state [] b t := ha
  have hafford : Affords F all c.state [] t := (Affords.of_answers hall h.listed hanswer).1
  exact (Nat.le_add_right _ _).trans ((hafford.holdings_le h.tokenized).trans h.within)

end Steps

end Call.Solvent

end Synopsis
