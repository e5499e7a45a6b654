import Synopsis.Proofs.Matcher.Receipts

/-! # Patterns around parts

What holds of the runs of some parts holds of the groups and shortcuts around them, if it is
carried along by scans, and kept by the loans and repetitions of those groups.
-/

namespace Synopsis

open Pattern (Reaches)

/-- A pattern made of parts, in groups of a kind and behind shortcuts. -/
inductive Pattern.Built (scope : Scope) (part : Pattern → Prop)
    (line : GroupKind → List Pattern → Bool → Prop) : Pattern → Prop
  | part {p : Pattern} (h : part p) : Built scope part line p
  | group {kind : GroupKind} {ps : List Pattern} {repeats : Bool} (hl : line kind ps repeats)
      (h : ∀ c ∈ ps, Built scope part line c) : Built scope part line (.group kind ps repeats)
  | shortcut {sc : Shortcut} (h : ∀ e ∈ scope.visible sc, Built scope part line e) :
      Built scope part line (.shortcut sc)

/-- A relation that the runs of some parts carry to the patterns around them. -/
structure Carries (scope : Scope) (part : Pattern → Prop)
    (line : GroupKind → List Pattern → Bool → Prop)
    (C : Attempt → List Move → Attempt → Prop) : Prop where
  still {s t : Attempt} (hst : Steady s t) (ht : t.argv.tokens = s.argv.tokens)
    (hs : t.slots = s.slots) : C s [] t
  trans {s t u : Attempt} {log log' : List Move} (h : C s log t) (h' : C t log' u) :
    C s (log ++ log') u
  part {p : Pattern} {n : ℕ} {s t : Attempt} {log : List Move} {b : Bool} (hp : part p)
    (h : Run scope n false p s log b t) : C s log t
  lend {kind : GroupKind} {ps : List Pattern} {repeats : Bool} {s t : Attempt}
    (hl : line kind ps repeats) (h : Lending.Lends ps s t) : C s [] t
  repeats {kind : GroupKind} {ps : List Pattern} {once : Step} {leaves : List Recorded}
    {history : List Slots} {s t : Attempt} {log : List Move} (hl : line kind ps true)
    (hr : ∀ r, r ∈ leaves ↔ ∃ q, Reaches scope (.group kind ps true) q ∧ q.ownRecord? = some r)
    (ho : ∀ s log b t, once s log b t → C s log t)
    (hu : ∀ s log t, once s log false t → Undone s log t)
    (hp : RepeatPasses once leaves [] s log history t) (hh : history ≠ []) :
    C s log ⟨Recorded.mergeAll leaves (s.slots :: history.reverse) t.slots, t.argv⟩

variable {scope : Scope} {part : Pattern → Prop} {line : GroupKind → List Pattern → Bool → Prop}
  {C : Attempt → List Move → Attempt → Prop} {p : Pattern} {n i : ℕ} {s t : Attempt}
  {log : List Move} {b : Bool}

theorem Run.steady (h : Run scope n false p s log b t) : Steady s t :=
  ((Replays.closed scope).run_steady (fun _ _ => trivial) h).2

theorem Run.replays (h : Run scope n false p s log b t) : Replays s.argv log t.argv :=
  (Replays.closed scope).run (fun _ _ => trivial) h

theorem Carries.chains (hC : Carries scope part line C) : Chains C where
  refl _ := hC.still .refl rfl rfl
  trans := hC.trans
  aim _ _ := hC.still ⟨rfl, rfl, fun h => ⟨h, rfl⟩⟩ rfl rfl

theorem Carries.onceRun {kind : GroupKind} {ps : List Pattern} {repeats : Bool}
    (hC : Carries scope part line C) (hl : line kind ps repeats)
    (hR : ∀ c ∈ ps, ∀ s log b t, Run scope n false c s log b t → C s log t)
    (h : OnceRun (Run scope n false) ps kind s log b t) : C s log t := by
  have hsteady : Steady s t :=
    Run.steady (n := n + 1) (p := .group kind ps false) h
  cases h with
  | optional scan => exact hC.chains.scan hR scan
  | required run =>
    cases run with
    | matched scan => exact hC.chains.scan hR scan
    | lent scan _ hlent =>
      have hboth := hC.trans (hC.chains.scan hR scan) (hC.lend hl hlent)
      rwa [List.append_nil] at hboth
    | failed => exact hC.still hsteady rfl rfl

theorem Pattern.Built.run (hp : Built scope part line p) (hC : Carries scope part line C)
    (h : Run scope n false p s log b t) : C s log t := by
  induction hp generalizing n s log b t with
  | part hp => exact hC.part hp h
  | @group kind ps repeats hl _ ih =>
    cases n with
    | zero => exact h.elim
    | succ n =>
      have once {s log b t} (h : OnceRun (Run scope n false) ps kind s log b t) : C s log t :=
        hC.onceRun hl (fun c hc _ _ _ _ run => ih c hc run) h
      cases repeats with
      | false => exact once h
      | true =>
        have hsteady := h.steady
        obtain ⟨leaves, matched, hleaves, h, -⟩ := h
        cases h with
        | none passes =>
          obtain ⟨hu, -⟩ := (RepeatRun.none passes).undone
          exact hu.log_eq ▸ hC.still hsteady hu.tokens_eq hu.slots_eq
        | some passes hh =>
          refine hC.repeats hl (fun _ => Pattern.mem_recorded_iff hleaves) (fun _ _ _ _ => once)
            ?_ passes hh
          intro _ _ _ h
          exact h.undone.1
  | shortcut _ ih =>
    cases n with
    | zero => exact h.elim
    | succ n =>
      exact hC.chains.entries (fun e he _ _ _ _ run => ih e he run) h.1 fun _ => id

/-! ## Texts over all passes -/

/-- A trail of texts between streams. -/
structure Trail (Good : Argv → Prop) (G : Argv → List Move → List String → Argv → Prop) :
    Prop where
  refl {a : Argv} (ha : Good a) : G a [] [] a
  trans {a b c : Argv} {log log' : List Move} {xs ys : List String} (h : G a log xs b)
    (h' : G b log' ys c) : G a (log ++ log') (xs ++ ys) c
  good {a b : Argv} {log : List Move} {xs : List String} (ha : Good a) (h : G a log xs b) : Good b

namespace Trail

variable {Good : Argv → Prop} {G : Argv → List Move → List String → Argv → Prop} {once : Step}
  {leaves : List Recorded} {history history' : List Slots} (hG : Trail Good G)
  (ho : ∀ s log b t, Good s.argv → once s log b t →
    ∃ xs, G s.argv log xs t.argv ∧ (t.slots.get i).texts = (s.slots.get i).texts ++ xs)
  (hu : ∀ s log t, once s log false t → Undone s log t)
include hG ho hu

/-- What the passes add to a slot is added to what is reckoned of the history. -/
theorem passes {R : List Slots → Slots → List String}
    (pass : ∀ history s t xs,
      (t.get i).texts = ((Recorded.clearAll leaves s).get i).texts ++ xs →
        R (t :: history) t = R history s ++ xs)
    (failed : ∀ history s, R history (Recorded.clearAll leaves s) = R history s)
    (hs : Good s.argv) (h : RepeatPasses once leaves history s log history' t) :
    ∃ xs, G s.argv log xs t.argv ∧ R history' t.slots = R history s.slots ++ xs := by
  have step {s t : Attempt} {log : List Move} {b : Bool} (hs : Good s.argv)
      (run : once (s.cleared leaves) log b t) : ∃ xs, G s.argv log xs t.argv ∧
        (t.slots.get i).texts = ((Recorded.clearAll leaves s.slots).get i).texts ++ xs :=
    ho (s.cleared leaves) log b t hs run
  induction h with
  | empty => exact ⟨[], hG.refl hs, (List.append_nil _).symm⟩
  | failed _ run =>
    obtain ⟨xs, hxs, htexts⟩ := step hs run
    have hundone := hu _ _ _ run
    obtain rfl : xs = [] := by
      rw [hundone.slots_eq] at htexts
      exact List.self_eq_append_right.mp htexts
    refine ⟨[], hundone.log_eq ▸ hxs, ?_⟩
    rw [List.append_nil, hundone.slots_eq]
    exact failed _ _
  | still _ run =>
    obtain ⟨xs, hxs, htexts⟩ := step hs run
    exact ⟨xs, hxs, pass _ _ _ _ htexts⟩
  | again _ run _ _ ih =>
    obtain ⟨xs, hxs, htexts⟩ := step hs run
    obtain ⟨ys, hys, hrest⟩ := ih (hG.good hs hxs)
    refine ⟨xs ++ ys, hG.trans hxs hys, ?_⟩
    rw [hrest, pass _ _ _ _ htexts, List.append_assoc]

/-- A slot of texts holds the texts of all passes behind each other. -/
theorem repeats (hi : ∀ r ∈ leaves, r.slot = i → r = ⟨.texts, i⟩) (hs : Good s.argv)
    (h : RepeatPasses once leaves [] s log history t) :
    ∃ xs, G s.argv log xs t.argv ∧
      ((Recorded.mergeAll leaves (s.slots :: history.reverse) t.slots).get i).texts =
        (s.slots.get i).texts ++ xs := by
  by_cases hm : ⟨.texts, i⟩ ∈ leaves
  · have hunique : ∀ r ∈ leaves, r.slot = (⟨.texts, i⟩ : Recorded).slot → r = ⟨.texts, i⟩ := hi
    have hcleared (s : Slots) : ((Recorded.clearAll leaves s).get i).texts = [] := by
      have hget : (Recorded.clearAll leaves s).get i = _ := Recorded.get_clearAll hm hunique
      rw [hget]
      cases s.get i <;> rfl
    obtain ⟨xs, hxs, htexts⟩ := hG.passes ho hu
      (R := fun history _ => history.reverse.flatMap fun h => (h.get i).texts)
      (fun history s t xs ht => by
        rw [hcleared, List.nil_append] at ht
        simp [ht]) (fun _ _ => rfl) hs h
    refine ⟨xs, hxs, ?_⟩
    have hget : (Recorded.mergeAll leaves (s.slots :: history.reverse) t.slots).get i = _ :=
      Recorded.get_mergeAll hm hunique
    have hmerged (xs : List Slot) :
        ((⟨.texts, i⟩ : Recorded).merged xs).texts = xs.flatMap Slot.texts := rfl
    rw [hget, hmerged, List.map_cons, List.flatMap_cons, List.flatMap_map]
    exact congrArg (_ ++ ·) htexts
  · have hne : ∀ r ∈ leaves, r.slot ≠ i := fun r hr he => hm (hi r hr he ▸ hr)
    obtain ⟨xs, hxs, htexts⟩ := hG.passes ho hu (R := fun _ s => (s.get i).texts)
      (fun _ s _ _ ht => by rwa [Recorded.get_clearAll_of_forall_ne hne] at ht)
      (fun _ s => by rw [Recorded.get_clearAll_of_forall_ne hne]) hs h
    exact ⟨xs, hxs, by rw [Recorded.get_mergeAll_of_forall_ne hne]; exact htexts⟩

end Trail

end Synopsis
