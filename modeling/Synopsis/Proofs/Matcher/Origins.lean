import Synopsis.Proofs.Matcher.Frame
import Synopsis.Proofs.Matcher.Points

/-! # Where slots are filled

When a call fills a slot, it does so at the leaf of the slot, by a loan, or through a call
that it makes and that fills the slot. A chain of such calls leads from a match down to
each leaf that took something.
-/

namespace Synopsis

/-! ## Slots that hold something -/

/-- The leaf was met, or took a text. -/
def Slot.isSet (s : Slot) : Bool := s.isTruthy || s.hasText

theorem Slot.isSet_of_popText? {s left : Slot} {text : String} (h : s.popText? = some (text, left)) :
    s.isSet = true := by
  cases s with
  | text => simp [isSet, hasText]
  | list items =>
    obtain ⟨_, hi, -⟩ := Option.map_eq_some_iff.mp h
    cases items with
    | nil => cases hi
    | cons => rfl
  | unset | flag | count => cases h

namespace Recorded

variable {rs : List Recorded} {slots : Slots} {history : List Slots} {i : Nat}

theorem isSet_cleared (r : Recorded) (s : Slot) : (r.cleared s).isSet = false := by
  obtain ⟨kind, i⟩ := r
  cases kind <;> cases s <;> rfl

theorem isSet_of_merged {r : Recorded} {history : List Slot} (h : (r.merged history).isSet = true) :
    ∃ s ∈ history, s.isSet = true := by
  obtain ⟨kind, i⟩ := r
  by_contra hnone
  have hunset : ∀ s ∈ history, s.count?.getD 0 = 0 ∧ s.texts = [] := by
    intro s hs
    have hs : s.isSet = false := by simpa using fun he => hnone ⟨s, hs, he⟩
    cases s <;> simp_all [Slot.isSet, Slot.isTruthy, Slot.hasText, Slot.count?, Slot.texts]
  have hsum : history.foldr (fun s n => s.count?.getD 0 + n) 0 = 0 := by
    clear hnone h
    induction history with
    | nil => rfl
    | cons s history ih =>
      obtain ⟨hs, hrest⟩ := List.forall_mem_cons.mp hunset
      rw [List.foldr_cons, hs.1, ih hrest]
  have htexts : history.flatMap Slot.texts = [] :=
    List.flatMap_eq_nil_iff.mpr fun s hs => (hunset s hs).2
  cases kind with
  | hits => simp [merged, hsum, Slot.isSet, Slot.isTruthy, Slot.hasText] at h
  | texts => simp [merged, htexts, Slot.isSet, Slot.isTruthy, Slot.hasText] at h

theorem isSet_clearAll (h : (slots.get i).isSet = false) :
    ((clearAll rs slots).get i).isSet = false := by
  induction rs generalizing slots with
  | nil => exact h
  | cons r rs ih =>
    rw [clearAll, List.foldl_cons]
    refine ih ?_
    rw [Slots.get_modify]
    split
    · exact r.isSet_cleared _
    · exact h

theorem isSet_of_mergeAll (h : ((mergeAll rs history slots).get i).isSet = true) :
    (∃ s ∈ history, (s.get i).isSet = true) ∨ (slots.get i).isSet = true := by
  induction rs generalizing slots with
  | nil => exact .inr h
  | cons r rs ih =>
    rw [mergeAll, List.foldl_cons] at h
    rcases ih h with h | h
    · exact .inl h
    rw [Slots.get_set] at h
    split at h
    next he =>
      obtain ⟨s, hs, hset⟩ := isSet_of_merged h
      obtain ⟨slots', hslots', rfl⟩ := List.mem_map.mp hs
      exact .inl ⟨slots', hslots', he ▸ hset⟩
    next => exact .inr h

end Recorded

/-! ## Tries that fill a slot -/

variable {R : Pattern → Step} {i : Nat} {s t : Attempt} {log : List Move} {line : List Pattern}

/-- A try of a pattern fills a slot. -/
def Step.Fills (R : Pattern → Step) (i : Nat) (p : Pattern) (s : Attempt) : Prop :=
  (s.slots.get i).isSet = false ∧ ∃ log b t, R p s log b t ∧ (t.slots.get i).isSet = true

theorem Pass.exists_fills {place : Nat} {last last' : Option Nat} {xs ys : List Scanned}
    (h : Pass R place last xs s log last' ys t) (hs : (s.slots.get i).isSet = false)
    (ht : (t.slots.get i).isSet = true) :
    ∃ x ∈ xs, ∃ u, Pass.Tries R place last xs s x.pattern u ∧ Step.Fills R i x.pattern u := by
  induction h with
  | nil | empty => simp_all
  | @hit s u t log log' place last last' x xs ys hn run rest ih =>
    cases hu : (u.slots.get i).isSet with
    | true => exact ⟨x, List.mem_cons_self, _, .here hn, hs, _, _, _, run, hu⟩
    | false =>
      obtain ⟨y, hy, v, htries, hfills⟩ := ih hu ht
      exact ⟨y, List.mem_cons_of_mem _ hy, v, .hit hn run htries, hfills⟩
  | @miss s u t log log' place last last' x xs ys hn run rest ih =>
    cases hu : (u.slots.get i).isSet with
    | true => exact ⟨x, List.mem_cons_self, _, .here hn, hs, _, _, _, run, hu⟩
    | false =>
      obtain ⟨y, hy, v, htries, hfills⟩ := ih hu ht
      exact ⟨y, List.mem_cons_of_mem _ hy, v, .miss hn run htries, hfills⟩

theorem Pass.patterns_eq {place : Nat} {last last' : Option Nat} {xs ys : List Scanned}
    (h : Pass R place last xs s log last' ys t) : ys.map (·.pattern) = xs.map (·.pattern) := by
  induction h with
  | nil | empty => rfl
  | hit _ _ _ ih | miss _ _ _ ih => rw [List.map_cons, List.map_cons, ih]

theorem Passes.exists_fills {last : Option Nat} {xs ys : List Scanned}
    (h : Passes R last xs s log ys t) (hs : (s.slots.get i).isSet = false)
    (ht : (t.slots.get i).isSet = true) :
    ∃ p ∈ xs.map (·.pattern), ∃ u, Passes.Tries R last xs s p u ∧ Step.Fills R i p u := by
  induction h with
  | empty => simp_all
  | still hn pass =>
    obtain ⟨x, hx, u, htries, hfills⟩ := pass.exists_fills hs ht
    exact ⟨_, List.mem_map_of_mem hx, u, .now hn htries, hfills⟩
  | @again s u t log log' last last' xs ys zs hn pass hne rest ih =>
    cases hu : (u.slots.get i).isSet with
    | true =>
      obtain ⟨x, hx, u, htries, hfills⟩ := pass.exists_fills hs hu
      exact ⟨_, List.mem_map_of_mem hx, u, .now hn htries, hfills⟩
    | false =>
      obtain ⟨p, hp, v, htries, hfills⟩ := ih hu ht
      exact ⟨p, pass.patterns_eq ▸ hp, v, .later hn pass hne htries, hfills⟩

theorem Scan.exists_fills {xs : List Scanned} (h : Scan R line s log xs t)
    (hs : (s.slots.get i).isSet = false) (ht : (t.slots.get i).isSet = true) :
    ∃ p ∈ line, ∃ u, Scan.Tries R line s p u ∧ Step.Fills R i p u := by
  obtain ⟨p, hp, u, htries, hfills⟩ := Passes.exists_fills h hs ht
  refine ⟨p, ?_, u, htries, hfills⟩
  rw [List.map_map] at hp
  obtain ⟨q, hq, rfl⟩ := List.mem_map.mp hp
  exact hq

theorem EitherRun.exists_fills {ps : List Pattern} {b : Bool} (h : EitherRun R ps s log b t)
    (hs : (s.slots.get i).isSet = false) (ht : (t.slots.get i).isSet = true) :
    ∃ p ∈ ps, ∃ u, EitherRun.Tries R ps s p u ∧ Step.Fills R i p u := by
  induction h with
  | nil => simp_all
  | hit run => exact ⟨_, List.mem_cons_self, _, .here, hs, _, _, _, run, ht⟩
  | miss run _ ih =>
    obtain ⟨p, hp, u, htries, hfills⟩ := ih hs ht
    exact ⟨p, List.mem_cons_of_mem _ hp, u, .next run htries, hfills⟩

theorem EntriesRun.exists_fills {ps : List Pattern} (h : EntriesRun R ps s log t)
    (hs : (s.slots.get i).isSet = false) (ht : (t.slots.get i).isSet = true) :
    ∃ p ∈ ps, ∃ u, EntriesRun.Tries R ps s p u ∧ Step.Fills R i p u := by
  induction h with
  | nil | empty => simp_all
  | @cons s u t log log' p ps b hn run rest ih =>
    cases hu : (u.slots.get i).isSet with
    | true => exact ⟨p, List.mem_cons_self, _, .here hn, hs, _, _, _, run, hu⟩
    | false =>
      obtain ⟨q, hq, v, htries, hfills⟩ := ih hu ht
      exact ⟨q, List.mem_cons_of_mem _ hq, v, .next hn run htries, hfills⟩

/-- Giving texts away touches no slot that holds nothing. -/
theorem Lending.Pops.get_of_unset {lenders : List Nat} {slots left : Slots} {texts : List String}
    (h : Pops lenders slots texts left) (hs : (slots.get i).isSet = false) :
    left.get i = slots.get i := by
  induction h with
  | nil => rfl
  | @cons u v w j text texts _ hp _ ih =>
    obtain ⟨rest, hrest, rfl⟩ := popText?_eq_some hp
    have hne : i ≠ j := by
      rintro rfl
      rw [Slot.isSet_of_popText? hrest] at hs
      cases hs
    have hsame := Slots.get_set_of_ne (s := u) (v := rest) hne
    rw [ih (hsame ▸ hs), hsame]

/-- A loan fills only what belongs to a borrower. -/
theorem Lending.Lends.exists_borrower (h : Lends line s t) (hs : (s.slots.get i).isSet = false)
    (ht : (t.slots.get i).isSet = true) :
    ∃ loan, loan? s.slots line = some loan ∧ ∃ p ∈ loan.borrowers, p.slot = i := by
  obtain ⟨hl, htexts, hb⟩ := h
  rename_i u loan texts left
  refine ⟨loan, hl, ?_⟩
  by_contra hnone
  obtain ⟨_, hpops, -⟩ := Loan.texts?_pops htexts
  have hget := hb.get_of_forall_ne (i := i) fun p hp he => hnone ⟨p, hp, he⟩
  change u.slots.get i = left.get i at hget
  change (u.slots.get i).isSet = true at ht
  rw [hget, hpops.get_of_unset hs, hs] at ht
  cases ht

/-- A group fills a slot by a try of its line, or by a loan behind it. -/
theorem OnceRun.exists_fills {kind : GroupKind} {b : Bool} (h : OnceRun R line kind s log b t)
    (hs : (s.slots.get i).isSet = false) (ht : (t.slots.get i).isSet = true) :
    (∃ p ∈ line, ∃ u, Scan.Tries R line s p u ∧ Step.Fills R i p u) ∨
      kind = .required ∧ ∃ slots loan, Lending.loan? slots line = some loan ∧
        ∃ p ∈ loan.borrowers, p.slot = i := by
  cases h with
  | optional scan => exact .inl (scan.exists_fills hs ht)
  | required run =>
    cases run with
    | matched scan => exact .inl (scan.exists_fills hs ht)
    | @lent _ u _ _ _ scan _ hl =>
      cases hu : (u.slots.get i).isSet with
      | true => exact .inl (scan.exists_fills hs hu)
      | false => exact .inr ⟨rfl, _, hl.exists_borrower hu ht⟩
    | failed =>
      change (s.slots.get i).isSet = true at ht
      rw [hs] at ht
      cases ht

/-- Some pass fills the slot, since passes start with their leaves cleared. -/
theorem RepeatPasses.exists_fills {once : Step} {leaves : List Recorded}
    {history history' : List Slots} (h : RepeatPasses once leaves history s log history' t)
    (hs : (s.slots.get i).isSet = false) (hh : ∀ x ∈ history, (x.get i).isSet = false)
    (ht : (t.slots.get i).isSet = true ∨ ∃ x ∈ history', (x.get i).isSet = true) :
    ∃ u, RepeatPasses.Starts once leaves s u ∧ (u.slots.get i).isSet = false ∧
      ∃ log b v, once u log b v ∧ (v.slots.get i).isSet = true := by
  induction h with
  | empty =>
    rcases ht with ht | ⟨x, hx, ht⟩
    · simp_all
    · simp_all
  | failed hn run =>
    have hfilled := ht.resolve_right fun ⟨x, hx, ht⟩ => by simp_all
    exact ⟨_, .here hn, Recorded.isSet_clearAll hs, _, _, _, run, hfilled⟩
  | @still s t log history hn run heq =>
    have hfilled : (t.slots.get i).isSet = true := by
      rcases ht with ht | ⟨x, hx, ht⟩
      · exact ht
      · rcases List.mem_cons.mp hx with rfl | hx
        · exact ht
        · simp_all
    exact ⟨_, .here hn, Recorded.isSet_clearAll hs, _, _, _, run, hfilled⟩
  | @again s u t log log' history history' hn run hne rest ih =>
    cases hu : (u.slots.get i).isSet with
    | true => exact ⟨_, .here hn, Recorded.isSet_clearAll hs, _, _, _, run, hu⟩
    | false =>
      obtain ⟨v, hstarts, hfills⟩ := ih hu (List.forall_mem_cons.mpr ⟨hu, hh⟩) ht
      exact ⟨v, .next hn run hne hstarts, hfills⟩

/-! ## Calls that fill a slot -/

/-- A pattern leads to another in one step. -/
inductive Pattern.Steps (scope : Scope) : Pattern → Pattern → Prop
  | value {o : OptionAtom} {v : Pattern} (hv : o.value = some v) : Steps scope (.option o) v
  | child {kind : GroupKind} {children : List Pattern} {repeats : Bool} {c : Pattern}
      (hc : c ∈ children) : Steps scope (.group kind children repeats) c
  | branch {branches : List Pattern} {c : Pattern} (hc : c ∈ branches) :
      Steps scope (.either branches) c
  | entry {sc : Shortcut} {c : Pattern} (hc : c ∈ scope.visible sc) : Steps scope (.shortcut sc) c

namespace Call

variable {scope : Scope} {n : Nat} {counting b : Bool} {c d : Call} {k : StreamKind}

/-- A slot is filled when the call comes to its answer, and was not before. -/
def Fills (scope : Scope) (i : Nat) (c : Call) : Prop :=
  (c.state.slots.get i).isSet = false ∧
    ∃ b t, c.answer scope = .ok b t ∧ (t.slots.get i).isSet = true

theorem fills_of_step {p : Pattern} (h : Step.Fills (answers scope n counting) i p s) :
    Fills scope i ⟨n, counting, p, k, s⟩ := by
  obtain ⟨hs, _, b, t, run, ht⟩ := h
  exact ⟨hs, b, t, run, ht⟩

/-- What fills a slot is its leaf, a loan, or a call that is made. -/
inductive Passes (scope : Scope) (i : Nat) (c : Call) : Prop
  | own (h : c.pattern.slot? = some i)
  | made {d : Call} (makes : c.Makes scope d) (steps : c.pattern.Steps scope d.pattern)
      (lt : d.fuel < c.fuel) (fills : d.Fills scope i)
  | lent {children : List Pattern} {repeats : Bool} {slots : Slots} {loan : Lending.Loan}
      {p : Positional} (hc : c.pattern = .group .required children repeats)
      (hl : Lending.loan? slots children = some loan) (hp : p ∈ loan.borrowers) (hi : p.slot = i)

theorem passes_of_option {o : OptionAtom} (h : Fills scope i ⟨n + 1, counting, .option o, k, s⟩) :
    Passes scope i ⟨n + 1, counting, .option o, k, s⟩ := by
  obtain ⟨hs, b, t, hanswer, ht⟩ := h
  obtain ⟨_, run⟩ := OptionOf.runs_of_run (R := answers scope n counting)
    (fun _ _ _ _ h => ⟨[], h⟩) hanswer
  by_cases hi : o.slot = i
  · exact .own (congrArg some hi)
  cases run with
  | filled | absent => simp_all
  | @found _ _ _ found a hw hf hc =>
    have hit : ((s.slots.modify o.slot (Slot.hit counting)).get i).isSet = false := by
      rwa [Slots.get_modify_of_ne (Ne.symm hi)]
    have made {v : Pattern} {u w : Attempt} {log : List Move} (hv : o.value = some v)
        (offers : OptionOf.Offers v found ⟨s.slots.modify o.slot (Slot.hit counting), a⟩ u)
        (hu : u.slots = s.slots.modify o.slot (Slot.hit counting))
        (run : answers scope n counting v u log true w) (hw' : (w.slots.get i).isSet = true) :
        Passes scope i ⟨n + 1, counting, .option o, k, s⟩ :=
      .made (.value hv hw hf offers) (.value hv) (Nat.lt_succ_self n)
        (fills_of_step ⟨hu ▸ hit, _, _, _, run, hw'⟩)
    cases hc with
    | plain | stacked => simp_all
    | attached hv hr hs run => exact made hv (.attached hr hs) rfl run ht
    | separate hv hr run =>
      obtain ⟨hg, run⟩ := run
      exact made hv (.separate hr hg) rfl run ht
    | stackedSeparate hv hr hs run =>
      obtain ⟨hg, run⟩ := run
      exact made hv (.stacked hr hs rfl hg) rfl run ht

theorem passes_of_positional {p : Positional} {log : List Move} {c : Call}
    (hc : c.pattern = p.pattern) (run : p.Runs counting s log b t)
    (hs : (s.slots.get i).isSet = false) (ht : (t.slots.get i).isSet = true) :
    Passes scope i c := by
  by_cases hi : p.slot = i
  · exact .own (by rw [hc, p.slot?_pattern, hi])
  · rw [run.get_of_ne hi, hs] at ht
    cases ht

theorem passes_of_group {kind : GroupKind} {children : List Pattern} {repeats : Bool}
    (h : Fills scope i ⟨n + 1, counting, .group kind children repeats, k, s⟩) :
    Passes scope i ⟨n + 1, counting, .group kind children repeats, k, s⟩ := by
  obtain ⟨hs, b, t, hanswer, ht⟩ := h
  -- The pass that fills the slot, and what it tries.
  have pass {u v : Attempt} {log : List Move} {b : Bool}
      (starts : Starts scope n counting kind children repeats s u)
      (run : OnceRun (answers scope n false) children kind u log b v)
      (hu : (u.slots.get i).isSet = false) (hv : (v.slots.get i).isSet = true) :
      Passes scope i ⟨n + 1, counting, .group kind children repeats, k, s⟩ := by
    rcases run.exists_fills hu hv with ⟨p, hp, w, htries, hfills⟩ | ⟨rfl, slots, loan, hl, q, hq, hi⟩
    · exact .made (.child starts htries) (.child hp) (Nat.lt_succ_self n) (fills_of_step hfills)
    · exact .lent rfl hl hq hi
  simp only [answer, matchPattern] at hanswer
  split at hanswer
  next hr =>
    cases hl : (Pattern.group kind children repeats).recorded? scope
        (scope.depth (.group kind children repeats)) with
    | none => simp [hl] at hanswer
    | some leaves =>
      simp only [hl, MatchM.bind_eq_ok, MatchM.pure_eq_ok] at hanswer
      obtain ⟨matched, _, hmatch, rfl, rfl⟩ := hanswer
      obtain ⟨_, run⟩ := repeatRun_of_matchRepeatedly (fun _ _ _ =>
        onceRun_of_matchOnce (R := answers scope n false) fun _ _ _ _ h => ⟨[], h⟩) hmatch
      cases run with
      | none =>
        change (s.slots.get i).isSet = true at ht
        rw [hs] at ht
        cases ht
      | @some _ u _ history passes =>
        have hfilled : (u.slots.get i).isSet = true ∨ ∃ x ∈ history, (x.get i).isSet = true := by
          refine (Recorded.isSet_of_mergeAll ht).symm.imp_right ?_
          rintro ⟨x, hx, hset⟩
          rcases List.mem_cons.mp hx with rfl | hx
          · rw [hs] at hset
            cases hset
          · exact ⟨x, List.mem_reverse.mp hx, hset⟩
        obtain ⟨u, starts, hu, _, _, v, run, hv⟩ := passes.exists_fills hs (List.forall_mem_nil _) hfilled
        exact pass (.pass hr hl starts) run hu hv
  next hr =>
    obtain ⟨_, run⟩ := onceRun_of_matchOnce (R := answers scope n false)
      (fun _ _ _ _ h => ⟨[], h⟩) hanswer
    exact pass (.once (Bool.not_eq_true _ ▸ hr)) run hs ht

theorem Fills.passes (h : c.Fills scope i) : c.Passes scope i := by
  obtain ⟨n, counting, p, k, s⟩ := c
  cases n with
  | zero =>
    obtain ⟨-, _, _, hanswer, -⟩ := h
    simp [answer, matchPattern] at hanswer
  | succ n =>
    cases p with
    | option o => exact passes_of_option h
    | group kind children repeats => exact passes_of_group h
    | command leaf | argument leaf =>
      obtain ⟨hs, b, t, hanswer, ht⟩ := h
      obtain ⟨_, run⟩ := Positional.runs_of_run hanswer
      exact passes_of_positional rfl run hs ht
    | either branches =>
      obtain ⟨hs, b, t, hanswer, ht⟩ := h
      obtain ⟨_, run⟩ := eitherRun_of_matchEither (R := answers scope n counting)
        (fun _ _ _ _ h => ⟨[], h⟩) hanswer
      obtain ⟨p, hp, u, htries, hfills⟩ := run.exists_fills hs ht
      exact .made (.branch htries) (.branch hp) (Nat.lt_succ_self n) (fills_of_step hfills)
    | shortcut sc =>
      obtain ⟨hs, b, t, hanswer, ht⟩ := h
      simp only [answer, matchPattern, MatchM.bind_eq_ok, MatchM.pure_eq_ok] at hanswer
      obtain ⟨_, _, hanswer, rfl, rfl⟩ := hanswer
      obtain ⟨_, run⟩ := entriesRun_of_matchEntries (R := answers scope n counting)
        (fun _ _ _ _ h => ⟨[], h⟩) hanswer
      obtain ⟨p, hp, u, htries, hfills⟩ := run.exists_fills hs ht
      exact .made (.entry htries) (.entry hp) (Nat.lt_succ_self n) (fills_of_step hfills)

end Call

end Synopsis
