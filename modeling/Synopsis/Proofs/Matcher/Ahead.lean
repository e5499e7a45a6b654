import Synopsis.Proofs.Matcher.Rows

/-! # Options ahead of positionals

A line of commands and arguments with options behind them takes what the line with the
options in front takes: both come to what is left when first the options and then the
positionals take all that they can.
-/

namespace Synopsis

open Pattern (Reaches)

variable {α β γ : Type} {s t u : Attempt}

/-! ## The same answer -/

namespace Meets

variable {Q : α → Attempt → β → Attempt → Prop} {Q' : β → Attempt → γ → Attempt → Prop}
  {r : EStateM.Result Stop Attempt α} {r' : EStateM.Result Stop Attempt β}
  {r'' : EStateM.Result Stop Attempt γ}

theorem symm (h : Meets Eq Q r r') : Meets Eq (fun b t a s => Q a s b t) r' r := by
  cases h with
  | ok h => exact .ok h
  | stop h => exact .stop h.symm

theorem of_error {e : Stop} (h : Meets Eq Q (.error e s) r') : ∃ t, r' = .error e t := by
  cases h with
  | stop h =>
    subst h
    exact ⟨_, rfl⟩

theorem trans {Q'' : α → Attempt → γ → Attempt → Prop} (h : Meets Eq Q r r') (h' : Meets Eq Q' r' r'')
    (hQ : ∀ a s b t c u, Q a s b t → Q' b t c u → Q'' a s c u) : Meets Eq Q'' r r'' := by
  cases h with
  | ok h =>
    cases h' with
    | ok h' => exact .ok (hQ _ _ _ _ _ _ h h')
  | stop h =>
    cases h' with
    | stop h' => exact .stop (h.trans h')

end Meets

theorem MatchM.bind_apply_of_error {m : MatchM α} {f : α → MatchM β} {e : Stop}
    (h : m s = .error e t) : (m >>= f) s = .error e t := by
  change EStateM.bind m f s = _
  rw [EStateM.bind, h]

/-- The same answer, with the same slots and the same tokens, or a stop for the same reason. -/
def OnPar (r r' : EStateM.Result Stop Attempt α) : Prop :=
  Meets Eq (fun a s b t => b = a ∧ Level s t) r r'

namespace OnPar

variable {r r' r'' : EStateM.Result Stop Attempt α}

theorem refl (r : EStateM.Result Stop Attempt α) : OnPar r r :=
  match r with
  | .ok _ s => .ok ⟨rfl, .refl s⟩
  | .error _ _ => .stop rfl

theorem symm (h : OnPar r r') : OnPar r' r :=
  (Meets.symm h).imp fun _ _ _ _ h => ⟨h.1.symm, h.2.symm⟩

theorem trans (h : OnPar r r') (h' : OnPar r' r'') : OnPar r r'' :=
  Meets.trans h h' fun _ _ _ _ _ _ h h' => ⟨h'.1.trans h.1, Fronted.trans h.2 h'.2⟩

end OnPar

/-! ## Options alone -/

section Options

variable {run : Pattern → MatchM Bool} {line : List Pattern} {place : Nat} {last : Option Nat}
  {xs : List Scanned}

/-- Only a positional that matches bars others. -/
theorem last_scanPass (hx : ∀ x ∈ xs, x.pattern.positional? = none) :
    (scanPass run place last xs).Yields s (fun r _ => r.1 = last) fun _ _ => True := by
  induction xs generalizing place s with
  | nil => exact rfl
  | cons x xs ih =>
    obtain ⟨hx, hxs⟩ := List.forall_mem_cons.mp hx
    simp only [scanPass, MatchM.yields_bind, MatchM.yields_argv, hx, Option.isSome_none, Bool.and_false,
      Bool.false_eq_true, if_false]
    split
    · exact rfl
    · simp only [MatchM.yields_bind, MatchM.yields_setArgv]
      refine .intro (fun b t _ => ?_) fun _ _ _ => trivial
      split
      · exact MatchM.yields_bind.mpr (ih hxs)
      · exact MatchM.yields_bind.mpr (ih hxs)

theorem scanLine_of_isEmpty (he : s.argv.isEmpty = true) :
    scanLine run line s = .ok (line.map .start) s := by
  simp only [scanLine, scanPasses, MatchM.argv_bind, he, if_true]
  rfl

/-- A scan begins with a pass. -/
theorem scanLine_eq (he : s.argv.isEmpty = false) : scanLine run line s =
    (scanPass run 0 none (line.map .start) >>= fun r => do
      if (← MatchM.argv).tokens = s.argv.tokens then return r.2
      else scanPasses run s.argv.size r.1 r.2) s := by
  simp only [scanLine, scanPasses, MatchM.argv_bind, he, Bool.false_eq_true, if_false]

/-- A scan goes on after any pass as if it had begun there. -/
theorem scanLine_after (hrun : ∀ c ∈ line, Gathers ∅ (run c)) (hx : xs.map (·.pattern) = line) :
    (scanPass run place last xs).Yields s
      (fun _ t => s.Moves t ∧
        Meets Eq (fun _ u _ v => Level u v) (scanLine run line s) (scanLine run line t) ∧
        (t.argv.tokens = s.argv.tokens → ∃ ys u, scanLine run line s = .ok ys u ∧ Level s u))
      fun e _ => ∃ v, scanLine run line s = .error e v := by
  unfold MatchM.Yields
  by_cases he : s.argv.isEmpty
  · rw [scanPass_of_isEmpty he]
    have hscan : scanLine run line s = _ := scanLine_of_isEmpty he
    exact ⟨.inl (.refl s), hscan ▸ .ok (.refl s), fun _ => ⟨_, s, hscan, .refl s⟩⟩
  have he : s.argv.isEmpty = false := by simpa using he
  have hstart := Scanned.map_pattern_start line
  have hfronted : Meets Eq (fun x t y u => x.2.map (·.pattern) = line ∧ y.2.map (·.pattern) = line ∧
      Level t u) (scanPass run place last xs s) (scanPass run 0 none (line.map .start) s) :=
    scanPass_fronted hrun nofun hx hstart (.refl s)
  have hpass := hfronted.and_yields (moves_scanPass hrun hx s)
  cases hfirst : scanPass run place last xs s with
  | error e v =>
    obtain ⟨v', hv⟩ := (hfirst ▸ hpass).of_error
    exact ⟨v', (scanLine_eq he).trans (MatchM.bind_apply_of_error hv)⟩
  | ok r t =>
    obtain ⟨r', t', ht', ⟨-, hpatterns, hlevel⟩, hmoves, -⟩ := hpass.ok_iff hfirst
    have hscan : scanLine run line s = _ := scanLine_eq he
    rw [MatchM.bind_apply_of_ok ht', MatchM.argv_bind, hlevel.tokens_eq] at hscan
    refine ⟨hmoves, ?_, fun hstill => ?_⟩
    · by_cases hstill : t.argv.tokens = s.argv.tokens
      · exact scanLine_fronted hrun nofun (hmoves.of_still hstill)
      · have hless : t.argv.size < s.argv.size := hmoves.resolve_left fun h => hstill h.tokens_eq
        rw [hscan, if_neg hstill]
        exact scanPasses_fronted hrun nofun hpatterns hstart (hlevel.size_eq ▸ hless)
          (Nat.lt_succ_self _) hlevel.symm
    · rw [if_pos hstill] at hscan
      exact ⟨_, t', hscan, (hmoves.of_still hstill).trans hlevel⟩

theorem Lending.lend_of_not_repeating (h : ∀ c ∈ line, c.isRepeatingGroup = false) (s : Attempt) :
    lend line s = .ok false s := by
  have hnone : loan? s.slots line = none := by
    cases hl : loan? s.slots line with
    | none => rfl
    | some loan =>
      obtain ⟨before, children, rest, hsplit⟩ := splits_of_loan? hl
      simpa [Pattern.isRepeatingGroup] using h _ hsplit.lender_mem
  simp only [lend, MatchM.slots_bind, hnone]
  rfl

/-- Lines that cannot make loans match alike if their scans come to the same. -/
theorem onPar_matchLine {line' : List Pattern}
    (hscan : Meets Eq (fun xs t ys u => ys.all (·.matched) = xs.all (·.matched) ∧ Level t u)
      (scanLine run line s) (scanLine run line' s))
    (hline : ∀ c ∈ line, c.isRepeatingGroup = false)
    (hline' : ∀ c ∈ line', c.isRepeatingGroup = false) :
    OnPar (matchLine run line s) (matchLine run line' s) := by
  have hmatch : Meets Eq (fun (a : Bool) s b t => b = a ∧ Level s t)
      ((do if (← scanLine run line).all (·.matched) then return true else Lending.lend line) s)
      ((do if (← scanLine run line').all (·.matched) then return true else Lending.lend line') s) := by
    refine hscan.bind fun xs t ys u ⟨hall, hlevel⟩ => ?_
    rw [hall]
    split
    · exact .ok ⟨rfl, hlevel⟩
    · rw [Lending.lend_of_not_repeating hline, Lending.lend_of_not_repeating hline']
      exact .ok ⟨rfl, hlevel⟩
  simp only [matchLine, MatchM.restoring, MatchM.get_bind]
  refine Meets.bind hmatch ?_
  rintro b t _ u ⟨rfl, hlevel⟩
  split
  · exact .ok ⟨rfl, hlevel⟩
  · exact .ok ⟨rfl, rfl, hlevel.style, hlevel.autoDashes, False.elim, False.elim, .refl _⟩

end Options

/-! ## Lines of positionals and options -/

/-- Commands and arguments, and options that a line has besides them. -/
structure Mixed (scope : Scope) (n : Nat) (ps : List Positional) (os : List Pattern) : Prop where
  told : Told scope (ps.map (·.pattern) ++ os)
  loose : ∀ c ∈ os, c.Loose scope
  suffices_positionals : ∀ p ∈ ps, Suffices scope n p.pattern
  suffices_options : ∀ c ∈ os, Suffices scope n c

/-- First the options take all that they can, and then a pass over the positionals does. -/
def settle (scope : Scope) (n : Nat) (os : List Pattern) (ps : List Positional) :
    MatchM (List Positional) := do
  let _ ← scanLine (matchPattern scope n false) os
  let s ← get
  set (advance ps s).2
  return (advance ps s).1

section Settle

variable {scope : Scope} {n : Nat} {os : List Pattern} {rest rest' : List Positional}
  {ys : List Scanned}

theorem settle_of_ok (h : scanLine (matchPattern scope n false) os s = .ok ys t) :
    settle scope n os rest s = .ok (advance rest t).1 (advance rest t).2 := by
  rw [settle, MatchM.bind_apply_of_ok h]
  rfl

theorem settle_of_error {e : Stop} (h : scanLine (matchPattern scope n false) os s = .error e t) :
    settle scope n os rest s = .error e t :=
  MatchM.bind_apply_of_error h

theorem settle_of_level (h : scanLine (matchPattern scope n false) os s = .ok ys t) (ht : Level s t) :
    OnPar (settle scope n os rest s) (.ok (advance rest s).1 (advance rest s).2) := by
  obtain ⟨hfst, hlevel⟩ := advance_congr rest ht
  rw [settle_of_ok h]
  exact .ok ⟨hfst.symm, hlevel.symm⟩

theorem onPar_settle {Q : List Scanned → Attempt → List Scanned → Attempt → Prop}
    (h : Meets Eq Q (scanLine (matchPattern scope n false) os s) (scanLine (matchPattern scope n false) os t))
    (hQ : ∀ ys u zs v, Q ys u zs v → (advance rest' v).1 = (advance rest u).1 ∧
      Level (advance rest u).2 (advance rest' v).2) :
    OnPar (settle scope n os rest s) (settle scope n os rest' t) :=
  h.bind fun _ _ _ _ h => .ok (hQ _ _ _ _ h)

end Settle

/-- The slots of some positionals are those of a table. -/
def SameIn (ps : List Positional) (table table' : Slots) : Prop :=
  ∀ p ∈ ps, table'.get p.slot = table.get p.slot

theorem Pattern.Loose.isTold {scope : Scope} {p : Pattern} (h : p.Loose scope) : p.IsTold := by
  cases h with
  | option => exact .inl rfl
  | optional | shortcut => exact .inr rfl

namespace Mixed

variable {scope : Scope} {n : Nat} {ps rest : List Positional} {os : List Pattern} {c : Pattern}
  {p : Positional} {H : Set Nat} {place : Nat} {last : Option Nat} {xs : List Scanned}
  (h : Mixed scope n ps os)
include h

theorem run_positional (hp : p ∈ ps) : matchPattern scope n false p.pattern = p.run false := by
  have hn := h.suffices_positionals p hp
  cases n with
  | zero => exact hn.elim
  | succ n => cases p <;> rfl

theorem nodup : (ps.map (·.slot)).Nodup := by
  have hslots : Pattern.slots (ps.map (·.pattern)) = ps.map (·.slot) := by
    clear h
    induction ps with
    | nil => rfl
    | cons p ps ih =>
      rw [List.map_cons, Pattern.slots_cons, ih]
      cases p <;> rfl
  have hnodup := h.told.distinct.slots_nodup
  rw [Pattern.slots_append, hslots] at hnodup
  exact (List.nodup_append'.mp hnodup).1

theorem nodup_of_awaits (ha : Awaits ps place last rest s) : (rest.map (·.slot)).Nodup := by
  obtain ⟨done, hsplit, -⟩ := ha.split
  have hnodup := h.nodup
  rw [hsplit, List.map_append] at hnodup
  exact (List.nodup_append'.mp hnodup).2.1

theorem avoids (hc : c ∈ os) : c.Avoids scope {i | ∃ p ∈ ps, p.slot = i} := by
  rintro q hq i hi ⟨p, hp, rfl⟩
  have hne : p.pattern ≠ c := by
    rintro rfl
    have hloose := h.loose _ hc
    cases p <;> cases hloose
  exact h.told.distinct.not_reaches (List.mem_append_left _ (List.mem_map_of_mem hp))
    (List.mem_append_right _ hc) hne (Pattern.mem_slots_self p.slot?_pattern) hq hi

theorem not_positional (hc : c ∈ os) : c.positional? = none := by
  have hloose := h.loose c hc
  cases hloose <;> rfl

theorem gathers (hH : ∀ c ∈ os, c.Avoids scope H) :
    ∀ c ∈ os, Gathers H (matchPattern scope n false c) :=
  fun c hc => gathers_matchPattern (h.loose c hc) (hH c hc) (h.suffices_options c hc)

theorem gathers_all : ∀ c ∈ os, Gathers ∅ (matchPattern scope n false c) :=
  h.gathers fun _ _ _ _ _ _ => Set.notMem_empty _

theorem keeps (table : Slots) (hc : c ∈ os) : MatchM.Keeps (fun t => SameIn ps table t.slots)
    (fun _ _ => True) (matchPattern scope n false c) := by
  intro s hs
  unfold MatchM.Yields
  cases hrun : matchPattern scope n false c s with
  | error => trivial
  | ok b t =>
    obtain ⟨log, run⟩ := run_of_matchPattern hrun
    intro p hp
    have hkept := run.untouched fun q hq hi => h.avoids hc q hq p.slot hi ⟨p, hp, rfl⟩
    exact hkept.get_eq.trans (hs p hp)

theorem keeps_scanLine (table : Slots) : MatchM.Keeps (fun t => SameIn ps table t.slots)
    (fun _ _ => True) (scanLine (matchPattern scope n false) os) :=
  yields_scanLine (fun _ _ _ hs => hs) (fun _ _ => trivial) fun _ hc => h.keeps table hc

/-! ### Settled attempts -/

theorem settle_congr (hst : Level s t) : OnPar (settle scope n os rest s)
    (settle scope n os rest t) :=
  onPar_settle (scanLine_fronted h.gathers_all (List.forall_mem_nil _) hst)
    fun _ _ _ _ hlevel => advance_congr _ hlevel

theorem settle_idle (hs : s.argv.Barren) : OnPar (settle scope n os rest s)
    (.ok (advance rest s).1 (advance rest s).2) := by
  have hidle : (scanLine (matchPattern scope n false) os).Yields s (fun _ t => Level s t)
      fun _ _ => False :=
    idle_scanPasses h.gathers_all (Scanned.map_pattern_start os) hs (Nat.succ_pos s.argv.size)
  obtain ⟨ys, u, hscan, hlevel⟩ := hidle.exists_ok
  exact settle_of_level hscan hlevel

/-- It does not matter if a pass over the positionals was made before. -/
theorem settle_advance (hrest : rest ⊆ ps) (hd : (rest.map (·.slot)).Nodup) :
    OnPar (settle scope n os rest s)
      (settle scope n os (advance rest s).1 (advance rest s).2) := by
  have hdone : advance (advance rest s).1 (advance rest s).2 = advance rest s :=
    advance_eq_of_sees sees_advance
  by_cases hend : (advance rest s).2.AtDashes
  · have hnil : (advance [] (advance rest s).2).2.AtDashes := hend
    have hbehind : OnPar (settle scope n os (advance rest s).1 (advance rest s).2) _ :=
      h.settle_idle (barren_of_atDashes hnil)
    rw [hdone] at hbehind
    exact (h.settle_idle (barren_of_atDashes hend)).trans hbehind.symm
  · obtain ⟨front, hfront, htokens, hbehind⟩ := advance_behind (P := {i | ∃ p ∈ ps, p.slot = i})
      (fun p hp => ⟨p, hrest hp, rfl⟩) hend
    have hfronted : Fronted front False {i | ∃ p ∈ ps, p.slot = i} (advance rest s).2 s :=
      ⟨htokens, advance_rules.1.symm, advance_rules.2.symm, False.elim, False.elim, fun i hi =>
        (get_advance hd fun p hp he => (hi ⟨p, hrest hp, he⟩).elim).symm⟩
    have hscan := (scanLine_fronted (h.gathers fun _ => h.avoids) hfront hfronted).and_yields
      (h.keeps_scanLine (advance rest s).2.slots _ fun _ _ => rfl)
    refine onPar_settle (hscan.symm.and_yields (h.keeps_scanLine s.slots _ fun _ _ => rfl)) ?_
    rintro ys v zs u ⟨⟨huv, hu⟩, hv⟩
    obtain ⟨hfst, hlevel⟩ := hbehind v u huv (fun i ⟨p, hp, he⟩ => he ▸ hv p hp)
      fun i ⟨p, hp, he⟩ => he ▸ hu p hp
    exact ⟨hfst.symm, hlevel.symm⟩

/-! ### Passes -/

/-- What a pass over the options comes to. -/
structure Gathered (scope : Scope) (n : Nat) (ps : List Positional) (os : List Pattern)
    (s t : Attempt) : Prop where
  moves : s.Moves t
  same : SameIn ps s.slots t.slots
  onPar (rest : List Positional) : OnPar (settle scope n os rest s) (settle scope n os rest t)
  still (rest : List Positional) (ht : t.argv.tokens = s.argv.tokens) :
    OnPar (settle scope n os rest s) (.ok (advance rest s).1 (advance rest s).2)

theorem pass_options (hx : xs.map (·.pattern) = os) :
    (scanPass (matchPattern scope n false) place last xs).Yields s
      (fun r t => r.1 = last ∧ Gathered scope n ps os s t)
      fun e _ => ∀ rest, ∃ v, settle scope n os rest s = .error e v := by
  have hmem : ∀ x ∈ xs, x.pattern ∈ os := fun x hxs => hx ▸ List.mem_map_of_mem hxs
  have hsame : (scanPass (matchPattern scope n false) place last xs).Yields s
      (fun r t => SameIn ps s.slots t.slots ∧ r.2.map (·.pattern) = xs.map (·.pattern)) fun _ _ => True :=
    yields_scanPass (fun _ _ _ ht => ht) (fun x hxs => h.keeps s.slots (hmem x hxs)) fun _ _ => rfl
  have hlast : (scanPass (matchPattern scope n false) place last xs).Yields s
      (fun r _ => r.1 = last) fun _ _ => True :=
    last_scanPass fun x hxs => h.not_positional (hmem x hxs)
  refine ((hlast.and hsame).and (scanLine_after h.gathers_all hx)).mono ?_ ?_
  · rintro r t ⟨⟨hlast, hsame, -⟩, hmoves, hscan, hstill⟩
    refine ⟨hlast, hmoves, hsame, fun rest => ?_, fun rest ht => ?_⟩
    · exact onPar_settle hscan fun _ _ _ _ hlevel => advance_congr _ hlevel
    · obtain ⟨ys, u, hu, hlevel⟩ := hstill ht
      exact settle_of_level hu hlevel
  · rintro e t ⟨-, v, hv⟩ rest
    exact ⟨v, settle_of_error hv⟩

/-- What a pass over the whole line comes to, with which the attempt goes on. -/
def Continues (scope : Scope) (n : Nat) (ps : List Positional) (os : List Pattern) (place : Nat)
    (rest : List Positional) (s : Attempt) (last : Option Nat) (t : Attempt) : Prop :=
  ∃ rest', Awaits ps place last rest' t ∧
    OnPar (settle scope n os rest s) (settle scope n os rest' t) ∧
    (t.argv.tokens = s.argv.tokens → OnPar (settle scope n os rest s) (.ok rest' t))

/-- Every pass over a line continues, or stops for a reason for which the attempt does not
settle. -/
def LineContinues (scope : Scope) (n : Nat) (ps : List Positional) (os : List Pattern) (place : Nat)
    (line : List Pattern) : Prop :=
  ∀ s last rest, Awaits ps place last rest s →
    (scanPass (matchPattern scope n false) 0 last (line.map (.ofSlots s.slots))).Yields s
      (fun r t => Continues scope n ps os place rest s r.1 t)
      fun e _ => ∃ v, settle scope n os rest s = .error e v

/-- Where the positionals stand in front, a pass takes what they can take first. -/
theorem continues_positionals_first : LineContinues scope n ps os 0 (ps.map (·.pattern) ++ os) := by
  intro s last rest ha
  rw [List.map_append, ← marksOf]
  obtain ⟨last', ys, u, hpass, hu, hawaits⟩ := ha.pass (fun p hp => h.run_positional hp) h.nodup
  have hfirst := (h.settle_advance ha.subset (h.nodup_of_awaits ha)).trans (h.settle_congr hu)
  rw [scanPass_append, MatchM.yields_bind]
  refine .of_eq_ok hpass (MatchM.yields_map.mpr ((h.pass_options ?_).mono ?_ ?_))
  · simp [Scanned.ofSlots, Function.comp_def]
  · rintro r t ⟨hlast, hg⟩
    refine ⟨_, hlast ▸ hawaits.congr hg.same, hfirst.trans (hg.onPar _), fun hstill => ?_⟩
    rcases advance_eq_or_size_lt rest s with hidle | hless
    · rw [hidle] at hu ⊢
      have hlevel : Level s u := hu
      have ht := hstill.trans hlevel.tokens_eq.symm
      obtain ⟨hfst, hadvance⟩ := advance_congr rest hlevel
      rw [hidle] at hfst hadvance
      refine ((h.settle_congr hlevel).trans (hg.still rest ht)).trans (.ok ⟨hfst.symm, ?_⟩)
      exact (hadvance.symm.trans hlevel).trans (hg.moves.of_still ht)
    · have hle := hg.moves.size_le
      rw [hu.size_eq, Argv.size, hstill, ← Argv.size] at hle
      exact absurd hless (Nat.not_lt.mpr hle)
  · intro e _ herror
    obtain ⟨v, hv⟩ := herror (advance rest s).1
    exact (hv ▸ hfirst.symm).of_error

/-- Where the options stand in front, a pass takes what spells an option first. -/
theorem continues_options_first :
    LineContinues scope n ps os os.length (os ++ ps.map (·.pattern)) := by
  intro s last rest ha
  rw [List.map_append, ← marksOf, scanPass_append, MatchM.yields_bind]
  refine (h.pass_options ?_).mono ?_ fun e _ herror => herror rest
  · simp [Scanned.ofSlots, Function.comp_def]
  rintro ⟨_, xs⟩ u ⟨rfl, hg⟩
  obtain ⟨last', ys, t, hpass, ht, hawaits⟩ :=
    (ha.congr hg.same).pass (fun p hp => h.run_positional hp) h.nodup
  have hplace : 0 + (os.map (Scanned.ofSlots s.slots)).length = os.length := by simp
  rw [marksOf_congr hg.same, ← hplace] at hpass
  have hnext := (h.settle_advance (s := u) ha.subset (h.nodup_of_awaits ha)).trans (h.settle_congr ht)
  refine MatchM.yields_map.mpr (.of_eq_ok hpass ⟨_, hawaits, (hg.onPar rest).trans hnext,
    fun hstill => ?_⟩)
  rcases advance_eq_or_size_lt rest u with hidle | hless
  · rw [hidle] at ht ⊢
    have hlevel : Level u t := ht
    have hu := hlevel.tokens_eq.symm.trans hstill
    obtain ⟨hfst, hadvance⟩ := advance_congr rest (hg.moves.of_still hu)
    rw [hidle] at hfst hadvance
    exact (hg.still rest hu).trans (.ok ⟨hfst, hadvance.trans hlevel⟩)
  · have hle := hg.moves.size_le
    rw [← ht.size_eq, Argv.size, hstill, ← Argv.size] at hless
    exact absurd hless (Nat.not_lt.mpr hle)

/-! ### Scans -/

section Scans

variable {line : List Pattern} {k : Nat} (hline : Told scope line)
  (hpass : LineContinues scope n ps os place line)
include hline hpass

omit h

/-- Passes of a line that all continue end where the attempt settles. -/
theorem settles_scanPasses (hk : s.argv.size < k) (ha : Awaits ps place last rest s) :
    Meets Eq (fun _ u xs t => Level u t ∧ xs = line.map (.ofSlots t.slots)) (settle scope n os rest s)
      (scanPasses (matchPattern scope n false) k last (line.map (.ofSlots s.slots)) s) := by
  induction k generalizing last rest s with
  | zero => exact absurd hk (Nat.not_lt_zero _)
  | succ k ih =>
    simp only [scanPasses, MatchM.argv_bind]
    split
    next he =>
      have hidle : advance rest s = (rest, s) :=
        advance_eq_of_sees fun _ _ => Positional.sees_eq_none_of_isEmpty he
      rw [settle_of_ok (scanLine_of_isEmpty he), hidle]
      exact .ok ⟨.refl s, rfl⟩
    next =>
      have hall := ((hpass s last rest ha).and hline.yields_scanPass).and shrinks_scanPass
      cases hfirst : scanPass (matchPattern scope n false) 0 last (line.map (.ofSlots s.slots)) s with
      | error e t =>
        obtain ⟨⟨⟨v, hv⟩, -⟩, -⟩ := hall.of_error hfirst
        rw [hv, MatchM.bind_apply_of_error hfirst]
        exact .stop rfl
      | ok r t =>
        obtain ⟨⟨⟨rest', hawaits, hpar, hstill⟩, hmarks⟩, hshrinks⟩ := hall.of_ok hfirst
        rw [MatchM.bind_apply_of_ok hfirst, MatchM.argv_bind, hmarks]
        split
        next ht =>
          obtain ⟨a, u, hu, -, hlevel⟩ := (hstill ht).symm.ok_iff rfl
          rw [hu]
          exact .ok ⟨hlevel.symm, rfl⟩
        next ht =>
          have hless : t.argv.size < s.argv.size := hshrinks.resolve_left ht
          exact Meets.trans hpar (ih (by omega) hawaits) fun _ _ _ _ _ _ h h' =>
            ⟨Fronted.trans h.2 h'.1, h'.2⟩

theorem settles_scanLine (hfree : ∀ c ∈ line, .ofSlots s.slots c = Scanned.start c)
    (hps : ∀ p ∈ ps, p.isFilled s.slots = false) :
    Meets Eq (fun _ u xs t => Level u t ∧ xs = line.map (.ofSlots t.slots)) (settle scope n os ps s)
      (scanLine (matchPattern scope n false) line s) := by
  have hscan := settles_scanPasses hline hpass (Nat.lt_succ_self s.argv.size) (.start hps)
  rwa [List.map_congr_left hfree] at hscan

end Scans

/-- Both lines of positionals and options end where the attempt settles. -/
theorem scanLine_ahead (hfree : ∀ c ∈ ps.map (·.pattern) ++ os, .ofSlots s.slots c = Scanned.start c) :
    Meets Eq (fun xs t ys u => ys.all (·.matched) = xs.all (·.matched) ∧ Level t u)
      (scanLine (matchPattern scope n false) (ps.map (·.pattern) ++ os) s)
      (scanLine (matchPattern scope n false) (os ++ ps.map (·.pattern)) s) := by
  have hps : ∀ p ∈ ps, p.isFilled s.slots = false := fun p hp => by
    have hp := hfree _ (List.mem_append_left _ (List.mem_map_of_mem hp))
    rw [Scanned.ofSlots_positional] at hp
    exact (congrArg Scanned.matched hp).trans (by cases p <;> rfl)
  have hbehind := settles_scanLine h.told h.continues_positionals_first hfree hps
  have hfront := settles_scanLine (h.told.perm List.perm_append_comm) h.continues_options_first
    (fun c hc => hfree c (List.perm_append_comm.mem_iff.mp hc)) hps
  refine (Meets.symm hbehind).trans hfront ?_
  rintro _ t _ u _ v ⟨ht, rfl⟩ ⟨hv, rfl⟩
  have hlevel : Level t v := ht.symm.trans hv
  refine ⟨?_, hlevel⟩
  rw [hlevel.map_ofSlots, List.map_append, List.map_append, List.all_append, List.all_append,
    Bool.and_comm]

/-! ### Groups -/

theorem not_repeating (hc : c ∈ ps.map (·.pattern) ++ os) : c.isRepeatingGroup = false := by
  rcases List.mem_append.mp hc with hc | hc
  · obtain ⟨p, -, rfl⟩ := List.mem_map.mp hc
    cases p <;> rfl
  · have hloose := h.loose c hc
    cases hloose <;> rfl

/-- Moving the options of a group ahead of its commands and arguments changes nothing. -/
theorem matchPattern_ahead
    (hfree : ∀ c ∈ ps.map (·.pattern) ++ os, .ofSlots s.slots c = Scanned.start c) :
    OnPar (matchPattern scope (n + 1) false (.group .required (ps.map (·.pattern) ++ os) false) s)
      (matchPattern scope (n + 1) false (.group .required (os ++ ps.map (·.pattern)) false) s) :=
  onPar_matchLine (h.scanLine_ahead hfree) (fun _ => h.not_repeating) fun _ hc =>
    h.not_repeating (List.perm_append_comm.mem_iff.mp hc)

end Mixed

end Synopsis
