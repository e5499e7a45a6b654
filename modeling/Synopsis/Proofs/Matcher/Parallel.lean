import Synopsis.Proofs.Matcher.Adequacy
import Synopsis.Proofs.Matcher.Alike

/-! # Matches in step

Two attempts with the same slots, on streams whose tokens are in a relation. What holds
of the leaves holds of all patterns: both matches give the same answer, and go on after
the same passes, since they take something in the same ones.
-/

namespace Synopsis

/-! ## Streams -/

/-- How much there is to take in some tokens. -/
def Token.total (ts : List Token) : Nat := ts.foldr (fun t n => t.text.length + 1 + n) 0

@[simp] theorem Token.total_cons (t : Token) (ts : List Token) :
    total (t :: ts) = t.text.length + 1 + total ts := rfl

@[simp] theorem Token.total_append (ts us : List Token) : total (ts ++ us) = total ts + total us := by
  induction ts with
  | nil => simp [total]
  | cons t ts ih => rw [List.cons_append, total_cons, total_cons, ih, ← Nat.add_assoc]

theorem Argv.size_eq_total (a : Argv) : a.size = Token.total a.tokens := rfl

/-- A flag that no command and no argument takes from the front. -/
structure Token.IsOption (t : Token) : Prop where
  kind_eq : t.kind = .flag
  looks : looksLikeOption t.text = true

/-- Streams that look the same from the front, in front of streams in a relation. -/
inductive Fronts (E : List Token → List Token → Prop) : List Token → List Token → Prop
  | same {ts : List Token} : Fronts E ts ts
  | token {t : Token} {ts us : List Token} (ht : t.isDoubleDash = false) (h : E ts us) :
      Fronts E (t :: ts) (t :: us)
  | option {t u : Token} {ts us : List Token} (ht : t.IsOption) (hu : u.IsOption) :
      Fronts E (t :: ts) (u :: us)

/-- The tokens of two streams of a style are in a relation, and nothing else differs. -/
structure Argv.Twin (σ : OptionStyle) (E : List Token → List Token → Prop) (a b : Argv) : Prop where
  tokens : E a.tokens b.tokens
  style_eq : a.style = σ
  style : b.style = a.style
  autoDashes : b.autoDashes = a.autoDashes
  dashes : b.dashes = a.dashes
  optionOnly : b.optionOnly = a.optionOnly

/-- Either nothing is taken from two streams, or something from both. -/
inductive InStep (ts ts' us us' : List Token) : Prop
  | still (ht : ts' = ts) (hu : us' = us)
  | moved (ht : Token.total ts' < Token.total ts) (hu : Token.total us' < Token.total us)

namespace InStep

variable {ts ts' ts'' us us' us'' : List Token}

theorem refl : InStep ts ts us us := .still rfl rfl

theorem trans (h : InStep ts ts' us us') (h' : InStep ts' ts'' us' us'') :
    InStep ts ts'' us us'' := by
  cases h with
  | still ht hu =>
    subst ht hu
    exact h'
  | moved ht hu =>
    cases h' with
    | still ht' hu' =>
      subst ht' hu'
      exact .moved ht hu
    | moved ht' hu' => exact .moved (ht'.trans ht) (hu'.trans hu)

theorem le_left (h : InStep ts ts' us us') : Token.total ts' ≤ Token.total ts := by
  cases h with
  | still ht => exact Nat.le_of_eq (congrArg _ ht)
  | moved ht => exact Nat.le_of_lt ht

theorem le_right (h : InStep ts ts' us us') : Token.total us' ≤ Token.total us := by
  cases h with
  | still _ hu => exact Nat.le_of_eq (congrArg _ hu)
  | moved _ hu => exact Nat.le_of_lt hu

theorem append (h : InStep ts ts' us us') (xs ys : List Token) :
    InStep (xs ++ ts) (xs ++ ts') (ys ++ us) (ys ++ us') := by
  cases h with
  | still ht hu =>
    subst ht hu
    exact .refl
  | moved ht hu => exact .moved (by simpa using ht) (by simpa using hu)

end InStep

/-! ## Attempts -/

/-- The same slots, of which something is known, and streams in a relation. -/
structure Twins σ (E : List Token → List Token → Prop) (I : Slots → Prop) (s t : Attempt) : Prop where
  slots : t.slots = s.slots
  known : I s.slots
  argv : s.argv.Twin σ E t.argv

/-- The same answer, in such attempts again. -/
structure Abreast {α : Type} (σ : OptionStyle) (E : List Token → List Token → Prop) (I : Slots → Prop) (s t : Attempt)
    (a : α) (s' : Attempt) (b : α) (t' : Attempt) : Prop where
  answer : b = a
  twins : Twins σ E I s' t'
  steps : InStep s.argv.tokens s'.argv.tokens t.argv.tokens t'.argv.tokens

/-- Both matches stop because of the arguments. -/
def BothFail (e e' : Stop) : Prop := e ≠ .outOfFuel ∧ e' ≠ .outOfFuel

theorem BothFail.errors (e e' : MatchError) : BothFail (.error e) (.error e') := by
  simp [BothFail]

/-- Matches that come to the same answer in step, or both stop. -/
def Parallel {α : Type} (σ : OptionStyle) (E : List Token → List Token → Prop) (I : Slots → Prop) (m m' : MatchM α) : Prop :=
  ∀ s t, Twins σ E I s t → Meets BothFail (Abreast σ E I s t) (m s) (m' t)

variable {σ : OptionStyle} {E : List Token → List Token → Prop} {I : Slots → Prop} {s t s' t' : Attempt}
  {run run' : Pattern → MatchM Bool} {α β : Type}

namespace Twins

theorem withSlots {slots : Slots} (h : Twins σ E I s t) (hi : I slots) :
    Twins σ E I { s with slots } { t with slots } :=
  ⟨rfl, hi, h.argv⟩

theorem aimed (h : Twins σ E I s t) (place : Nat) (last : Option Nat) :
    Twins σ E I (s.aimed place last) (t.aimed place last) :=
  ⟨h.slots, h.known, ⟨h.argv.tokens, h.argv.style_eq, h.argv.style, h.argv.autoDashes, h.argv.dashes, rfl⟩⟩

theorem restored (h : Twins σ E I s t) (h' : Twins σ E I s' t') :
    Twins σ E I (s.restored s') (t.restored t') :=
  ⟨h.slots, h.known, ⟨h.argv.tokens, h'.argv.style_eq, h'.argv.style, h'.argv.autoDashes, h.argv.dashes,
    h'.argv.optionOnly⟩⟩

end Twins

theorem Meets.andThen {m m' : MatchM α} {f f' : α → MatchM β}
    (h : Meets BothFail (Abreast σ E I s t) (m s) (m' t))
    (hf : ∀ a s' t', Twins σ E I s' t' → Meets BothFail (Abreast σ E I s' t') (f a s') (f' a t')) :
    Meets BothFail (Abreast σ E I s t) ((m >>= f) s) ((m' >>= f') t) := by
  refine h.bind ?_
  rintro a s' _ t' ⟨rfl, hu, hstep⟩
  exact (hf _ s' t' hu).imp fun _ _ _ _ h => ⟨h.answer, h.twins, hstep.trans h.steps⟩

theorem Parallel.pure (a : α) : Parallel σ E I (pure a : MatchM α) (Pure.pure a) :=
  fun _ _ h => .ok ⟨rfl, h, .refl⟩

theorem Parallel.restoring {m m' : MatchM Bool} (h : Parallel σ E I m m') :
    Parallel σ E I (MatchM.restoring m) (MatchM.restoring m') := by
  intro s t hs
  simp only [MatchM.restoring, MatchM.get_bind]
  refine (h s t hs).bind ?_
  rintro b s' _ t' ⟨rfl, hu, hstep⟩
  split
  · exact .ok ⟨rfl, hu, hstep⟩
  · exact .ok ⟨rfl, hs.restored hu, .refl⟩

/-! ## Lines -/

/-- A command or an argument always comes to an answer. -/
theorem Positional.exists_run (p : Positional) (counting : Bool) (s : Attempt) :
    ∃ b t, p.run counting s = .ok b t := by
  simp only [run, MatchM.slots_bind]
  split
  · exact ⟨_, _, rfl⟩
  simp only [MatchM.argv_bind]
  split
  · exact ⟨_, _, rfl⟩
  simp only [take, MatchM.argv_bind, MatchM.setArgv_bind]
  cases s.argv.positional.2 with
  | none => exact ⟨_, _, rfl⟩
  | some place =>
    dsimp only
    cases s.argv.positional.1.tokens[place]? with
    | none => exact ⟨_, _, rfl⟩
    | some token =>
      dsimp only
      split
      all_goals exact ⟨_, _, rfl⟩

theorem Lending.exists_borrow (ps : List Positional) (s : Attempt) :
    ∃ b t, ps.allM (·.run false) s = .ok b t := by
  induction ps generalizing s with
  | nil => exact ⟨_, _, rfl⟩
  | cons p ps ih =>
    obtain ⟨b, t, hp⟩ := p.exists_run false s
    simp only [List.allM]
    rw [MatchM.bind_apply_of_ok hp]
    cases b with
    | true => exact ih t
    | false => exact ⟨_, _, rfl⟩

section Lines

/-- Streams that are empty together. -/
def EmptyTogether (E : List Token → List Token → Prop) : Prop :=
  ∀ ts us, E ts us → us.isEmpty = ts.isEmpty

variable (he : EmptyTogether E)
include he

theorem Twins.isEmpty_eq (h : Twins σ E I s t) : t.argv.isEmpty = s.argv.isEmpty :=
  he _ _ h.argv.tokens

theorem scanPass_parallel {xs : List Scanned} (hx : ∀ x ∈ xs, Parallel σ E I (run x.pattern) (run' x.pattern))
    {place : Nat} {last : Option Nat} (h : Twins σ E I s t) :
    Meets BothFail (fun x s' y t' => Abreast σ E I s t x s' y t' ∧
        x.2.map (·.pattern) = xs.map (·.pattern))
      (scanPass run place last xs s) (scanPass run' place last xs t) := by
  induction xs generalizing place last s t with
  | nil => exact .ok ⟨⟨rfl, h, .refl⟩, rfl⟩
  | cons x xs ih =>
    obtain ⟨hx, hxs⟩ := List.forall_mem_cons.mp hx
    simp only [scanPass, MatchM.argv_bind, h.isEmpty_eq he]
    split
    · exact .ok ⟨⟨rfl, h, .refl⟩, rfl⟩
    simp only [MatchM.setArgv_bind]
    refine (hx _ _ (h.aimed place last)).bind ?_
    rintro b s' _ t' ⟨rfl, hu, hstep⟩
    split
    all_goals
      refine (ih hxs hu).bind ?_
      rintro ⟨l, ys⟩ s'' _ t'' ⟨⟨rfl, hv, hstep'⟩, hys⟩
      exact .ok ⟨⟨rfl, hv, hstep.trans hstep'⟩, congrArg (x.pattern :: ·) hys⟩

theorem scanPasses_parallel {n n' : Nat} {xs : List Scanned} {last : Option Nat}
    (hx : ∀ x ∈ xs, Parallel σ E I (run x.pattern) (run' x.pattern)) (h : Twins σ E I s t)
    (hn : s.argv.size < n) (hn' : t.argv.size < n') :
    Meets BothFail (Abreast σ E I s t) (scanPasses run n last xs s) (scanPasses run' n' last xs t) := by
  induction n generalizing n' xs last s t with
  | zero => cases hn
  | succ n ih =>
    cases n' with
    | zero => cases hn'
    | succ n' =>
      simp only [scanPasses, MatchM.argv_bind, h.isEmpty_eq he]
      split
      · exact .ok ⟨rfl, h, .refl⟩
      refine (scanPass_parallel he hx h).bind ?_
      rintro ⟨l, ys⟩ s' _ t' ⟨⟨rfl, hu, hstep⟩, hys⟩
      simp only [MatchM.argv_bind]
      cases hstep with
      | still hs ht =>
        rw [if_pos hs, if_pos ht]
        exact .ok ⟨rfl, hu, .still hs ht⟩
      | moved hs ht =>
        rw [if_neg fun he => absurd hs (by simp [he]), if_neg fun he => absurd ht (by simp [he])]
        have hpatterns : ∀ y ∈ ys, Parallel σ E I (run y.pattern) (run' y.pattern) := by
          intro y hy
          have hmem := List.mem_map_of_mem (f := fun y : Scanned => y.pattern) hy
          rw [hys] at hmem
          obtain ⟨x, hxs, he⟩ := List.mem_map.mp hmem
          exact he ▸ hx x hxs
        refine (ih hpatterns hu (Nat.lt_of_lt_of_le hs (Nat.le_of_lt_succ hn))
          (Nat.lt_of_lt_of_le ht (Nat.le_of_lt_succ hn'))).imp ?_
        rintro _ _ _ _ ⟨ha, hv, hstep⟩
        exact ⟨ha, hv, .trans (.moved hs ht) hstep⟩

theorem scanLine_parallel {line : List Pattern} (hl : ∀ p ∈ line, Parallel σ E I (run p) (run' p)) :
    Parallel σ E I (scanLine run line) (scanLine run' line) := by
  intro s t h
  simp only [scanLine, MatchM.argv_bind]
  exact scanPasses_parallel he (List.forall_mem_map.mpr hl) h (Nat.lt_succ_self _) (Nat.lt_succ_self _)

omit he in
theorem lend_parallel {line : List Pattern}
    (hl : ∀ s t, Lending.Lends line s t → I s.slots → I t.slots) :
    Parallel σ E I (Lending.lend line) (Lending.lend line) := by
  intro s t h
  have hknown : ∀ b s', Lending.lend line s = .ok b s' → I s'.slots := by
    intro b s' hb
    rcases Lending.lends_of_lend hb with ⟨-, hlends⟩ | ⟨-, rfl⟩
    · exact hl s s' hlends h.known
    · exact h.known
  revert hknown
  simp only [Lending.lend, MatchM.slots_bind, h.slots]
  cases Lending.loan? s.slots line with
  | none => exact fun _ => .ok ⟨rfl, h, .refl⟩
  | some loan =>
    dsimp only
    cases loan.texts? s.slots with
    | none => exact fun _ => .ok ⟨rfl, h, .refl⟩
    | some given =>
      obtain ⟨texts, left⟩ := given
      simp only [MatchM.setSlots_bind, MatchM.argv_bind, h.argv.style]
      -- The borrowers see the same slots and the same texts.
      obtain ⟨b, u, hm⟩ := Lending.exists_borrow loan.borrowers ⟨left, Argv.ofValues texts s.argv.style⟩
      have hstream (a : Argv) : MatchM.onStream (Argv.ofValues texts s.argv.style)
          (loan.borrowers.allM (·.run false)) ⟨left, a⟩ = .ok (b, u.argv) ⟨u.slots, a⟩ :=
        MatchM.onStream_eq_ok.mpr ⟨u, hm, rfl, rfl⟩
      rw [MatchM.bind_apply_of_ok (hstream s.argv), MatchM.bind_apply_of_ok (hstream t.argv)]
      dsimp only
      cases b with
      | true => exact fun hknown => .ok ⟨rfl, h.withSlots (hknown true ⟨u.slots, s.argv⟩ rfl), .refl⟩
      | false => exact fun _ => .ok ⟨rfl, h.withSlots h.known, .refl⟩

theorem matchOnce_parallel {kind : GroupKind} {line : List Pattern}
    (hl : ∀ p ∈ line, Parallel σ E I (run p) (run' p))
    (hlend : ∀ s t, Lending.Lends line s t → I s.slots → I t.slots) :
    Parallel σ E I (matchOnce run kind line) (matchOnce run' kind line) := by
  cases kind with
  | required =>
    refine .restoring fun s t h => (scanLine_parallel he hl s t h).andThen ?_
    intro xs s' t' hu
    split
    · exact .ok ⟨rfl, hu, .refl⟩
    · exact lend_parallel hlend s' t' hu
  | optional =>
    intro s t h
    exact (scanLine_parallel he hl s t h).andThen fun _ _ _ hu => .ok ⟨rfl, hu, .refl⟩

omit he in
theorem matchEither_parallel {ps : List Pattern} (hp : ∀ p ∈ ps, Parallel σ E I (run p) (run' p)) :
    Parallel σ E I (matchEither run ps) (matchEither run' ps) := by
  induction ps with
  | nil => exact .pure false
  | cons p ps ih =>
    obtain ⟨hp, hps⟩ := List.forall_mem_cons.mp hp
    intro s t h
    refine (hp.restoring s t h).andThen fun b s' t' hu => ?_
    split
    · exact .ok ⟨rfl, hu, .refl⟩
    · exact ih hps s' t' hu

theorem matchEntries_parallel {ps : List Pattern} (hp : ∀ p ∈ ps, Parallel σ E I (run p) (run' p)) :
    Parallel σ E I (matchEntries run ps) (matchEntries run' ps) := by
  induction ps with
  | nil => exact .pure ()
  | cons p ps ih =>
    obtain ⟨hp, hps⟩ := List.forall_mem_cons.mp hp
    intro s t h
    simp only [matchEntries, MatchM.argv_bind, h.isEmpty_eq he]
    split
    · exact .ok ⟨rfl, h, .refl⟩
    · exact (hp s t h).andThen fun _ s' t' hu => ih hps s' t' hu

/-! ## Repetition -/

section Repetition

variable {once once' : MatchM Bool} {leaves : List Recorded} (ho : Parallel σ E I once once')
  (hclear : ∀ slots, I slots → I (Recorded.clearAll leaves slots))

include ho hclear

theorem repeatPasses_parallel {n n' : Nat} {history : List Slots} (hh : ∀ slots ∈ history, I slots)
    (h : Twins σ E I s t) (hn : s.argv.size < n) (hn' : t.argv.size < n') :
    Meets BothFail (fun x s' y t' => Abreast σ E I s t x s' y t' ∧ ∀ slots ∈ x, I slots)
      (repeatPasses once leaves n history s) (repeatPasses once' leaves n' history t) := by
  induction n generalizing n' history s t with
  | zero => cases hn
  | succ n ih =>
    cases n' with
    | zero => cases hn'
    | succ n' =>
      simp only [repeatPasses, MatchM.argv_bind, h.isEmpty_eq he]
      split
      · exact .ok ⟨⟨rfl, h, .refl⟩, hh⟩
      simp only [MatchM.slots_bind, MatchM.setSlots_bind, h.slots]
      refine (ho _ _ (h.withSlots (hclear _ h.known))).bind ?_
      rintro b s' _ t' ⟨rfl, hu, hstep⟩
      split
      · exact .ok ⟨⟨rfl, hu, hstep⟩, hh⟩
      simp only [MatchM.slots_bind, MatchM.argv_bind, hu.slots]
      have hh' : ∀ slots ∈ s'.slots :: history, I slots := List.forall_mem_cons.mpr ⟨hu.known, hh⟩
      cases hstep with
      | still hs ht =>
        rw [if_pos hs, if_pos ht]
        exact .ok ⟨⟨rfl, hu, .still hs ht⟩, hh'⟩
      | moved hs ht =>
        rw [if_neg fun he => absurd hs (by simp [he]), if_neg fun he => absurd ht (by simp [he])]
        refine (ih hh' hu (Nat.lt_of_lt_of_le hs (Nat.le_of_lt_succ hn))
          (Nat.lt_of_lt_of_le ht (Nat.le_of_lt_succ hn'))).imp ?_
        rintro _ _ _ _ ⟨⟨ha, hv, hstep⟩, hall⟩
        exact ⟨⟨ha, hv, .trans (.moved hs ht) hstep⟩, hall⟩

theorem matchRepeatedly_parallel
    (hmerge : ∀ history slots, (∀ h ∈ history, I h) → I slots → I (Recorded.mergeAll leaves history slots)) :
    Parallel σ E I (matchRepeatedly once leaves) (matchRepeatedly once' leaves) := by
  intro s t h
  simp only [matchRepeatedly, MatchM.slots_bind, MatchM.argv_bind]
  refine (repeatPasses_parallel he ho hclear (List.forall_mem_nil _) h (Nat.lt_succ_self _)
    (Nat.lt_succ_self _)).bind ?_
  rintro history s' _ t' ⟨⟨rfl, hu, hstep⟩, hh⟩
  rw [h.slots]
  split
  · exact .ok ⟨rfl, hu.withSlots h.known, hstep⟩
  · simp only [MatchM.slots_bind, MatchM.setSlots_bind, hu.slots]
    refine .ok ⟨rfl, hu.withSlots (hmerge _ _ ?_ hu.known), hstep⟩
    exact List.forall_mem_cons.mpr ⟨h.known, fun slots hmem => hh slots (List.mem_reverse.mp hmem)⟩

end Repetition

end Lines

/-! ## Commands and arguments -/

/-- A relation between streams that look the same from the front. -/
structure Akin (E : List Token → List Token → Prop) : Prop where
  refl (ts : List Token) : E ts ts
  fronts {ts us : List Token} (h : E ts us) : Fronts E ts us

theorem Akin.emptyTogether (hE : Akin E) : EmptyTogether E := by
  intro ts us h
  cases hE.fronts h <;> rfl

theorem Token.IsOption.isDoubleDash_eq {t : Token} (h : t.IsOption) : t.isDoubleDash = false := by
  simp [Token.isDoubleDash, h.kind_eq]

theorem Argv.positional_of_cons {a : Argv} {t : Token} {ts : List Token} (h : a.tokens = t :: ts)
    (ht : t.isDoubleDash = false) : a.positional = (a, some 0) := by
  simp [positional, h, ht]

theorem Positional.accepts_option {t : Token} (p : Positional) (h : t.IsOption) : p.accepts 0 t = false := by
  cases p <;> simp [accepts, h.kind_eq, h.looks]

theorem Token.total_eraseIdx_lt {ts : List Token} {i : Nat} (h : i < ts.length) :
    total (ts.eraseIdx i) < total ts := by
  induction ts generalizing i with
  | nil => cases h
  | cons t ts ih =>
    cases i with
    | zero =>
      rw [List.eraseIdx_cons_zero, total_cons]
      omega
    | succ i =>
      have := ih (Nat.lt_of_succ_lt_succ h)
      rw [List.eraseIdx_cons_succ, total_cons, total_cons]
      omega

theorem Argv.Twin.refl (hE : Akin E) {a : Argv} (ha : a.style = σ) : a.Twin σ E a :=
  ⟨hE.refl _, ha, rfl, rfl, rfl, rfl⟩

theorem Argv.Twin.eq_of_tokens {a b : Argv} (h : a.Twin σ E b) (ht : b.tokens = a.tokens) : b = a := by
  obtain ⟨tokens, style, autoDashes, dashes, optionOnly⟩ := a
  obtain ⟨-, -, rfl, rfl, rfl, rfl⟩ := h
  cases ht
  rfl

theorem Positional.run_parallel {p : Positional} (hE : Akin E)
    (hI : ∀ slots text, I slots → I (slots.modify p.slot (p.record false text))) :
    Parallel σ E I (p.run false) (p.run false) := by
  intro s t h
  simp only [run, MatchM.slots_bind, h.slots]
  split
  · exact .ok ⟨rfl, h, .refl⟩
  simp only [MatchM.argv_bind, h.argv.optionOnly]
  split
  · exact .ok ⟨rfl, h, .refl⟩
  simp only [take, MatchM.argv_bind, MatchM.setArgv_bind]
  have hfronts := hE.fronts h.argv.tokens
  generalize hts : s.argv.tokens = ts, hus : t.argv.tokens = us at hfronts
  cases hfronts with
  | same =>
    have hargv := h.argv.eq_of_tokens (hus.trans hts.symm)
    have hstyle : s.argv.positional.1.style = σ := by
      rw [Argv.positional_eq]
      exact h.argv.style_eq
    have hstill : Twins σ E I { s with argv := s.argv.positional.1 } { t with argv := s.argv.positional.1 } :=
      ⟨h.slots, h.known, .refl hE hstyle⟩
    have hsteps : InStep s.argv.tokens s.argv.positional.1.tokens s.argv.tokens s.argv.positional.1.tokens :=
      .still s.argv.positional_tokens s.argv.positional_tokens
    rw [hargv]
    cases s.argv.positional.2 with
    | none => exact .ok ⟨rfl, hstill, hargv ▸ hsteps⟩
    | some place =>
      dsimp only
      cases hplace : s.argv.positional.1.tokens[place]? with
      | none => exact .ok ⟨rfl, hstill, hargv ▸ hsteps⟩
      | some x =>
        dsimp only
        split
        · exact .ok ⟨rfl, hstill, hargv ▸ hsteps⟩
        · simp only [MatchM.modifySlot_bind, MatchM.setArgv_bind, h.slots]
          rw [Argv.positional_tokens] at hplace
          have hlt := Token.total_eraseIdx_lt (List.getElem?_eq_some_iff.mp hplace).1
          refine .ok ⟨rfl, ⟨rfl, hI _ _ h.known, .refl hE hstyle⟩, ?_⟩
          rw [hargv]
          simp only [Argv.remove, Argv.positional_tokens]
          exact .moved hlt hlt
  | @token x ts us hx hrest =>
    rw [Argv.positional_of_cons hts hx, Argv.positional_of_cons hus hx]
    simp only [hts, hus, List.getElem?_cons_zero]
    split
    · exact .ok ⟨rfl, h, .refl⟩
    · simp only [MatchM.modifySlot_bind, MatchM.setArgv_bind, h.slots]
      have hs : (s.argv.remove 0).tokens = ts := by simp [Argv.remove, hts]
      have ht : (t.argv.remove 0).tokens = us := by simp [Argv.remove, hus]
      refine .ok ⟨rfl, ⟨rfl, hI _ _ h.known, ?_, h.argv.style_eq, h.argv.style, h.argv.autoDashes,
        h.argv.dashes, h.argv.optionOnly⟩, .moved ?_ ?_⟩
      · rwa [hs, ht]
      · rw [hs, hts, Token.total_cons]
        omega
      · rw [ht, hus, Token.total_cons]
        omega
  | @option x y ts us hx hy =>
    rw [Argv.positional_of_cons hts hx.isDoubleDash_eq, Argv.positional_of_cons hus hy.isDoubleDash_eq]
    simp only [hts, hus, List.getElem?_cons_zero, p.accepts_option hx, p.accepts_option hy]
    exact .ok ⟨rfl, h, .refl⟩

end Synopsis
