import Synopsis.Proofs.Argv.Tokenized
import Synopsis.Proofs.Matcher.Fronted
import Synopsis.Proofs.Matcher.Termination

/-! # Gathering options

Patterns of options, in brackets if at all, take what spells an option from wherever it
stands. To them, tokens in front that spell none make no difference, and neither do
slots that they do not reach. Where no token spells one, they take nothing.
-/

namespace Synopsis

open Pattern (Reaches)

/-! ## Tokens that spell no option -/

/-- Neither an end of the options nor a flag that looks like an option. -/
def Token.Plain (t : Token) : Prop :=
  t.isDoubleDash = false ∧ (t.kind = .flag → looksLikeOption t.text = false)

namespace Argv

variable {a : Argv} {style : OptionStyle} {names : Names} {name text : String}
  {attached : Option String} {i : Nat} {ts front rest : List Token} {d : Token}

theorem prefix_of_spelledBy? (h : spelledBy? style names text = some (name, attached)) :
    name.toList <+: text.toList := by
  unfold spelledBy? at h
  cases hread : style.readsWhole text with
  | true =>
    cases hcut : Text.cutString? "=" text with
    | none =>
      simp only [hread, hcut, if_true, Option.ite_none_right_eq_some] at h
      exact (Prod.mk.inj (Option.some.inj h.2)).1 ▸ List.prefix_rfl
    | some r =>
      simp only [hread, hcut, if_true, Option.ite_none_right_eq_some] at h
      rw [← (Prod.mk.inj (Option.some.inj h.2)).1, Text.toList_of_cutString? hcut]
      exact List.prefix_append _ _
  | false =>
    simp only [hread, Option.ite_none_right_eq_some, Bool.false_eq_true, if_false] at h
    rw [← (Prod.mk.inj (Option.some.inj h.2)).1, String.toList_ofList]
    exact List.take_prefix _ _

theorem looksLikeOption_of_prefix (h : name.toList <+: text.toList)
    (hn : looksLikeOption name = true) : looksLikeOption text = true := by
  obtain ⟨c, cs, hname⟩ := dashed_of_looksLikeOption hn
  obtain ⟨more, hmore⟩ := h
  rw [hname] at hmore
  by_contra hne
  have htext : text = "--" :=
    Dashed.eq_of_not_looksLikeOption ⟨c, cs ++ more, hmore.symm⟩ (by simpa using hne)
  subst htext
  obtain ⟨rfl, hcs⟩ := List.cons.inj (List.cons.inj hmore).2
  obtain ⟨rfl, -⟩ := List.append_eq_nil_iff.mp hcs
  have hdashes : name = "--" := String.toList_inj.mp hname
  subst hdashes
  simp [looksLikeOption] at hn

theorem findOption?_of_plain (hn : ∀ name ∈ names.toList, looksLikeOption name = true)
    (h : ∀ t ∈ ts, t.Plain) : a.findOption? names i ts = none := by
  induction ts generalizing i with
  | nil => rfl
  | cons t ts ih =>
    obtain ⟨ht, hts⟩ := List.forall_mem_cons.mp h
    simp only [findOption?, ht.1, Bool.and_false, Bool.false_eq_true, if_false]
    split
    next hk =>
      split
      next name attached hs =>
        have hlooks := looksLikeOption_of_prefix (prefix_of_spelledBy? hs)
          (hn name (mem_of_spelledBy? hs))
        rw [ht.2 hk] at hlooks
        cases hlooks
      next => exact ih hts
    next => exact ih hts

/-- No token that can be reached spells an option. -/
def Barren (a : Argv) : Prop :=
  ∀ names : Names, (∀ name ∈ names.toList, looksLikeOption name = true) →
    a.findOption? names 0 a.tokens = none

theorem barren_of_plain (h : ∀ t ∈ a.tokens, t.Plain) : a.Barren :=
  fun _ hn => findOption?_of_plain hn h

theorem barren_of_ended (h : a.tokens = front ++ d :: rest) (hfront : ∀ t ∈ front, t.Plain)
    (hd : d.isDoubleDash = true) (ha : a.autoDashes = true) : a.Barren := by
  intro names hn
  rw [h, findOption?_append fun t ht => (hfront t ht).1, findOption?_of_plain hn hfront]
  simp [findOption?, ha, hd]

theorem Barren.congr {b : Argv} (h : a.Barren) (ht : b.tokens = a.tokens) (hs : b.style = a.style)
    (hd : b.autoDashes = a.autoDashes) : b.Barren := by
  intro names hn
  rw [findOption?_congr hs hd, ht]
  exact h names hn

end Argv

/-! ## Attempts on a level -/

variable {exact : Prop} {H H' : Set Nat} {front : List Token} {s t u : Attempt}

/-- The same slots and the same tokens. -/
abbrev Level (s t : Attempt) : Prop := Fronted [] False ∅ s t

namespace Fronted

theorem refl (s : Attempt) : Fronted [] exact H s s :=
  ⟨rfl, rfl, rfl, fun _ => rfl, fun _ => rfl, .refl _⟩

theorem trans (h : Fronted front exact H s t) (h' : Level t u) : Fronted front False H s u where
  tokens := h'.tokens.trans h.tokens
  style := h'.style.trans h.style
  autoDashes := h'.autoDashes.trans h.autoDashes
  dashes := False.elim
  only := False.elim
  slots := fun i hi => (h'.slots i (Set.notMem_empty i)).trans (h.slots i hi)

/-- Attempts with the same tokens and the same slots in the set as well. -/
theorem level (h : Fronted [] exact H s t) (hH : ∀ i ∈ H, t.slots.get i = s.slots.get i) :
    Level s t where
  tokens := h.tokens
  style := h.style
  autoDashes := h.autoDashes
  dashes := False.elim
  only := False.elim
  slots i _ := by
    by_cases hi : i ∈ H
    · exact hH i hi
    · exact h.slots i hi

theorem aimed (h : Fronted front False H s t) (place place' : Nat) (last last' : Option Nat) :
    Fronted front False H (s.aimed place last) (t.aimed place' last') :=
  ⟨h.tokens, h.style, h.autoDashes, False.elim, False.elim, h.slots⟩

end Fronted

namespace Level

theorem symm (h : Level s t) : Level t s :=
  ⟨h.tokens.symm, h.style.symm, h.autoDashes.symm, False.elim, False.elim,
    fun i hi => (h.slots i hi).symm⟩

theorem aimed (s : Attempt) (place : Nat) (last : Option Nat) : Level s (s.aimed place last) :=
  ⟨rfl, rfl, rfl, False.elim, False.elim, .refl _⟩

theorem tokens_eq (h : Level s t) : t.argv.tokens = s.argv.tokens := h.tokens

theorem size_eq (h : Level s t) : t.argv.size = s.argv.size := by
  rw [Argv.size, h.tokens_eq, Argv.size]

theorem barren (h : Level s t) (hs : s.argv.Barren) : t.argv.Barren :=
  hs.congr h.tokens h.style h.autoDashes

end Level

/-- Nothing has changed, or there is less of the stream. -/
def Attempt.Moves (s t : Attempt) : Prop := Level s t ∨ t.argv.size < s.argv.size

namespace Attempt.Moves

theorem trans (h : s.Moves t) (h' : t.Moves u) : s.Moves u := by
  rcases h, h' with ⟨h | h, h' | h'⟩
  · exact .inl (Fronted.trans h h')
  · exact .inr (h.size_eq ▸ h')
  · exact .inr (h'.size_eq ▸ h)
  · exact .inr (Nat.lt_trans h' h)

theorem size_le (h : s.Moves t) : t.argv.size ≤ s.argv.size :=
  h.elim (fun hl => hl.size_eq.le) Nat.le_of_lt

theorem of_still (h : s.Moves t) (ht : t.argv.tokens = s.argv.tokens) : Level s t :=
  h.resolve_right fun hless => absurd (congrArg Token.total ht) (by
    rw [← Argv.size_eq_total, ← Argv.size_eq_total]
    exact Nat.ne_of_lt hless)

theorem aimed (s t : Attempt) (place : Nat) (last : Option Nat) (h : s.Moves t) :
    s.Moves (t.aimed place last) :=
  h.trans (.inl (Level.aimed t place last))

end Attempt.Moves

/-! ## Matches that gather -/

/-- A match that only takes what spells an option. -/
structure Gathers (H : Set Nat) (m : MatchM Bool) : Prop where
  moves (s : Attempt) : m.Yields s (fun _ t => s.Moves t) fun _ _ => True
  fronted {front : List Token} {s t : Attempt} (hfront : ∀ x ∈ front, x.Plain)
    (h : Fronted front False H s t) : Meets Eq (SameFronted front False H) (m s) (m t)
  idle {s : Attempt} (hs : s.argv.Barren) : m.Yields s (fun _ t => Level s t) fun _ _ => False

namespace Meets

variable {α β : Type} {S : Stop → Stop → Prop} {Q : α → Attempt → β → Attempt → Prop}
  {r : EStateM.Result Stop Attempt β} {m : MatchM α} {a : α} {ok : α → Attempt → Prop}
  {stop : Stop → Attempt → Prop}

theorem and_yields (h : Meets S Q (m s) r) (hm : m.Yields s ok stop) :
    Meets S (fun a u b v => Q a u b v ∧ ok a u) (m s) r := by
  unfold MatchM.Yields at hm
  generalize m s = r' at h hm
  cases h with
  | ok h => exact .ok ⟨h, hm⟩
  | stop h => exact .stop h

/-- A step that comes to an answer, against one that is not made. -/
theorem of_yields {Q : β → Attempt → α → Attempt → Prop} {b : β} (hm : m.Yields t ok fun _ _ => False)
    (hQ : ∀ a u, ok a u → Q b s a u) : Meets S Q (.ok b s) (m t) := by
  obtain ⟨a, u, hu, ha⟩ := hm.exists_ok
  rw [hu]
  exact .ok (hQ a u ha)

end Meets

/-! ### Lines -/

theorem Scanned.map_pattern_start (line : List Pattern) :
    (line.map Scanned.start).map (·.pattern) = line := by
  rw [List.map_map]
  exact List.map_id line

/-- Where a stream is empty, only the tokens in front are left of the other one. -/
theorem barren_of_isEmpty (hfront : ∀ x ∈ front, x.Plain) (h : Fronted front exact H s t)
    (he : s.argv.isEmpty = true) : t.argv.Barren := by
  refine Argv.barren_of_plain ?_
  rw [h.tokens, List.isEmpty_iff.mp he, List.append_nil]
  exact hfront

theorem isEmpty_eq_false (h : Fronted front exact H s t) (he : ¬ s.argv.isEmpty = true) :
    t.argv.isEmpty = false := by
  simp only [Argv.isEmpty, List.isEmpty_iff] at he
  simp [Argv.isEmpty, h.tokens, he]

section Lines

variable {run : Pattern → MatchM Bool} {line : List Pattern} {xs xs' : List Scanned}
  {place place' n n' : Nat} {last last' : Option Nat} (hrun : ∀ c ∈ line, Gathers H (run c))
include hrun

theorem moves_scanPass (hx : xs.map (·.pattern) = line) (s : Attempt) :
    (scanPass run place last xs).Yields s
      (fun r t => s.Moves t ∧ r.2.map (·.pattern) = xs.map (·.pattern)) fun _ _ => True := by
  refine yields_scanPass (J := fun t => s.Moves t) (Attempt.Moves.aimed s) (fun x hx' t ht => ?_)
    (.inl (.refl s))
  exact ((hrun x.pattern (hx ▸ List.mem_map_of_mem hx')).moves t).mono (fun _ _ h => ht.trans h)
    fun _ _ _ => trivial

theorem idle_scanPass (hx : xs.map (·.pattern) = line) (hs : s.argv.Barren) :
    (scanPass run place last xs).Yields s
      (fun r t => Level s t ∧ r.2.map (·.pattern) = xs.map (·.pattern)) fun _ _ => False := by
  refine yields_scanPass (J := fun t => Level s t) (fun _ _ _ ht => ht.trans (Level.aimed _ _ _))
    (fun x hx' t ht => ?_) (.refl s)
  exact ((hrun x.pattern (hx ▸ List.mem_map_of_mem hx')).idle (ht.barren hs)).imp
    fun _ _ h => ht.trans h

/-- A single pass finds that there is nothing to take. -/
theorem idle_scanPasses (hx : xs.map (·.pattern) = line) (hs : s.argv.Barren) (hn : 0 < n) :
    (scanPasses run n last xs).Yields s (fun _ t => Level s t) fun _ _ => False := by
  obtain ⟨n, rfl⟩ := Nat.exists_eq_add_one_of_ne_zero (Nat.pos_iff_ne_zero.mp hn)
  simp only [scanPasses, MatchM.yields_bind, MatchM.yields_argv]
  split
  · exact Fronted.refl s
  · refine MatchM.yields_bind.mpr ((idle_scanPass hrun hx hs).imp fun r t h => ?_)
    simp only [MatchM.yields_bind, MatchM.yields_argv]
    rw [if_pos h.1.tokens_eq]
    exact h.1

variable (hfront : ∀ x ∈ front, x.Plain)
include hfront

theorem scanPass_fronted (hx : xs.map (·.pattern) = line) (hx' : xs'.map (·.pattern) = line)
    (h : Fronted front False H s t) :
    Meets Eq (fun x u y v => x.2.map (·.pattern) = line ∧ y.2.map (·.pattern) = line ∧
        Fronted front False H u v)
      (scanPass run place last xs s) (scanPass run place' last' xs' t) := by
  induction line generalizing xs xs' s t place place' last last' with
  | nil =>
    obtain rfl := List.map_eq_nil_iff.mp hx
    obtain rfl := List.map_eq_nil_iff.mp hx'
    exact .ok ⟨rfl, rfl, h⟩
  | cons c line ih =>
    by_cases he : s.argv.isEmpty
    · have hbarren : t.argv.Barren := barren_of_isEmpty hfront h he
      rw [scanPass_of_isEmpty he]
      refine .of_yields (idle_scanPass hrun hx' hbarren) ?_
      rintro y v ⟨hv, hy⟩
      exact ⟨hx, hy.trans hx', h.trans hv⟩
    · obtain ⟨x, xs, rfl, rfl, rfl⟩ := List.map_eq_cons_iff.mp hx
      obtain ⟨x', xs', rfl, hpattern, hxs'⟩ := List.map_eq_cons_iff.mp hx'
      obtain ⟨hc, hline⟩ := List.forall_mem_cons.mp hrun
      have he' : t.argv.isEmpty = false := isEmpty_eq_false h he
      simp only [scanPass, MatchM.argv_bind, he, he', Bool.false_eq_true, if_false, MatchM.setArgv_bind,
        hpattern]
      refine (hc.fronted hfront (h.aimed place place' last last')).bind ?_
      rintro b u _ v ⟨rfl, huv⟩
      split
      · refine (ih hline rfl hxs' huv).bind ?_
        rintro y u y' v ⟨hy, hy', huv⟩
        exact .ok ⟨congrArg _ hy, congrArg _ hy', huv⟩
      · refine (ih hline rfl hxs' huv).bind ?_
        rintro y u y' v ⟨hy, hy', huv⟩
        exact .ok ⟨congrArg _ hy, List.cons_eq_cons.mpr ⟨hpattern, hy'⟩, huv⟩

/-- The numbers of passes do not matter if they suffice. -/
theorem scanPasses_fronted (hx : xs.map (·.pattern) = line) (hx' : xs'.map (·.pattern) = line)
    (hn : s.argv.size < n) (hn' : t.argv.size < n') (h : Fronted front False H s t) :
    Meets Eq (fun _ u _ v => Fronted front False H u v)
      (scanPasses run n last xs s) (scanPasses run n' last' xs' t) := by
  induction n generalizing n' xs xs' s t last last' with
  | zero => exact absurd hn (Nat.not_lt_zero _)
  | succ n ih =>
    by_cases he : s.argv.isEmpty
    · have hbarren : t.argv.Barren := barren_of_isEmpty hfront h he
      simp only [scanPasses, MatchM.argv_bind, he, if_true]
      exact .of_yields (idle_scanPasses hrun hx' hbarren (Nat.zero_lt_of_lt hn')) fun _ _ hv =>
        h.trans hv
    · obtain ⟨n', rfl⟩ := Nat.exists_eq_add_one_of_ne_zero (Nat.ne_zero_of_lt hn')
      have he' : t.argv.isEmpty = false := isEmpty_eq_false h he
      simp only [scanPasses, MatchM.argv_bind, he, he', Bool.false_eq_true, if_false]
      refine ((scanPass_fronted hrun hfront hx hx' h).and_yields (moves_scanPass hrun hx s)).bind ?_
      rintro y u y' v ⟨⟨hy, hy', huv⟩, hmoves, -⟩
      have htokens : v.argv.tokens = t.argv.tokens ↔ u.argv.tokens = s.argv.tokens := by
        rw [huv.tokens, h.tokens, List.append_cancel_left_eq]
      simp only [MatchM.argv_bind, htokens]
      split
      · exact .ok huv
      next hne =>
        have hless : u.argv.size < s.argv.size := hmoves.resolve_left fun hl => hne hl.tokens_eq
        have hless' : v.argv.size < t.argv.size := by
          rw [Argv.size_eq_total, Argv.size_eq_total, huv.tokens, h.tokens, Token.total_append,
            Token.total_append]
          exact Nat.add_lt_add_left hless _
        exact ih hy hy' (by omega) (by omega) huv

theorem scanLine_fronted (h : Fronted front False H s t) :
    Meets Eq (fun _ u _ v => Fronted front False H u v) (scanLine run line s)
      (scanLine run line t) :=
  scanPasses_fronted hrun hfront (Scanned.map_pattern_start line) (Scanned.map_pattern_start line)
    (Nat.lt_succ_self _) (Nat.lt_succ_self _) h

omit hfront in
theorem gathers_optional : Gathers H (matchOnce run .optional line) where
  moves s :=
    have hscan : MatchM.Keeps (fun t => s.Moves t) (fun _ _ => True) (scanLine run line) :=
      yields_scanLine (Attempt.Moves.aimed s) (fun _ _ => trivial) fun c hc t ht =>
        ((hrun c hc).moves t).mono (fun _ _ h => ht.trans h) fun _ _ _ => trivial
    MatchM.yields_bind.mpr ((hscan s (.inl (.refl s))).imp fun _ _ h => h)
  fronted hfront h := (scanLine_fronted hrun hfront h).bind fun _ _ _ _ huv => .ok ⟨rfl, huv⟩
  idle hs := by
    simp only [matchOnce, scanLine, MatchM.yields_bind, MatchM.yields_argv]
    exact (idle_scanPasses hrun (Scanned.map_pattern_start line) hs (Nat.succ_pos _)).imp
      fun _ _ h => h

theorem matchEntries_fronted (h : Fronted front False H s t) :
    Meets Eq (fun _ u _ v => Fronted front False H u v) (matchEntries run line s)
      (matchEntries run line t) := by
  induction line generalizing s t with
  | nil => exact .ok h
  | cons c line ih =>
    obtain ⟨hc, hline⟩ := List.forall_mem_cons.mp hrun
    by_cases he : s.argv.isEmpty
    · have hbarren : t.argv.Barren := barren_of_isEmpty hfront h he
      have hidle : MatchM.Keeps (fun u => Level t u) (fun _ _ => False) (matchEntries run (c :: line)) :=
        keeps_matchEntries fun e hmem u _ hu =>
          ((hrun e hmem).idle (hu.barren hbarren)).mono (fun _ _ hv => hu.trans hv) fun _ _ hv => hv
      rw [matchEntries, MatchM.argv_bind, he]
      exact .of_yields (hidle t (.refl t)) fun _ _ hv => h.trans hv
    · simp only [matchEntries, MatchM.argv_bind, he, isEmpty_eq_false h he, Bool.false_eq_true, if_false]
      refine (hc.fronted hfront h).bind ?_
      rintro _ u _ v ⟨-, huv⟩
      exact ih hline huv

omit hfront in
theorem gathers_entries : Gathers H (do matchEntries run line; return true) where
  moves s :=
    have hentries : MatchM.Keeps (fun t => s.Moves t) (fun _ _ => True) (matchEntries run line) :=
      keeps_matchEntries fun e he t _ ht =>
        ((hrun e he).moves t).mono (fun _ _ h => ht.trans h) fun _ _ _ => trivial
    MatchM.yields_bind.mpr (hentries s (.inl (.refl s)))
  fronted hfront h := (matchEntries_fronted hrun hfront h).bind fun _ _ _ _ huv => .ok ⟨rfl, huv⟩
  idle {s} hs :=
    have hentries : MatchM.Keeps (fun t => Level s t) (fun _ _ => False) (matchEntries run line) :=
      keeps_matchEntries fun e he _ _ ht =>
        ((hrun e he).idle (ht.barren hs)).imp fun _ _ h => ht.trans h
    MatchM.yields_bind.mpr (hentries s (.refl s))

end Lines

/-! ### Options -/

section Options

variable {o : OptionAtom} {value : Pattern → MatchM Bool} {counting : Bool}

theorem gathers_option (ho : o.slot ∉ H) (hn : ∀ name ∈ o.names.toList, looksLikeOption name = true)
    (hv : ∀ v, o.value = some v → Couples .none True H (value v) (value v))
    (hshrinks : ∀ v, o.value = some v → ∀ k, Proceeds (fun _ => True) k (value v)) :
    Gathers H (o.run value counting) where
  moves s := by
    refine (Proceeds.yields_option (fun _ _ => trivial) (fun v hov k _ => hshrinks v hov k) counting
      (Nat.le_refl s.argv.size)).imp fun _ t ht => ?_
    exact ht.imp_left fun he => by rw [he]; exact .refl s
  fronted hfront h :=
    OptionOf.run_fronted ho hv (fun x hx => (hfront x hx).1) (Argv.findOption?_of_plain hn hfront) h
  idle {s} hs := by
    simp only [OptionOf.run, MatchM.yields_bind, MatchM.yields_slots]
    split
    · exact Fronted.refl s
    · simp only [MatchM.yields_bind, MatchM.yields_argv, Argv.takeOption?_eq_none (hs o.names hn)]
      exact Fronted.refl s

end Options

/-! ### Patterns -/

/-- Options and shortcuts, in brackets if at all. Nothing of it repeats. -/
inductive Pattern.Loose (scope : Scope) : Pattern → Prop
  | option {o : OptionAtom} (hn : ∀ name ∈ o.names.toList, looksLikeOption name = true) :
      Loose scope (.option o)
  | optional {children : List Pattern} (h : ∀ c ∈ children, Loose scope c) :
      Loose scope (.optional children)
  | shortcut {sc : Shortcut} (h : ∀ e ∈ scope.visible sc, Loose scope e) : Loose scope (.shortcut sc)

theorem gathers_matchPattern {scope : Scope} {p : Pattern} {n : Nat} (h : p.Loose scope)
    (hp : p.Avoids scope H) (hn : Suffices scope n p) :
    Gathers H (matchPattern scope n false p) := by
  induction h generalizing n with
  | option hnames =>
    cases n with
    | zero => exact hn.elim
    | succ n =>
      exact gathers_option (hp.slot_notMem rfl) hnames
        (fun v hv => matchPattern_agrees (hp.trans (.value hv .refl)))
        fun v _ k => shrinks_matchPattern
  | optional _ ih =>
    cases n with
    | zero => exact hn.elim
    | succ n => exact gathers_optional fun c hc => ih c hc (hp.trans (.child hc .refl)) (hn c hc)
  | shortcut _ ih =>
    cases n with
    | zero => exact hn.elim
    | succ n => exact gathers_entries fun e he => ih e he (hp.trans (.entry he .refl)) (hn e he)

end Synopsis
