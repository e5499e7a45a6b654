import Synopsis.Proofs.Matcher.Closed
import Synopsis.Proofs.Matcher.Depth
import Synopsis.Proofs.Matcher.ParallelOptions
import Synopsis.Proofs.Matcher.Yields

/-! # Matches end

A step that comes to an answer leaves the tokens as they are, or there is less of them
afterwards. So the bounds on passes are never met. The bound on the depth is not met
either: between two options that are taken, a match goes down through the patterns of a
usage and of one declared option at most. Only the leaves of a repeating group may have
no end.
-/

namespace Synopsis

open MatchM (Keeps)
open Pattern (Reaches)

/-! ## Streams that get smaller -/

namespace Argv

variable {a b c : Argv} {names : Names} {name text rest : String} {style : OptionStyle}

/-- The tokens are the same, or there is less of them. -/
def Shrinks (a b : Argv) : Prop := b.tokens = a.tokens ∨ b.size < a.size

namespace Shrinks

theorem refl : a.Shrinks a := .inl rfl

theorem size_le (h : a.Shrinks b) : b.size ≤ a.size := by
  rcases h with h | h
  · rw [size_eq_total, size_eq_total, h]
  · exact Nat.le_of_lt h

theorem trans (h : a.Shrinks b) (h' : b.Shrinks c) : a.Shrinks c := by
  rcases h' with h' | h'
  · rcases h with h | h
    · exact .inl (h'.trans h)
    · refine .inr ?_
      rwa [size_eq_total c, h', ← size_eq_total]
  · exact .inr (Nat.lt_of_lt_of_le h' h.size_le)

end Shrinks

theorem size_remove {i : Nat} {t : Token} (h : a.tokens[i]? = some t) :
    (a.remove i).size + (t.text.length + 1) = a.size := by
  obtain ⟨hi, rfl⟩ := List.getElem?_eq_some_iff.mp h
  have hsplit : a.tokens = a.tokens.take i ++ a.tokens[i] :: a.tokens.drop (i + 1) := by
    rw [List.getElem_cons_drop, List.take_append_drop]
  have hsize : a.size = Token.total (a.tokens.take i ++ a.tokens[i] :: a.tokens.drop (i + 1)) := by
    rw [← hsplit, size_eq_total]
  rw [hsize, size_eq_total, remove, List.eraseIdx_eq_take_drop_succ, Token.total_append,
    Token.total_append, Token.total_cons]
  omega

/-- What is attached to an option is shorter than the flag. -/
theorem length_lt_of_spelledBy? (h : spelledBy? style names text = some (name, some rest)) :
    rest.length < text.length := by
  rw [← String.length_toList, ← String.length_toList]
  unfold spelledBy? at h
  cases hread : style.readsWhole text with
  | true =>
    cases hcut : Text.cutString? "=" text with
    | none => simp [hread, hcut] at h
    | some r =>
      simp only [hread, hcut, if_true, Option.ite_none_right_eq_some] at h
      obtain ⟨-, hrest⟩ := Prod.mk.inj (Option.some.inj h.2)
      rw [← Option.some.inj hrest, Text.toList_of_cutString? hcut]
      simp only [List.length_append]
      exact Nat.lt_add_left _ (Nat.lt_succ_self _)
  | false =>
    simp only [hread, Option.ite_none_right_eq_some, Bool.false_eq_true, if_false] at h
    obtain ⟨-, hrest⟩ := Prod.mk.inj (Option.some.inj h.2)
    obtain ⟨hlong, hrest⟩ := Option.ite_none_left_eq_some.mp hrest
    rw [← Option.some.inj hrest, String.toList_ofList, List.length_drop]
    omega

end Argv

/-! ## Steps that go on -/

variable {α : Type} {stop : Stop → Prop} {k n : Nat} {run : Pattern → MatchM Bool}
  {line : List Pattern}

/-- On a stream up to a size, a step takes something or nothing, if it does not stop. -/
def Proceeds (stop : Stop → Prop) (k : Nat) (m : MatchM α) : Prop :=
  ∀ s, s.argv.size ≤ k → m.Yields s (fun _ t => s.argv.Shrinks t.argv) (fun e _ => stop e)

namespace Proceeds

variable {a : Argv} {m : MatchM α}

theorem blind : Blind fun t => a.Shrinks t.argv :=
  fun _ _ hs ht => hs.trans (.inl ht)

/-- The stream stays smaller than one of an earlier state. -/
theorem keeps (h : Proceeds stop k m) (ha : a.size ≤ k) :
    Keeps (fun t => a.Shrinks t.argv) (fun e _ => stop e) m :=
  fun s hs => (h s (Nat.le_trans hs.size_le ha)).mono (fun _ _ ht => hs.trans ht) fun _ _ he => he

theorem mono {k' : Nat} (h : Proceeds stop k m) (hk : k' ≤ k) : Proceeds stop k' m :=
  fun s hs => h s (Nat.le_trans hs hk)

/-! ### Leaves -/

theorem positional (p : Positional) (counting : Bool) : Proceeds stop k (p.run counting) := by
  intro s _
  refine Positional.yields_run blind .refl fun place token htoken => .inr ?_
  have := Argv.size_remove htoken
  dsimp only
  omega

section Options

variable {o : OptionAtom} {value : Pattern → MatchM Bool} {v : Pattern}
  (hstop : ∀ e, e.isTokenizerError = false → stop (.error e))
include hstop

/-- What is left of a stream from a place on. -/
theorem takeSeparate {s : Attempt} (hv : Proceeds stop k (value v)) (hs : s.argv.size ≤ k) (arity : Arity)
    (place : Nat) : (o.takeSeparate arity (value v) place).Yields s
      (fun _ t => t.argv.size ≤ s.argv.size) (fun e _ => stop e) := by
  have hsplit := congrArg Token.total (OptionOf.valueSplit_append s.argv place)
  rw [Token.total_append, ← Argv.size_eq_total] at hsplit
  simp only [OptionOf.takeSeparate, MatchM.yields_bind, MatchM.yields_argv]
  split
  · exact hstop _ rfl
  · simp only [MatchM.yields_bind, MatchM.yields_onStream]
    refine MatchM.Yields.imp (hv _ ?_) fun b t ht => ?_
    · change Token.total (OptionOf.valueSplit s.argv place).2 ≤ k
      omega
    · cases b with
      | false => exact hstop _ rfl
      | true =>
        have hle : Token.total t.argv.tokens ≤ Token.total (OptionOf.valueSplit s.argv place).2 :=
          ht.size_le
        change Token.total ((OptionOf.valueSplit s.argv place).1 ++ t.argv.tokens) ≤ _
        rw [Token.total_append]
        omega

/-- An option that is not taken changes nothing. -/
theorem yields_option {s : Attempt} (hv : ∀ v, o.value = some v → ∀ j < k, Proceeds stop j (value v))
    (counting : Bool) (hs : s.argv.size ≤ k) : (o.run value counting).Yields s
      (fun _ t => t = s ∨ t.argv.size < s.argv.size) fun e _ => stop e := by
  simp only [OptionOf.run, MatchM.yields_bind, MatchM.yields_slots]
  split
  · exact .inl rfl
  simp only [MatchM.yields_bind, MatchM.yields_argv]
  split
  next found argv hfound =>
    obtain ⟨t, ht, -, hspelled, rfl⟩ := Argv.exists_of_takeOption? hfound
    have hsize := Argv.size_remove ht
    -- The value pattern only gets what stands behind the option.
    have hvalue {v : Pattern} (hov : o.value = some v) : Proceeds stop (k - 1) (value v) :=
      hv v hov _ (by omega)
    have hstacked {rest : String} (hattached : found.attached = some rest)
        (hshort : (s.argv.style.standard && !found.name.startsWith "--") = true) :
        ((s.argv.remove found.index).insert found.index (OptionOf.restOfStack rest)).size <
          s.argv.size := by
      have hlen := Argv.length_of_short (hattached ▸ hspelled) hshort
      have htake := congrArg Token.total (List.take_append_drop found.index (s.argv.remove found.index).tokens)
      rw [Token.total_append] at htake
      rw [Argv.size_eq_total, Argv.insert, Token.total_append, Token.total_cons,
        OptionOf.restOfStack, String.length_append]
      have hhyphen : "-".length = 1 := rfl
      rw [Argv.size_eq_total] at hsize
      omega
    simp only [MatchM.yields_bind, MatchM.yields_setArgv, MatchM.yields_modifySlot,
      OptionOf.takeFound, MatchM.yields_argv]
    split
    · refine .inr ?_
      dsimp only
      omega
    next rest _ hattached =>
      split
      next hshort => exact .inr (hstacked hattached (Bool.and_eq_true _ _ ▸ hshort).1)
      next => exact hstop _ rfl
    next v hov _ =>
      refine MatchM.Yields.imp (takeSeparate hstop (hvalue hov) ?_ _ _) fun _ u hu => .inr ?_
      · dsimp only
        omega
      · dsimp only at hu
        omega
    next v rest hov hattached =>
      split
      next hshort =>
        split
        · exact hstop _ rfl
        · have hless := hstacked hattached (Bool.and_eq_true _ _ ▸ hshort).1
          refine MatchM.Yields.imp (takeSeparate hstop (hvalue hov) ?_ _ _) fun _ u hu => .inr ?_
          · dsimp only
            omega
          · dsimp only at hu
            omega
      next =>
        have hlen := Argv.length_lt_of_spelledBy? (hattached ▸ hspelled)
        simp only [OptionOf.takeAttached, MatchM.yields_bind, MatchM.yields_argv,
          MatchM.yields_onStream]
        refine MatchM.Yields.imp (hvalue hov _ ?_) fun b u _ => ?_
        · change rest.length + 1 + 0 ≤ k - 1
          omega
        · split
          · exact hstop _ rfl
          · refine .inr ?_
            dsimp only
            omega
  next => exact .inl rfl

theorem option (hv : ∀ v, o.value = some v → ∀ j < k, Proceeds stop j (value v)) (counting : Bool) :
    Proceeds stop k (o.run value counting) :=
  fun s hs => (yields_option hstop hv counting hs).imp
    fun _ t ht => ht.imp (fun he => by rw [he]) id

end Options

end Proceeds

/-! ### Lines -/

theorem proceeds_lend : Proceeds stop k (Lending.lend line) := by
  -- Borrowers come to an answer on any stream.
  have borrowers (ps : List Positional) (s : Attempt) :
      (ps.allM (Positional.run · false)).Yields s (fun _ _ => True) (fun e _ => stop e) := by
    induction ps generalizing s with
    | nil => trivial
    | cons p ps ih =>
      refine MatchM.yields_bind.mpr
        ((Positional.yields_run (J := fun _ => True) (fun _ _ _ _ => trivial) trivial
          fun _ _ _ => trivial).imp fun b t _ => ?_)
      cases b with
      | true => exact ih t
      | false => trivial
  intro s _
  simp only [Lending.lend, MatchM.yields_bind, MatchM.yields_slots]
  split
  · split
    · simp only [MatchM.yields_bind, MatchM.yields_setSlots, MatchM.yields_argv,
        MatchM.yields_onStream]
      refine (borrowers _ _).imp fun b t _ => ?_
      cases b with
      | true | false => exact .refl
    · exact .refl
  · exact .refl

/-- Passes over a line end within a bound that is more than there is to take. -/
theorem yields_scanPasses {s : Attempt} {xs : List Scanned} (hrun : ∀ c ∈ line, Proceeds stop k (run c))
    (hs : s.argv.size ≤ k) (hn : s.argv.size < n) (hxs : ∀ x ∈ xs, x.pattern ∈ line) (last : Option Nat) :
    (scanPasses run n last xs).Yields s (fun _ t => s.argv.Shrinks t.argv) fun e _ => stop e := by
  induction n generalizing last xs s with
  | zero => exact absurd hn (Nat.not_lt_zero _)
  | succ n ih =>
    simp only [scanPasses, MatchM.yields_bind, MatchM.yields_argv]
    split
    · exact .refl
    · refine MatchM.yields_bind.mpr ((yields_scanPass (J := fun t => s.argv.Shrinks t.argv)
        Proceeds.blind.aimed (fun x hx => (hrun _ (hxs x hx)).keeps hs) .refl).imp fun r t h => ?_)
      obtain ⟨ht, hpatterns⟩ := h
      simp only [MatchM.yields_bind, MatchM.yields_argv]
      split
      · exact ht
      next hmoved =>
        have hless : t.argv.size < s.argv.size := ht.resolve_left hmoved
        refine MatchM.Yields.imp (ih (by omega) (by omega) (fun x hx => ?_) _)
          fun _ u hu => ht.trans hu
        have hx := List.mem_map_of_mem (f := Scanned.pattern) hx
        rw [hpatterns] at hx
        obtain ⟨y, hy, he⟩ := List.mem_map.mp hx
        exact he ▸ hxs y hy

theorem proceeds_scanLine (hrun : ∀ c ∈ line, Proceeds stop k (run c)) :
    Proceeds stop k (scanLine run line) := by
  intro s hs
  simp only [scanLine, MatchM.yields_bind, MatchM.yields_argv]
  exact yields_scanPasses hrun hs (Nat.lt_succ_self _) (by simp [Scanned.start]) none

theorem proceeds_matchOnce {kind : GroupKind} (hrun : ∀ c ∈ line, Proceeds stop k (run c)) :
    Proceeds stop k (matchOnce run kind line) := by
  intro s hs
  have hscan := proceeds_scanLine hrun s hs
  cases kind with
  | optional => exact MatchM.yields_bind.mpr (hscan.imp fun _ _ h => h)
  | required =>
    simp only [matchOnce, matchLine, MatchM.yields_restoring, MatchM.yields_bind]
    refine hscan.imp fun xs t ht => ?_
    split
    · exact ht
    · refine (proceeds_lend t (Nat.le_trans ht.size_le hs)).imp fun b u hu => ?_
      cases b with
      | true => exact ht.trans hu
      | false => exact .refl

/-- So do the passes of a repeating group. -/
theorem yields_repeatPasses {once : MatchM Bool} {leaves : List Recorded} {s : Attempt}
    (honce : Proceeds stop k once) (hs : s.argv.size ≤ k) (hn : s.argv.size < n)
    (history : List Slots) : (repeatPasses once leaves n history).Yields s
      (fun _ t => s.argv.Shrinks t.argv) fun e _ => stop e := by
  induction n generalizing history s with
  | zero => exact absurd hn (Nat.not_lt_zero _)
  | succ n ih =>
    simp only [repeatPasses, MatchM.yields_bind, MatchM.yields_argv]
    split
    · exact .refl
    · simp only [MatchM.yields_bind, MatchM.yields_slots, MatchM.yields_setSlots]
      refine MatchM.Yields.imp (honce (s.cleared leaves) hs) fun b t ht => ?_
      split
      · exact ht
      · simp only [MatchM.yields_bind, MatchM.yields_slots, MatchM.yields_argv]
        split
        · exact ht
        next hmoved =>
          have hless : t.argv.size < s.argv.size := ht.resolve_left hmoved
          exact MatchM.Yields.imp (ih (by omega) (by omega) _) fun _ u hu => ht.trans hu

theorem proceeds_matchRepeatedly {once : MatchM Bool} {leaves : List Recorded}
    (honce : Proceeds stop k once) : Proceeds stop k (matchRepeatedly once leaves) := by
  intro s hs
  simp only [matchRepeatedly, MatchM.yields_bind, MatchM.yields_slots, MatchM.yields_argv]
  refine (yields_repeatPasses honce hs (Nat.lt_succ_self _) []).imp fun history t ht => ?_
  split
  · exact ht
  · exact ht

/-! ## Patterns -/

variable {scope : Scope} {p : Pattern}

/-- No repeating group in reach has leaves without end. -/
def Pattern.Finite (scope : Scope) (p : Pattern) : Prop :=
  ∀ q, Reaches scope p q → q.isRepeatingGroup = true → ∃ n, (q.recorded? scope n).isSome

theorem proceeds_group {counting : Bool} {kind : GroupKind} {children : List Pattern} {repeats : Bool}
    (hleaves : (counting || repeats) = true → ((Pattern.group kind children repeats).recorded? scope
      (scope.depth (.group kind children repeats))).isSome ∨ stop .outOfFuel)
    (hrun : ∀ c ∈ children, Proceeds stop k (matchPattern scope n false c)) :
    Proceeds stop k (matchPattern scope (n + 1) counting (.group kind children repeats)) := by
  intro s hs
  have honce : Proceeds stop k (matchOnce (matchPattern scope n false) kind children) :=
    proceeds_matchOnce hrun
  simp only [matchPattern]
  split
  next hrepeats =>
    split
    next leaves _ =>
      simp only [MatchM.yields_bind]
      exact proceeds_matchRepeatedly honce s hs
    next hnone =>
      rcases hleaves hrepeats with hsome | hstop
      · obtain ⟨leaves, hleaves⟩ := Option.isSome_iff_exists.mp hsome
        exact (hnone leaves hleaves).elim
      · exact hstop
  next => exact honce s hs

/-- Whatever the bound of the recursion is, a match leaves the tokens or less of them. If it
stops, the arguments have been read into tokens without an error. -/
theorem proceeds_or_stops {counting : Bool} (hstop : ∀ e, e.isTokenizerError = false → stop (.error e))
    (hfuel : stop .outOfFuel) : Proceeds stop k (matchPattern scope n counting p) := by
  induction n generalizing k counting p with
  | zero => exact fun _ _ => hfuel
  | succ n ih =>
    cases p with
    | option o => exact Proceeds.option hstop (fun _ _ _ _ => ih) counting
    | command leaf => exact Proceeds.positional (.command leaf) counting
    | argument leaf => exact Proceeds.positional (.argument leaf) counting
    | group kind children repeats => exact proceeds_group (fun _ => .inr hfuel) fun _ _ => ih
    | either branches =>
      exact fun s hs => keeps_matchEither (J := fun t => s.argv.Shrinks t.argv)
        (fun t u ht _ => ht.trans (.inl rfl)) (fun c _ => Proceeds.keeps ih hs) s .refl
    | shortcut sc =>
      exact fun s hs => MatchM.yields_bind.mpr
        (keeps_matchEntries (J := fun t => s.argv.Shrinks t.argv)
          (fun _ _ t _ ht => Proceeds.keeps ih hs t ht) s .refl)

theorem shrinks_matchPattern {counting : Bool} :
    Proceeds (fun _ => True) k (matchPattern scope n counting p) :=
  proceeds_or_stops (fun _ _ => trivial) trivial

theorem shrinks_scanPass {place : Nat} {last : Option Nat} {xs : List Scanned} {s : Attempt} :
    (scanPass (matchPattern scope n false) place last xs).Yields s
      (fun _ t => s.argv.Shrinks t.argv) fun _ _ => True := by
  have hpass : (scanPass (matchPattern scope n false) place last xs).Yields s
      (fun r t => s.argv.Shrinks t.argv ∧ r.2.map (·.pattern) = xs.map (·.pattern)) fun _ _ => True :=
    yields_scanPass Proceeds.blind.aimed (fun _ _ => shrinks_matchPattern.keeps le_rfl) .refl
  exact hpass.imp fun _ _ h => h.1

theorem Pattern.nodes_of_value {o : OptionAtom} {v : Pattern} (hv : o.value = some v) :
    (Pattern.option o).nodes = v.nodes + 1 := by
  obtain ⟨names, value, fallback, slot⟩ := o
  obtain rfl : value = some v := hv
  rfl

/-- The leaves that a match counts, or repeats, have an end. -/
def Pattern.FiniteIf (scope : Scope) (counting : Bool) (p : Pattern) : Prop :=
  ∀ q, Reaches scope p q → (counting || q.isRepeatingGroup) = true → ∃ n, (q.recorded? scope n).isSome

theorem Pattern.Finite.uncounted (h : p.Finite scope) : p.FiniteIf scope false :=
  fun q hq hrepeats => h q hq hrepeats

theorem Pattern.FiniteIf.uncounted {counting : Bool} {q : Pattern} (h : p.FiniteIf scope counting)
    (hq : Reaches scope p q) : q.FiniteIf scope false := by
  intro c hc hrepeats
  apply h c (hq.trans hc)
  rw [show c.isRepeatingGroup = true from hrepeats, Bool.or_true]

/-- A bound for the recursion on a stream up to a size. -/
theorem proceeds_matchPattern {counting : Bool} (hfinite : p.FiniteIf scope counting)
    (hn : p.nodes + k * Pattern.nodesAll scope.registry.entries < n) :
    Proceeds (· ≠ .outOfFuel) k (matchPattern scope n counting p) := by
  induction n using Nat.strong_induction_on generalizing p k counting with
  | h n ih =>
  obtain ⟨n, rfl⟩ : ∃ m, n = m + 1 := ⟨n - 1, by omega⟩
  -- An option takes something off the stream before its value pattern is tried.
  have option {o : OptionAtom} {m k : Nat} {counting : Bool} (hm : m ≤ n)
      (ho : Pattern.FiniteIf scope counting (.option o)) (hbound : ∀ v, o.value = some v →
        v.nodes + (k - 1) * Pattern.nodesAll scope.registry.entries < m) :
      Proceeds (· ≠ .outOfFuel) k (matchPattern scope (m + 1) counting (.option o)) := by
    refine Proceeds.option (fun _ _ => nofun) (fun v hv j hj => ?_) counting
    have hless := Nat.mul_le_mul_right (Pattern.nodesAll scope.registry.entries) (Nat.le_sub_one_of_lt hj)
    have hvalue := hbound v hv
    exact ih m (by omega) (fun q hq => ho q (.value hv hq)) (by omega)
  cases p with
  | option o =>
    refine option le_rfl hfinite fun v hv => ?_
    have hless := Nat.mul_le_mul_right (Pattern.nodesAll scope.registry.entries) (Nat.sub_le k 1)
    have hnodes := Pattern.nodes_of_value hv
    omega
  | command leaf => exact Proceeds.positional (.command leaf) counting
  | argument leaf => exact Proceeds.positional (.argument leaf) counting
  | group kind children repeats =>
    refine proceeds_group (fun hr => .inl (Pattern.isSome_recorded?_depth (hfinite _ .refl hr)))
      fun c hc => ?_
    have hnodes := Pattern.nodes_le_nodesAll hc
    rw [Pattern.nodes] at hn
    exact ih n (by omega) (hfinite.uncounted (.child hc .refl)) (by omega)
  | either branches =>
    intro s hs
    refine keeps_matchEither (J := fun t => s.argv.Shrinks t.argv) (fun t u ht _ => ht.trans (.inl rfl))
      (fun c hc => Proceeds.keeps ?_ hs) s .refl
    have hnodes := Pattern.nodes_le_nodesAll hc
    rw [Pattern.nodes] at hn
    exact ih n (by omega) (fun q hq => hfinite q (.branch hc hq)) (by omega)
  | shortcut sc =>
    intro s hs
    refine MatchM.yields_bind.mpr
      (keeps_matchEntries (J := fun t => s.argv.Shrinks t.argv) (fun e he t hne ht => ?_) s .refl)
    obtain ⟨o, repeats, rfl⟩ := Pattern.isEntry_of_mem_visible he
    have hentry := Pattern.nodes_le_nodesAll (Pattern.mem_entries_of_visible he)
    simp only [Pattern.nodes, Pattern.nodesAll] at hentry hn
    have hk : 0 < t.argv.size := by
      rw [Argv.size_eq_total]
      obtain ⟨x, xs, hx⟩ := List.exists_cons_of_ne_nil (List.isEmpty_eq_false_iff.mp hne)
      rw [hx, Token.total_cons]
      omega
    -- There is something to take, so the options behind a shortcut have depth to spare.
    obtain ⟨j, rfl⟩ : ∃ j, k = j + 1 := ⟨k - 1, by have := ht.size_le; omega⟩
    rw [Nat.succ_mul] at hn
    obtain ⟨m, rfl⟩ : ∃ m, n = m + 2 := ⟨n - 2, by have := (Pattern.option o).nodes_pos; omega⟩
    refine Proceeds.keeps (proceeds_group
      (fun hr => .inl (Pattern.isSome_recorded?_depth (hfinite _ (.entry he .refl) hr)))
      (List.forall_mem_singleton.mpr (option (by omega)
        (hfinite.uncounted (.entry he (.child List.mem_cons_self .refl))) fun v hv => ?_))) hs t ht
    have hnodes := Pattern.nodes_of_value hv
    rw [Nat.add_sub_cancel]
    omega

theorem Scope.lt_fuel (scope : Scope) (p : Pattern) (a : Argv) :
    p.nodes + a.size * Pattern.nodesAll scope.registry.entries < scope.fuel p a := by
  have hpos := p.nodes_pos
  have hless : Pattern.nodesAll scope.registry.entries ≤ scope.depth p := by
    rw [Scope.depth]
    omega
  have hmul := Nat.mul_le_mul_left a.size hless
  rw [Scope.fuel, Nat.mul_add, Nat.mul_comm (scope.depth p)]
  rw [Scope.depth] at hmul ⊢
  omega

/-- A match ends on every stream, if no repeating group has leaves without end. -/
theorem matchPattern_ends (hfinite : p.Finite scope) (s : Attempt) :
    (matchPattern scope (scope.fuel p s.argv) false p).Yields s
      (fun _ t => s.argv.Shrinks t.argv) (fun e _ => e ≠ .outOfFuel) :=
  proceeds_matchPattern hfinite.uncounted (scope.lt_fuel p s.argv) s le_rfl

end Synopsis
