import Synopsis.Proofs.Grammar.Frame

/-! # Scanning makes progress

A match leaves the tokens as they are or takes something off them. The passes over a line
and those of a repeating group go on only while the tokens change, so they come to an end
wherever they are started, and no bound on their number is ever met.
-/

namespace Synopsis

theorem MatchM.bind_congr {α β : Type} {m : MatchM α} {f g : α → MatchM β} {s : Attempt}
    (h : m.Yields s (fun a t => f a t = g a t) fun _ _ => True) : (m >>= f) s = (m >>= g) s := by
  change EStateM.bind m f s = EStateM.bind m g s
  unfold EStateM.bind
  cases hm : m s with
  | ok a t => exact h.of_ok hm
  | error e t => rfl

variable {scope : Scope} {s : Attempt} {n m m' : Nat}

/-! ## Bounds on passes -/

/-- Any two bounds that are more than there is to take are as good as each other. -/
theorem scanPasses_eq {last : Option Nat} {xs : List Scanned} (hm : s.argv.size < m)
    (hm' : s.argv.size < m') : scanPasses (matchPattern scope n false) m last xs s =
      scanPasses (matchPattern scope n false) m' last xs s := by
  induction m generalizing m' last xs s with
  | zero => omega
  | succ m ih =>
    cases m' with
    | zero => omega
    | succ m' =>
      simp only [scanPasses]
      apply MatchM.bind_congr
      rw [MatchM.yields_argv]
      split
      · rfl
      · apply MatchM.bind_congr
        refine shrinks_scanPass.imp fun r t ht => ?_
        apply MatchM.bind_congr
        rw [MatchM.yields_argv]
        split
        · rfl
        next hmoved =>
          have hless : t.argv.size < s.argv.size := ht.resolve_left hmoved
          apply ih <;> omega

theorem repeatPasses_eq {kind : GroupKind} {line : List Pattern} {leaves : List Recorded}
    {history : List Slots} (hm : s.argv.size < m) (hm' : s.argv.size < m') :
    repeatPasses (matchOnce (matchPattern scope n false) kind line) leaves m history s =
      repeatPasses (matchOnce (matchPattern scope n false) kind line) leaves m' history s := by
  have honce (k : Nat) :
      Proceeds (fun _ => True) k (matchOnce (matchPattern scope n false) kind line) :=
    proceeds_matchOnce fun _ _ => shrinks_matchPattern
  induction m generalizing m' history s with
  | zero => omega
  | succ m ih =>
    cases m' with
    | zero => omega
    | succ m' =>
      simp only [repeatPasses]
      apply MatchM.bind_congr
      rw [MatchM.yields_argv]
      split
      · rfl
      · apply MatchM.bind_congr
        rw [MatchM.yields_slots]
        apply MatchM.bind_congr
        rw [MatchM.yields_setSlots]
        apply MatchM.bind_congr
        refine (honce _ (s.cleared leaves) le_rfl).imp fun b t ht => ?_
        split
        · rfl
        · apply MatchM.bind_congr
          rw [MatchM.yields_slots]
          apply MatchM.bind_congr
          rw [MatchM.yields_argv]
          split
          · rfl
          next hmoved =>
            have hless : t.argv.size < s.argv.size := ht.resolve_left hmoved
            apply ih <;> omega

/-! ## Any state of a match -/

/-- A match never leaves other tokens of the same size, and it comes to an answer. So do the
passes over a line and those of a repeating group, with more passes than there is to take;
further passes would change nothing. -/
theorem matchPattern_progress (hv : scope.registry.BareValues) (p : Pattern) (counting : Bool)
    (s : Attempt) :
    (∀ n b t, matchPattern scope n counting p s = .ok b t →
      t.argv.tokens = s.argv.tokens ∨ t.argv.size < s.argv.size) ∧
    (∀ n, scope.fuel p s.argv ≤ n → ∀ t, matchPattern scope n counting p s ≠ .error .outOfFuel t) ∧
    ∀ n line, (∀ c ∈ line, scope.fuel c s.argv ≤ n) → ∀ m, s.argv.size < m →
      (∀ last xs, (∀ x ∈ xs, x.pattern ∈ line) →
        (∀ t, scanPasses (matchPattern scope n false) m last xs s ≠ .error .outOfFuel t) ∧
        ∀ m', m ≤ m' → scanPasses (matchPattern scope n false) m' last xs s =
          scanPasses (matchPattern scope n false) m last xs s) ∧
      ∀ kind leaves history,
        (∀ t, repeatPasses (matchOnce (matchPattern scope n false) kind line) leaves m history s ≠
          .error .outOfFuel t) ∧
        ∀ m', m ≤ m' →
          repeatPasses (matchOnce (matchPattern scope n false) kind line) leaves m' history s =
            repeatPasses (matchOnce (matchPattern scope n false) kind line) leaves m history s := by
  have hproceeds {n : Nat} {counting : Bool} {p : Pattern} (hn : scope.fuel p s.argv ≤ n) :
      Proceeds (· ≠ .outOfFuel) s.argv.size (matchPattern scope n counting p) :=
    proceeds_matchPattern (Scope.finiteIf_of_bareValues hv counting p)
      (Nat.lt_of_lt_of_le (scope.lt_fuel p s.argv) hn)
  have hnever {α : Type} {m : MatchM α} {ok : α → Attempt → Prop}
      (h : m.Yields s ok fun e _ => e ≠ .outOfFuel) (t : Attempt) : m s ≠ .error .outOfFuel t :=
    fun hm => h.of_error hm rfl
  refine ⟨fun n b t hm => ?_, fun n hn => hnever (hproceeds hn s le_rfl), fun n line hn m hm => ?_⟩
  · exact (shrinks_matchPattern s le_rfl).of_ok hm
  · have hline : ∀ c ∈ line, Proceeds (· ≠ .outOfFuel) s.argv.size (matchPattern scope n false c) :=
      fun c hc => hproceeds (hn c hc)
    constructor
    · intro last xs hxs
      constructor
      · exact hnever (yields_scanPasses hline le_rfl hm hxs last)
      · intro m' hm'
        exact scanPasses_eq (Nat.lt_of_lt_of_le hm hm') hm
    · intro kind leaves history
      constructor
      · exact hnever (yields_repeatPasses (proceeds_matchOnce hline) le_rfl hm history)
      · intro m' hm'
        exact repeatPasses_eq (Nat.lt_of_lt_of_le hm hm') hm

namespace Grammar

/-- Of the stack `-ab`, the option takes a letter, and a smaller stack goes back. -/
theorem stack_shrinks : ∃ g p argv t, compile {} "Usage: prog [-a] [-b] [<x>]..." = .ok g ∧
    g.usages[0]? = some p ∧ g.tokenize ["-ab", "1", "2"] = .ok argv ∧
    matchPattern g.scope 1 true (.option ⟨.singleton "-a", none, none, 0⟩) ⟨.blank 3, argv⟩ =
      .ok true t ∧
    (t.argv.tokens = argv.tokens ∨ t.argv.size < argv.size) ∧ t.argv.tokens ≠ argv.tokens ∧
    ∀ u, matchPattern g.scope (g.scope.fuel p argv) false p ⟨.blank 3, argv⟩ ≠ .error .outOfFuel u := by
  obtain ⟨g, hg, p, hp, argv, ht, t, hm, hmoved⟩ :
      ∃ g, compile {} "Usage: prog [-a] [-b] [<x>]..." = .ok g ∧ ∃ p, g.usages[0]? = some p ∧
        ∃ argv, g.tokenize ["-ab", "1", "2"] = .ok argv ∧
          ∃ t, matchPattern g.scope 1 true (.option ⟨.singleton "-a", none, none, 0⟩)
            ⟨.blank 3, argv⟩ = .ok true t ∧ t.argv.tokens ≠ argv.tokens := by decide +kernel
  have hv : g.scope.registry.BareValues := (bare_of_compile hg).values
  have hoption := matchPattern_progress hv (.option ⟨.singleton "-a", none, none, 0⟩) true ⟨.blank 3, argv⟩
  have husage := matchPattern_progress hv p false ⟨.blank 3, argv⟩
  exact ⟨g, p, argv, t, hg, hp, ht, hm, hoption.1 1 true t hm, hmoved, husage.2.1 _ le_rfl⟩

end Grammar

end Synopsis
