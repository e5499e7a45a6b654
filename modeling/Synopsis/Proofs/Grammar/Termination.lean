import Synopsis.Grammar.Match
import Synopsis.Proofs.Help.Grounded
import Synopsis.Proofs.Matcher.Termination
import Synopsis.Proofs.Outcomes
import Synopsis.Record.Grammar

/-! # Matching ends

A grammar without a repeating group whose leaves have no end is matched within the bounds
of the recursion, whatever the arguments are. Compiled grammars are of that kind. A record
may hold a value that leads back to its own option, which only a repeating group cannot
deal with. Errors in the arguments themselves are told apart from those of a match.
-/

namespace Synopsis

open Pattern (Reaches)

theorem Scope.Grounded.finite {scope : Scope} (hg : scope.Grounded) (p : Pattern) :
    p.Finite scope :=
  fun q _ _ => ⟨_, Pattern.recorded?_isSome hg q⟩

/-! ## Errors of arguments -/

section Errors

variable {t : OptionTable} {style : OptionStyle} {c : Config} {e : MatchError}

namespace OptionTable

theorem isTokenizerError_of_resolve {name token : String} (h : t.resolve name token = .error e) :
    e.isTokenizerError = true := by
  unfold resolve at h
  split at h
  · cases h
  · split at h
    all_goals cases h
    all_goals rfl

theorem isTokenizerError_of_stackReserve {token : String} {wanted : Nat} {cs : List Char}
    (h : t.stackReserve style token wanted cs = .error e) : e.isTokenizerError = true := by
  induction cs generalizing wanted with
  | nil => cases h
  | cons c rest ih =>
    rw [stackReserve] at h
    split at h
    · cases h
      rfl
    · split at h
      all_goals grind

theorem isTokenizerError_of_normalize {arg : String} (h : t.normalize style arg = .error e) :
    e.isTokenizerError = true := by
  unfold normalize at h
  split at h
  · split at h
    all_goals
      rcases Except.bind_eq_error.mp h with h | ⟨_, _, h⟩
      · exact isTokenizerError_of_resolve h
      · cases h
  · rcases Except.bind_eq_error.mp h with h | ⟨_, _, h⟩
    · exact isTokenizerError_of_stackReserve h
    · cases h

end OptionTable

theorem isTokenizerError_of_tokensOf {pending : Nat} {raw : List String}
    (h : tokensOf t c pending raw = .error e) : e.isTokenizerError = true := by
  induction raw generalizing pending with
  | nil => cases h
  | cons arg rest ih =>
    have rest_fails {n : Nat} {x : Token} {e : MatchError}
        (h : (tokensOf t c n rest >>= fun ts => .ok (x :: ts)) = .error e) :
        tokensOf t c n rest = .error e := by
      rcases Except.bind_eq_error.mp h with h | ⟨_, _, h⟩
      · exact h
      · cases h
    rw [tokensOf] at h
    split at h
    · exact ih (rest_fails h)
    split at h
    · cases h
    split at h
    · rcases Except.bind_eq_error.mp h with h | ⟨_, _, h⟩
      · exact OptionTable.isTokenizerError_of_normalize h
      · exact ih (rest_fails h)
    split at h
    · cases h
    · exact ih (rest_fails h)

theorem isTokenizerError_of_tokenize {raw : List String} (h : Argv.tokenize raw t c = .error e) :
    e.isTokenizerError = true := by
  rcases Except.bind_eq_error.mp h with h | ⟨_, _, h⟩
  · exact isTokenizerError_of_tokensOf h
  · cases h

end Errors

/-! ## Patterns -/

namespace Pattern

variable {scope : Scope} {p q : Pattern}

/-- What a pattern reaches in one step. -/
def next (scope : Scope) : Pattern → List Pattern
  | .option o => o.value.toList
  | .command _ | .argument _ => []
  | .group _ children _ => children
  | .either branches => branches
  | .shortcut sc => scope.visible sc

/-- What a pattern reaches within a number of steps. -/
def within (scope : Scope) (p : Pattern) : Nat → List Pattern
  | 0 => [p]
  | n + 1 => p :: (within scope p n).flatMap (next scope)

theorem Reaches.mem_of_closed {ps : List Pattern} (h : Reaches scope p q)
    (hclosed : ∀ p ∈ ps, ∀ q ∈ p.next scope, q ∈ ps) (hp : p ∈ ps) : q ∈ ps := by
  induction h with
  | refl => exact hp
  | value hv _ ih => exact ih (hclosed _ hp _ (Option.mem_toList.mpr hv))
  | child hc _ ih | branch hc _ ih | entry hc _ ih => exact ih (hclosed _ hp _ hc)

end Pattern

namespace Grammar

variable {g : Grammar} {config : Config} {doc : String} {raw : List String} {i : Nat}
  {s t : Attempt}

/-- No usage reaches a repeating group with leaves without end. -/
def Finite (g : Grammar) : Prop := ∀ u ∈ g.usages, u.Finite g.scope

theorem finite_of_compile (hg : compile config doc = .ok g) : g.Finite :=
  fun u _ => (grounded_of_compile hg).finite u

theorem matchAlternative_ends (h : g.Finite) :
    (g.matchAlternative i).Yields s (fun _ t => s.argv.Shrinks t.argv)
      fun e _ => e ≠ .outOfFuel := by
  unfold matchAlternative
  split
  next u hu =>
    simp only [MatchM.yields_bind, MatchM.yields_argv]
    exact matchPattern_ends (h u (List.mem_of_getElem? hu)) s
  next => exact .refl

theorem matchFrom_ends (h : g.Finite) (argv : Argv) (e : MatchError) (us : List Pattern) :
    g.matchFrom argv e i us ≠ .error .outOfFuel := by
  induction us generalizing e i with
  | nil => exact nofun
  | cons u us ih =>
    have hends := matchAlternative_ends h (i := i) (s := ⟨.blank g.slotCount, argv⟩)
    unfold matchFrom
    split
    next =>
      split
      · exact nofun
      · exact ih _
    next => exact ih _
    next hm =>
      exact absurd rfl (hends.of_error hm)

theorem matchArgs_ne_outOfFuel (h : g.Finite) (raw : List String) :
    g.matchArgs raw ≠ .error .outOfFuel := by
  unfold matchArgs
  split
  · exact nofun
  · exact matchFrom_ends h _ _ _

/-- Whatever the arguments are, a match comes to an answer, and compiled grammars always do. -/
theorem matchArgs_ends (raw : List String) :
    (g.Finite → g.matchArgs raw ≠ .error .outOfFuel) ∧
    ∀ config doc, compile config doc = .ok g → g.matchArgs raw ≠ .error .outOfFuel :=
  ⟨fun h => matchArgs_ne_outOfFuel h raw,
    fun _ _ hg => matchArgs_ne_outOfFuel (finite_of_compile hg) raw⟩

/-! ## Errors -/

theorem matchFrom_stops {argv : Argv} {e e' : MatchError} {us : List Pattern}
    (he : e.isTokenizerError = false) (h : g.matchFrom argv e i us = .error (.error e')) :
    e'.isTokenizerError = false := by
  induction us generalizing e i with
  | nil =>
    obtain rfl : e = e' := Stop.error.inj (Except.error.inj h)
    exact he
  | cons u us ih =>
    unfold matchFrom at h
    split at h
    next =>
      split at h
      · cases h
      · exact ih he h
    next e'' t hm =>
      have hstops : (g.matchAlternative i).Yields ⟨.blank g.slotCount, argv⟩ (fun _ _ => True)
          fun e _ => ∀ e', e = .error e' → e'.isTokenizerError = false := by
        unfold matchAlternative
        split
        next u _ =>
          simp only [MatchM.yields_bind, MatchM.yields_argv]
          exact (proceeds_or_stops (fun e he e' h => Stop.error.inj h ▸ he) (by rintro _ ⟨⟩) _ le_rfl).imp
            fun _ _ _ => trivial
        next => trivial
      exact ih (hstops.of_error hm e'' rfl) h
    next => cases h

/-- An error was found when the arguments were read, or when they were matched, and it
says which. -/
theorem isTokenizerError_iff {e : MatchError} (h : g.matchArgs raw = .error (.error e)) :
    e.isTokenizerError = true ↔ g.tokenize raw = .error e := by
  unfold matchArgs at h
  split at h
  next e' ht =>
    obtain rfl : e' = e := Stop.error.inj (Except.error.inj h)
    exact iff_of_true (isTokenizerError_of_tokenize ht) ht
  next argv ht =>
    rw [ht]
    exact iff_of_false (Bool.eq_false_iff.mp (matchFrom_stops rfl h)) nofun

/-- The value of `-a` leads back to `-a`, behind a shortcut. -/
def circularOptions : Registry where
  groups := [{
    title := ""
    entries := [.optional [.option
      { names := .singleton "-a", value := some (.required [.shortcut ⟨"", {}⟩]) }]] }]

/-- A usage that stands for these options, and may repeat. -/
def circularRecord (repeats : Bool) : GrammarRecord where
  version := formatVersion
  config := {}
  source := {}
  registry := circularOptions
  usages := [.group .required [.shortcut ⟨"", {}⟩] repeats]

/-- Without a repeating group, an option may stand in its own value. -/
theorem circular_options_are_matched : ∃ g, ofRecord (circularRecord false) = .ok g ∧
    g.matchArgs ["-a", "-a"] ≠ .error .outOfFuel := by
  obtain ⟨g, hg, hclosed, hsingle⟩ : ∃ g, ofRecord (circularRecord false) = .ok g ∧
      (∀ u ∈ g.usages, ∀ p ∈ u.within g.scope 5, ∀ q ∈ p.next g.scope, q ∈ u.within g.scope 5) ∧
      ∀ u ∈ g.usages, ∀ p ∈ u.within g.scope 5, p.isRepeatingGroup = false := by decide +kernel
  refine ⟨g, hg, (matchArgs_ends _).1 fun u hu q hq hrepeats => ?_⟩
  have hsingle := hsingle u hu q (hq.mem_of_closed (hclosed u hu) List.mem_cons_self)
  rw [hrepeats] at hsingle
  cases hsingle

/-- In a repeating group, the leaves of such an option have no end. -/
theorem circular_leaves_have_no_end : ∃ g, ofRecord (circularRecord true) = .ok g ∧
    (∃ u ∈ g.usages, ∀ n, u.recorded? g.scope n = none) ∧
    g.matchArgs [] = .error .outOfFuel := by
  obtain ⟨g, hg, hrecorded, hmatch⟩ : ∃ g, ofRecord (circularRecord true) = .ok g ∧
      (∃ u ∈ g.usages, u.recorded? g.scope (g.scope.depth u) = none) ∧
      g.matchArgs [] = .error .outOfFuel := by decide +kernel
  obtain ⟨u, hu, hnone⟩ := hrecorded
  refine ⟨g, hg, ⟨u, hu, fun n => ?_⟩, hmatch⟩
  by_contra hn
  have hsome := Pattern.isSome_recorded?_depth ⟨n, Option.isSome_iff_ne_none.mpr hn⟩
  rw [hnone] at hsome
  cases hsome

end Grammar

end Synopsis
