import Mathlib.Logic.Relation
import Synopsis.Proofs.Matcher.Adequacy
import Synopsis.Proofs.Matcher.Taking

/-! # Points of a match

The calls by which a match tries patterns, each with the state in which it is made. A
call is reached through the answers of the calls before it, whatever becomes of the
match afterwards.
-/

namespace Synopsis

/-! ## What is tried -/

section Tries

variable (R : Pattern → Step)

/-- A pass over a line tries a pattern. -/
inductive Pass.Tries : Nat → Option Nat → List Scanned → Attempt → Pattern → Attempt → Prop
  | here {s : Attempt} {place : Nat} {last : Option Nat} {x : Scanned} {xs : List Scanned}
      (hn : s.argv.isEmpty = false) : Tries place last (x :: xs) s x.pattern (s.aimed place last)
  | hit {s t u : Attempt} {log : List Move} {place : Nat} {last : Option Nat} {x : Scanned}
      {xs : List Scanned} {p : Pattern} (hn : s.argv.isEmpty = false)
      (run : R x.pattern (s.aimed place last) log true t)
      (rest : Tries (place + 1)
        (if !x.matched && x.pattern.positional?.isSome then some place else last) xs t p u) :
      Tries place last (x :: xs) s p u
  | miss {s t u : Attempt} {log : List Move} {place : Nat} {last : Option Nat} {x : Scanned}
      {xs : List Scanned} {p : Pattern} (hn : s.argv.isEmpty = false)
      (run : R x.pattern (s.aimed place last) log false t)
      (rest : Tries (place + 1) last xs t p u) : Tries place last (x :: xs) s p u

inductive Passes.Tries : Option Nat → List Scanned → Attempt → Pattern → Attempt → Prop
  | now {s u : Attempt} {last : Option Nat} {xs : List Scanned} {p : Pattern}
      (hn : s.argv.isEmpty = false) (pass : Pass.Tries R 0 last xs s p u) : Tries last xs s p u
  | later {s t u : Attempt} {log : List Move} {last last' : Option Nat} {xs ys : List Scanned}
      {p : Pattern} (hn : s.argv.isEmpty = false) (pass : Pass R 0 last xs s log last' ys t)
      (hne : t.argv.tokens ≠ s.argv.tokens) (rest : Tries last' ys t p u) : Tries last xs s p u

/-- A scan of a line tries a pattern. -/
def Scan.Tries (line : List Pattern) : Attempt → Pattern → Attempt → Prop :=
  Passes.Tries R none (line.map .start)

inductive EitherRun.Tries : List Pattern → Attempt → Pattern → Attempt → Prop
  | here {s : Attempt} {p : Pattern} {ps : List Pattern} : Tries (p :: ps) s p s
  | next {s t u : Attempt} {log : List Move} {p q : Pattern} {ps : List Pattern}
      (run : R p s log false t) (rest : Tries ps (s.restored t) q u) : Tries (p :: ps) s q u

inductive EntriesRun.Tries : List Pattern → Attempt → Pattern → Attempt → Prop
  | here {s : Attempt} {p : Pattern} {ps : List Pattern} (hn : s.argv.isEmpty = false) :
      Tries (p :: ps) s p s
  | next {s t u : Attempt} {log : List Move} {p q : Pattern} {ps : List Pattern} {b : Bool}
      (hn : s.argv.isEmpty = false) (run : R p s log b t) (rest : Tries ps t q u) :
      Tries (p :: ps) s q u

end Tries

/-- A pass of a repeating group starts. -/
inductive RepeatPasses.Starts (once : Step) (leaves : List Recorded) : Attempt → Attempt → Prop
  | here {s : Attempt} (hn : s.argv.isEmpty = false) : Starts once leaves s (s.cleared leaves)
  | next {s t u : Attempt} {log : List Move} (hn : s.argv.isEmpty = false)
      (run : once (s.cleared leaves) log true t) (hne : t.argv.tokens ≠ s.argv.tokens)
      (rest : Starts once leaves t u) : Starts once leaves s u

namespace Lending

inductive Borrows.Tries : List Positional → Attempt → Positional → Attempt → Prop
  | here {s : Attempt} {p : Positional} {ps : List Positional} : Tries (p :: ps) s p s
  | next {s t u : Attempt} {p q : Positional} {ps : List Positional}
      (run : p.run false s = .ok true t) (rest : Tries ps t q u) : Tries (p :: ps) s q u

/-- A loan is offered to a borrower. -/
inductive Lends.Tries (line : List Pattern) : Attempt → Positional → Attempt → Prop
  | intro {s u : Attempt} {loan : Loan} {texts : List String} {left : Slots} {p : Positional}
      (hl : loan? s.slots line = some loan) (ht : loan.texts? s.slots = some (texts, left))
      (hb : Borrows.Tries loan.borrowers ⟨left, .ofValues texts s.argv.style⟩ p u) :
      Tries line s p u

end Lending

namespace OptionOf

/-- The value pattern of an option that was found starts on a stream of its own. -/
inductive Offers (p : Pattern) (found : Argv.Found) : Attempt → Attempt → Prop
  | attached {s : Attempt} {text : String} (hr : found.attached = some text)
      (hs : (isShort s.argv found && !s.argv.style.attached) = false) :
      Offers p found s ⟨s.slots, s.argv.valueStream [⟨text, .value⟩]⟩
  | separate {s : Attempt} (hr : found.attached = none)
      (hg : (s.argv.autoDashes && s.argv.tokens[found.index]?.any Token.isDoubleDash &&
        p.arity.least != .exactly 0) = false) :
      Offers p found s ⟨s.slots, s.argv.valueStream (valueSplit s.argv found.index).2⟩
  | stacked {s : Attempt} {rest : String} {a : Argv} (hr : found.attached = some rest)
      (hs : (isShort s.argv found && !s.argv.style.attached && s.argv.style.combined) = true)
      (ha : s.argv.insert found.index (restOfStack rest) = a)
      (hg : (a.autoDashes && a.tokens[found.index + 1]?.any Token.isDoubleDash &&
        p.arity.least != .exactly 0) = false) :
      Offers p found s ⟨s.slots, a.valueStream (valueSplit a (found.index + 1)).2⟩

end OptionOf

/-! ## Calls -/

/-- What a call works on: the arguments of the program, what an option may take as its
value, or the texts of a loan. -/
inductive StreamKind where
  | arguments
  | value
  | loan
  deriving DecidableEq, Repr

structure Call where
  fuel : Nat
  counting : Bool
  pattern : Pattern
  stream : StreamKind
  state : Attempt

/-- The answer of a call. -/
def Call.answer (scope : Scope) (c : Call) : EStateM.Result Stop Attempt Bool :=
  matchPattern scope c.fuel c.counting c.pattern c.state

def answers (scope : Scope) (n : Nat) (counting : Bool) : Pattern → Step :=
  fun p s _ b t => matchPattern scope n counting p s = .ok b t

/-- A group, or a pass of it if it repeats, starts to match its line. -/
inductive Starts (scope : Scope) (n : Nat) (counting : Bool) (kind : GroupKind)
    (children : List Pattern) (repeats : Bool) : Attempt → Attempt → Prop
  | once {s : Attempt} (hr : (counting || repeats) = false) :
      Starts scope n counting kind children repeats s s
  | pass {s t : Attempt} {leaves : List Recorded} (hr : (counting || repeats) = true)
      (hl : (Pattern.group kind children repeats).recorded? scope
        (scope.depth (.group kind children repeats)) = some leaves)
      (starts : RepeatPasses.Starts (OnceRun (answers scope n false) children kind) leaves s t) :
      Starts scope n counting kind children repeats s t

/-- One call makes another. -/
inductive Call.Makes (scope : Scope) : Call → Call → Prop
  | value {n : Nat} {counting : Bool} {o : OptionAtom} {p : Pattern} {k : StreamKind}
      {s u : Attempt} {found : Argv.Found} {a : Argv} (hv : o.value = some p)
      (hw : (!counting && (s.slots.get o.slot).isTruthy) = false)
      (hf : s.argv.takeOption? o.names = some (found, a))
      (offers : OptionOf.Offers p found ⟨s.slots.modify o.slot (Slot.hit counting), a⟩ u) :
      Makes scope ⟨n + 1, counting, .option o, k, s⟩ ⟨n, counting, p, .value, u⟩
  | child {n : Nat} {counting repeats : Bool} {kind : GroupKind} {children : List Pattern}
      {p : Pattern} {k : StreamKind} {s t u : Attempt}
      (starts : Starts scope n counting kind children repeats s t)
      (tries : Scan.Tries (answers scope n false) children t p u) :
      Makes scope ⟨n + 1, counting, .group kind children repeats, k, s⟩ ⟨n, false, p, k, u⟩
  | borrower {n : Nat} {counting repeats : Bool} {children : List Pattern} {p : Positional}
      {k : StreamKind} {s t u v : Attempt} {log : List Move} {xs : List Scanned}
      (starts : Starts scope n counting .required children repeats s t)
      (scan : Scan (answers scope n false) children t log xs u)
      (ha : xs.all (·.matched) = false) (tries : Lending.Lends.Tries children u p v) :
      Makes scope ⟨n + 1, counting, .group .required children repeats, k, s⟩
        ⟨1, false, p.pattern, .loan, v⟩
  | branch {n : Nat} {counting : Bool} {branches : List Pattern} {p : Pattern} {k : StreamKind}
      {s u : Attempt} (tries : EitherRun.Tries (answers scope n counting) branches s p u) :
      Makes scope ⟨n + 1, counting, .either branches, k, s⟩ ⟨n, counting, p, k, u⟩
  | entry {n : Nat} {counting : Bool} {sc : Shortcut} {p : Pattern} {k : StreamKind}
      {s u : Attempt}
      (tries : EntriesRun.Tries (answers scope n counting) (scope.visible sc) s p u) :
      Makes scope ⟨n + 1, counting, .shortcut sc, k, s⟩ ⟨n, counting, p, k, u⟩

/-- One call leads to another, through the calls in between. -/
abbrev Call.LeadsTo (scope : Scope) : Call → Call → Prop := Relation.ReflTransGen (Makes scope)

/-! ## What holds between two calls -/

namespace Closed

variable {scope : Scope} {L : Pattern → Prop} {C : Attempt → List Move → Attempt → Prop}
  {R : Pattern → Step} {line : List Pattern} {s t u : Attempt} {p : Pattern}
  (hC : Closed scope L C)
  (hR : ∀ p ∈ line, ∀ s log b t, R p s log b t → C s log t ∧ Steady s t)
include hC hR

theorem passTries {place : Nat} {last : Option Nat} {xs : List Scanned}
    (h : Pass.Tries R place last xs s p u) (hx : ∀ x ∈ xs, x.pattern ∈ line) :
    p ∈ line ∧ ∃ log, C s log u := by
  induction h with
  | here => exact ⟨hx _ List.mem_cons_self, _, hC.toChains.aimed _ _ _⟩
  | hit _ run _ ih | miss _ run _ ih =>
    rw [List.forall_mem_cons] at hx
    obtain ⟨hp, _, hrest⟩ := ih hx.2
    have hrun := hC.trans (hC.toChains.aimed _ _ _) (hR _ hx.1 _ _ _ _ run).1
    exact ⟨hp, _, hC.trans hrun hrest⟩

theorem passesTries {last : Option Nat} {xs : List Scanned} (h : Passes.Tries R last xs s p u)
    (hx : ∀ x ∈ xs, x.pattern ∈ line) : p ∈ line ∧ ∃ log, C s log u := by
  induction h with
  | now _ pass => exact hC.passTries hR pass hx
  | later _ pass _ _ ih =>
    obtain ⟨⟨hpass, -⟩, hy⟩ := hC.steadyChains.pass hR pass hx
    obtain ⟨hp, _, hrest⟩ := ih hy
    exact ⟨hp, _, hC.trans hpass hrest⟩

theorem scanTries (h : Scan.Tries R line s p u) : p ∈ line ∧ ∃ log, C s log u := by
  apply hC.passesTries hR h
  intro x hx
  obtain ⟨p, hp, rfl⟩ := List.mem_map.mp hx
  exact hp

theorem eitherTries {ps : List Pattern} (h : EitherRun.Tries R ps s p u)
    (hps : ∀ p ∈ ps, p ∈ line) : p ∈ line ∧ ∃ log, C s log u := by
  induction h with
  | here => exact ⟨hps _ List.mem_cons_self, _, hC.refl _⟩
  | next run _ ih =>
    rw [List.forall_mem_cons] at hps
    obtain ⟨hp, _, hrest⟩ := ih hps.2
    obtain ⟨-, hs⟩ := hR _ hps.1 _ _ _ _ run
    exact ⟨hp, _, hC.trans (hC.restored hs) hrest⟩

theorem entriesTries {ps : List Pattern} (h : EntriesRun.Tries R ps s p u)
    (hps : ∀ p ∈ ps, p ∈ line) : p ∈ line ∧ ∃ log, C s log u := by
  induction h with
  | here => exact ⟨hps _ List.mem_cons_self, _, hC.refl _⟩
  | next _ run _ ih =>
    rw [List.forall_mem_cons] at hps
    obtain ⟨hp, _, hrest⟩ := ih hps.2
    exact ⟨hp, _, hC.trans (hR _ hps.1 _ _ _ _ run).1 hrest⟩

end Closed

/-! ## What holds of the streams -/

/-- A value stream is what stands behind the flag of the option, what is attached to it,
or empty. -/
theorem OptionOf.Offers.stream {p : Pattern} {names : Names} {found : Argv.Found} {a : Argv}
    {slots : Slots} {s u : Attempt} (hs : Tokenized s.argv.tokens)
    (hf : s.argv.takeOption? names = some (found, a)) (h : Offers p found ⟨slots, a⟩ u) :
    u.argv.autoDashes = false ∧ ∃ xs x ys, s.argv.tokens = xs ++ x :: ys ∧ x.kind = .flag ∧
      (u.argv.tokens = ys ∨ u.argv.tokens = [] ∨ ∃ text, u.argv.tokens = [⟨text, .value⟩]) := by
  -- The option as if its value pattern used up its stream.
  let o : OptionAtom := { names, value := some p }
  let value : Pattern → Step := fun _ v log _ w => v = u ∧ log = [] ∧ w.argv.tokens = []
  have ends {v : Attempt} (hv : v = u) : value p v [] true ⟨slots, a.valueStream []⟩ :=
    ⟨hv, rfl, rfl⟩
  have completes : ∃ log t, o.Completes value found ⟨slots, a⟩ log t := by
    cases h with
    | attached hr hs => exact ⟨_, _, .attached rfl hr hs (ends rfl) rfl⟩
    | separate hr hg => exact ⟨_, _, .separate rfl hr (.intro hg (ends rfl))⟩
    | stacked hr hs ha hg =>
      subst ha
      exact ⟨_, _, .stackedSeparate rfl hr hs (.intro hg (ends rfl))⟩
  obtain ⟨_, t, hc⟩ := completes
  obtain @⟨xs, x, ys, _, _, htokens, hk, -, -, -, uses⟩ := takes_of_completes hs hf hc
  generalize t.argv.tokens = us, t.slots = slots' at uses
  cases uses with
  | flag hv => cases hv
  | attached _ _ _ run =>
    obtain ⟨rfl, -⟩ := run
    exact ⟨rfl, _, _, _, htokens, hk, .inr (.inr ⟨_, rfl⟩)⟩
  | separate _ _ _ hg run =>
    obtain ⟨rfl, -⟩ := run
    rcases hg with ⟨rfl, -⟩ | ⟨rfl, -, -⟩
    · exact ⟨rfl, _, _, _, htokens, hk, .inl rfl⟩
    · exact ⟨rfl, _, _, _, htokens, hk, .inr (.inl rfl)⟩

/-- All tokens stand for values, as those of a loan do. -/
def Argv.AllValues (a : Argv) : Prop := ∀ t ∈ a.tokens, t.kind = .value

theorem Argv.allValues_ofValues (texts : List String) (style : OptionStyle) :
    (Argv.ofValues texts style).AllValues := by
  intro t ht
  obtain ⟨text, -, rfl⟩ := List.mem_map.mp ht
  rfl

theorem Positional.Runs.allValues {p : Positional} {counting b : Bool} {s t : Attempt}
    {log : List Move} (h : p.Runs counting s log b t) (hs : s.argv.AllValues) :
    t.argv.AllValues := by
  cases h with
  | filled | barred => exact hs
  | refused =>
    intro t ht
    rw [Argv.positional_tokens] at ht
    exact hs t ht
  | taken =>
    intro t ht
    replace ht := List.mem_of_mem_eraseIdx ht
    rw [Argv.positional_tokens] at ht
    exact hs t ht

namespace Lending

variable {p : Positional} {s u : Attempt}

theorem Borrows.Tries.allValues {ps : List Positional} (h : Borrows.Tries ps s p u)
    (hs : s.argv.AllValues) : u.argv.AllValues := by
  induction h with
  | here => exact hs
  | next run _ ih =>
    obtain ⟨_, runs⟩ := Positional.runs_of_run run
    exact ih (runs.allValues hs)

theorem Lends.Tries.allValues {line : List Pattern} (h : Lends.Tries line s p u) :
    u.argv.AllValues := by
  obtain ⟨-, -, hb⟩ := h
  exact hb.allValues (Argv.allValues_ofValues _ _)

end Lending

section Streams

variable {scope : Scope} {D : Argv → Argv → Prop} {n : Nat} {counting repeats : Bool}
  {kind : GroupKind} {children : List Pattern} {p : Pattern} {s t u : Attempt} {c d : Call}
  (hD : Closed scope (fun _ => True) fun s _ t => D s.argv t.argv)
include hD

theorem Closed.argv_trans (h : D s.argv t.argv) (h' : D t.argv u.argv) : D s.argv u.argv :=
  @Chains.trans _ hD.toChains s t u [] [] h h'

theorem Closed.of_answers {log : List Move} {b : Bool} (h : answers scope n counting p s log b t) :
    D s.argv t.argv ∧ Steady s t := by
  obtain ⟨_, run⟩ := run_of_matchPattern h
  exact hD.run_steady (fun _ _ => trivial) run

/-- The stream when a pass starts comes from the one when the group was called. -/
theorem Closed.starts (h : Starts scope n counting kind children repeats s t) :
    D s.argv t.argv := by
  have once {s t : Attempt} {log : List Move} {b : Bool}
      (run : OnceRun (answers scope n false) children kind s log b t) : D s.argv t.argv :=
    (hD.onceRun (fun _ _ _ _ _ _ => hD.of_answers)
      (fun q (_ : Pattern.Reaches scope (.group kind children repeats) q) => trivial) run).1
  cases h with
  | once => exact hD.refl s
  | pass _ _ starts =>
    induction starts with
    | @here s => exact hD.refl s
    | @next s t u _ _ run _ _ ih => exact hD.argv_trans (s := s.cleared _) (once run) ih

/-- A call works on what its caller has come to, unless it has a stream of its own: that
of a value or that of a loan. -/
theorem Call.Makes.argv (h : c.Makes scope d) :
    (d.stream = c.stream ∧ D c.state.argv d.state.argv) ∨
      (d.stream = .value ∧ ∃ o p found a slots, c.pattern = .option o ∧
        c.state.argv.takeOption? o.names = some (found, a) ∧
        OptionOf.Offers p found ⟨slots, a⟩ d.state) ∨
      d.stream = .loan ∧ d.state.argv.AllValues := by
  have hR : ∀ ps : List Pattern, ∀ counting n, ∀ p ∈ ps, ∀ s log b t,
      answers scope n counting p s log b t → D s.argv t.argv ∧ Steady s t :=
    fun _ _ _ _ _ _ _ _ _ => hD.of_answers
  cases h with
  | value _ _ hf offers => exact .inr (.inl ⟨rfl, _, _, _, _, _, rfl, hf, offers⟩)
  | child starts tries =>
    obtain ⟨-, _, htries⟩ := hD.scanTries (hR _ _ _) tries
    exact .inl ⟨rfl, hD.argv_trans (hD.starts starts) htries⟩
  | borrower _ _ _ tries => exact .inr (.inr ⟨rfl, tries.allValues⟩)
  | branch tries =>
    obtain ⟨-, _, htries⟩ := hD.eitherTries (hR _ _ _) tries fun _ => id
    exact .inl ⟨rfl, htries⟩
  | entry tries =>
    obtain ⟨-, _, htries⟩ := hD.entriesTries (hR _ _ _) tries fun _ => id
    exact .inl ⟨rfl, htries⟩

end Streams

end Synopsis
