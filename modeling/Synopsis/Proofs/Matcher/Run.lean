import Synopsis.Matcher.Basic

/-! # Runs of a match

What a match that comes to an answer does, rule by rule, with the moves by which
it used up its stream. `Run` follows the recursion of `matchPattern`; the scans,
repetitions and loans inside it are relations over the runs of the smaller
patterns.
-/

namespace Synopsis

/-! ## Moves -/

/-- One use of the stream, with the place of the token at that time. -/
inductive Move where
  /-- A command or an argument takes a token. -/
  | take (slot place : Nat)
  /-- An option takes a flag, or its own name off a stack that stays. -/
  | flag (slot place : Nat) (stays : Bool)
  deriving DecidableEq, Repr

namespace Move

def slot : Move → Nat
  | .take slot _ | .flag slot _ _ => slot

/-- The move as seen from a stream with more tokens in front. -/
def shift (k : Nat) : Move → Move
  | .take slot place => .take slot (place + k)
  | .flag slot place stays => .flag slot (place + k) stays

/-- What a move leaves of a list that is used up like the stream. -/
def remaining {α : Type} : Move → List α → List α
  | .take _ place, l | .flag _ place false, l => l.eraseIdx place
  | .flag _ _ true, l => l

/-- What commands and arguments take of a list that is used up like the stream,
with their slots, the first one first. -/
def taken {α : Type} : List Move → List α → List (Nat × α)
  | [], _ => []
  | m :: log, l =>
    let rest := taken log (m.remaining l)
    match m with
    | .take slot place => (l[place]?.toList.map (slot, ·)) ++ rest
    | .flag .. => rest

end Move

/-- From one attempt to another, with the moves in between and the answer. -/
abbrev Step := Attempt → List Move → Bool → Attempt → Prop

namespace Attempt

/-- Up to the last positional that matched, only options may be taken. -/
def aimed (s : Attempt) (place : Nat) (last : Option Nat) : Attempt :=
  { s with argv := { s.argv with optionOnly := last.any (place ≤ ·) } }

/-- The state after the slots, tokens and end of options of `saved` came back. -/
def restored (saved s : Attempt) : Attempt :=
  ⟨saved.slots, { s.argv with tokens := saved.argv.tokens, dashes := saved.argv.dashes }⟩

def cleared (leaves : List Recorded) (s : Attempt) : Attempt :=
  { s with slots := Recorded.clearAll leaves s.slots }

end Attempt

/-! ## Leaves -/

namespace Positional

inductive Runs (p : Positional) (counting : Bool) : Step
  | filled {s : Attempt}
      (hf : (!counting && p.isFilled s.slots) = true) : Runs p counting s [] true s
  | barred {s : Attempt}
      (hw : (!counting && p.isFilled s.slots) = false) (ho : s.argv.optionOnly = true) :
      Runs p counting s [] false s
  | refused {s : Attempt}
      (hw : (!counting && p.isFilled s.slots) = false) (ho : s.argv.optionOnly = false)
      (hr : ∀ place ∈ s.argv.positional.2, ∀ t ∈ s.argv.tokens[place]?,
        p.accepts place t = false) :
      Runs p counting s [] false { s with argv := s.argv.positional.1 }
  | taken {s : Attempt} {place : Nat} {token : Token}
      (hw : (!counting && p.isFilled s.slots) = false) (ho : s.argv.optionOnly = false)
      (hp : s.argv.positional.2 = some place) (ht : s.argv.tokens[place]? = some token)
      (ha : p.accepts place token = true) :
      Runs p counting s [.take p.slot place] true
        ⟨s.slots.modify p.slot (p.record counting token.text), s.argv.positional.1.remove place⟩

end Positional

namespace OptionOf

/-- The tokens that stay, and those that a value pattern may take from a place on. -/
def valueSplit (a : Argv) (place : Nat) : List Token × List Token :=
  if a.autoDashes && a.tokens[place]?.any Token.isDoubleDash then (a.tokens, [])
  else (a.tokens.take place, a.tokens.drop place)

inductive TakesSeparate (value : Step) (arity : Arity) (place : Nat) :
    Attempt → List Move → Attempt → Prop
  | intro {s t : Attempt} {log : List Move}
      (hg : (s.argv.autoDashes && s.argv.tokens[place]?.any Token.isDoubleDash &&
        arity.least != .exactly 0) = false)
      (run : value ⟨s.slots, s.argv.valueStream (valueSplit s.argv place).2⟩ log true t) :
      TakesSeparate value arity place s
        (log.map (Move.shift (valueSplit s.argv place).1.length))
        ⟨t.slots, { s.argv with tokens := (valueSplit s.argv place).1 ++ t.argv.tokens }⟩

/-- A name that is written with one hyphen under the standard style. -/
def isShort (a : Argv) (found : Argv.Found) : Bool :=
  a.style.standard && !found.name.startsWith "--"

/-- What follows once the option was taken out of the stream and recorded. -/
inductive Completes (o : OptionAtom) (value : Pattern → Step) (found : Argv.Found) :
    Attempt → List Move → Attempt → Prop
  | plain {s : Attempt} (hv : o.value = none) (hr : found.attached = none) :
      Completes o value found s [.flag o.slot found.index false] s
  | stacked {s : Attempt} {rest : String} (hv : o.value = none) (hr : found.attached = some rest)
      (hs : (isShort s.argv found && s.argv.style.combined) = true) :
      Completes o value found s [.flag o.slot found.index true]
        { s with argv := s.argv.insert found.index (restOfStack rest) }
  | attached {s t : Attempt} {log : List Move} {p : Pattern} {text : String} (hv : o.value = some p)
      (hr : found.attached = some text)
      (hs : (isShort s.argv found && !s.argv.style.attached) = false)
      (run : value p ⟨s.slots, s.argv.valueStream [⟨text, .value⟩]⟩ log true t)
      (he : t.argv.isEmpty = true) :
      Completes o value found s [.flag o.slot found.index false] ⟨t.slots, s.argv⟩
  | separate {s t : Attempt} {log : List Move} {p : Pattern}
      (hv : o.value = some p) (hr : found.attached = none)
      (run : TakesSeparate (value p) p.arity found.index s log t) :
      Completes o value found s (.flag o.slot found.index false :: log) t
  | stackedSeparate {s t : Attempt} {log : List Move} {p : Pattern} {rest : String}
      (hv : o.value = some p)
      (hr : found.attached = some rest)
      (hs : (isShort s.argv found && !s.argv.style.attached && s.argv.style.combined) = true)
      (run : TakesSeparate (value p) p.arity (found.index + 1)
        { s with argv := s.argv.insert found.index (restOfStack rest) } log t) :
      Completes o value found s (.flag o.slot found.index true :: log) t

inductive Runs (o : OptionAtom) (value : Pattern → Step) (counting : Bool) : Step
  | filled {s : Attempt} (hf : (!counting && (s.slots.get o.slot).isTruthy) = true) :
      Runs o value counting s [] true s
  | absent {s : Attempt} (hw : (!counting && (s.slots.get o.slot).isTruthy) = false)
      (hn : s.argv.takeOption? o.names = none) : Runs o value counting s [] false s
  | found {s t : Attempt} {log : List Move} {found : Argv.Found} {a : Argv}
      (hw : (!counting && (s.slots.get o.slot).isTruthy) = false)
      (hf : s.argv.takeOption? o.names = some (found, a))
      (hc : Completes o value found ⟨s.slots.modify o.slot (Slot.hit counting), a⟩ log t) :
      Runs o value counting s log true t

end OptionOf

/-! ## Loans -/

namespace Lending

inductive Borrows : List Positional → Attempt → Attempt → Prop
  | nil {s : Attempt} : Borrows [] s s
  | cons {s t u : Attempt} {log : List Move} {p : Positional} {ps : List Positional}
      (run : p.Runs false s log true t)
      (rest : Borrows ps t u) : Borrows (p :: ps) s u

/-- A loan moves texts between slots and takes nothing from the stream. -/
inductive Lends (line : List Pattern) : Attempt → Attempt → Prop
  | intro {s t : Attempt} {loan : Loan} {texts : List String} {left : Slots}
      (hl : loan? s.slots line = some loan) (ht : loan.texts? s.slots = some (texts, left))
      (hb : Borrows loan.borrowers ⟨left, .ofValues texts s.argv.style⟩ t) :
      Lends line s ⟨t.slots, s.argv⟩

end Lending

/-! ## Lines -/

section Lines

variable (R : Pattern → Step)

inductive Pass : Nat → Option Nat → List Scanned → Attempt → List Move → Option Nat →
    List Scanned → Attempt → Prop
  | nil {s : Attempt} {place : Nat} {last : Option Nat} : Pass place last [] s [] last [] s
  | empty {s : Attempt} {place : Nat} {last : Option Nat} {x : Scanned} {xs : List Scanned}
      (he : s.argv.isEmpty = true) : Pass place last (x :: xs) s [] last (x :: xs) s
  | hit {s t u : Attempt} {log log' : List Move} {place : Nat} {last last' : Option Nat}
      {x : Scanned} {xs ys : List Scanned}
      (hn : s.argv.isEmpty = false) (run : R x.pattern (s.aimed place last) log true t)
      (rest : Pass (place + 1)
        (if !x.matched && x.pattern.positional?.isSome then some place else last) xs t log'
        last' ys u) :
      Pass place last (x :: xs) s (log ++ log') last' ({ x with matched := true } :: ys) u
  | miss {s t u : Attempt} {log log' : List Move} {place : Nat} {last last' : Option Nat}
      {x : Scanned} {xs ys : List Scanned}
      (hn : s.argv.isEmpty = false) (run : R x.pattern (s.aimed place last) log false t)
      (rest : Pass (place + 1) last xs t log' last' ys u) :
      Pass place last (x :: xs) s (log ++ log') last' (x :: ys) u

inductive Passes : Option Nat → List Scanned → Attempt → List Move → List Scanned →
    Attempt → Prop
  | empty {s : Attempt} {last : Option Nat} {xs : List Scanned} (he : s.argv.isEmpty = true) :
      Passes last xs s [] xs s
  | still {s t : Attempt} {log : List Move} {last last' : Option Nat} {xs ys : List Scanned}
      (hn : s.argv.isEmpty = false)
      (pass : Pass R 0 last xs s log last' ys t) (heq : t.argv.tokens = s.argv.tokens) :
      Passes last xs s log ys t
  | again {s t u : Attempt} {log log' : List Move} {last last' : Option Nat}
      {xs ys zs : List Scanned} (hn : s.argv.isEmpty = false)
      (pass : Pass R 0 last xs s log last' ys t) (hne : t.argv.tokens ≠ s.argv.tokens)
      (rest : Passes last' ys t log' zs u) : Passes last xs s (log ++ log') zs u

def Scan (line : List Pattern) : Attempt → List Move → List Scanned → Attempt → Prop :=
  Passes R none (line.map .start)

inductive LineRun (line : List Pattern) : Step
  | matched {s t : Attempt} {log : List Move} {xs : List Scanned} (scan : Scan R line s log xs t)
      (ha : xs.all (·.matched) = true) : LineRun line s log true t
  | lent {s t u : Attempt} {log : List Move} {xs : List Scanned} (scan : Scan R line s log xs t)
      (ha : xs.all (·.matched) = false) (hl : Lending.Lends line t u) : LineRun line s log true u
  | failed {s t : Attempt} {log : List Move} {xs : List Scanned} (scan : Scan R line s log xs t)
      (ha : xs.all (·.matched) = false) : LineRun line s [] false (s.restored t)

inductive OnceRun (line : List Pattern) : GroupKind → Step
  | required {s t : Attempt} {log : List Move} {b : Bool}
      (run : LineRun R line s log b t) : OnceRun line .required s log b t
  | optional {s t : Attempt} {log : List Move} {xs : List Scanned} (scan : Scan R line s log xs t) :
      OnceRun line .optional s log true t

/-! ## Branches and entries -/

inductive EitherRun : List Pattern → Step
  | nil {s : Attempt} : EitherRun [] s [] false s
  | hit {s t : Attempt} {log : List Move} {p : Pattern} {ps : List Pattern}
      (run : R p s log true t) :
      EitherRun (p :: ps) s log true t
  | miss {s t u : Attempt} {log log' : List Move} {p : Pattern} {ps : List Pattern} {b : Bool}
      (run : R p s log false t)
      (rest : EitherRun ps (s.restored t) log' b u) : EitherRun (p :: ps) s log' b u

inductive EntriesRun : List Pattern → Attempt → List Move → Attempt → Prop
  | nil {s : Attempt} : EntriesRun [] s [] s
  | empty {s : Attempt} {p : Pattern} {ps : List Pattern} (he : s.argv.isEmpty = true) :
      EntriesRun (p :: ps) s [] s
  | cons {s t u : Attempt} {log log' : List Move} {p : Pattern} {ps : List Pattern} {b : Bool}
      (hn : s.argv.isEmpty = false)
      (run : R p s log b t) (rest : EntriesRun ps t log' u) :
      EntriesRun (p :: ps) s (log ++ log') u

end Lines

/-! ## Repetition -/

section Repetition

variable (once : Step) (leaves : List Recorded)

/-- The passes of a repeating group from a history on, the last pass first. -/
inductive RepeatPasses : List Slots → Attempt → List Move → List Slots → Attempt → Prop
  | empty {s : Attempt} {history : List Slots} (he : s.argv.isEmpty = true) :
      RepeatPasses history s [] history s
  | failed {s t : Attempt} {log : List Move} {history : List Slots} (hn : s.argv.isEmpty = false)
      (run : once (s.cleared leaves) log false t) : RepeatPasses history s [] history t
  | still {s t : Attempt} {log : List Move} {history : List Slots} (hn : s.argv.isEmpty = false)
      (run : once (s.cleared leaves) log true t) (heq : t.argv.tokens = s.argv.tokens) :
      RepeatPasses history s log (t.slots :: history) t
  | again {s t u : Attempt} {log log' : List Move} {history history' : List Slots}
      (hn : s.argv.isEmpty = false)
      (run : once (s.cleared leaves) log true t) (hne : t.argv.tokens ≠ s.argv.tokens)
      (rest : RepeatPasses (t.slots :: history) t log' history' u) :
      RepeatPasses history s (log ++ log') history' u

inductive RepeatRun : Step
  | none {s t : Attempt} {log : List Move} (passes : RepeatPasses once leaves [] s log [] t) :
      RepeatRun s log false ⟨s.slots, t.argv⟩
  | some {s t : Attempt} {log : List Move} {history : List Slots}
      (passes : RepeatPasses once leaves [] s log history t)
      (hh : history ≠ []) :
      RepeatRun s log true
        ⟨Recorded.mergeAll leaves (s.slots :: history.reverse) t.slots, t.argv⟩

end Repetition

/-! ## Patterns -/

def Run (scope : Scope) : Nat → (counting : Bool) → Pattern → Step
  | 0, _, _, _, _, _, _ => False
  | n + 1, counting, p, s, log, b, s' =>
    match p with
    | .option o => o.Runs (Run scope n counting) counting s log b s'
    | .command leaf => (Positional.command leaf).Runs counting s log b s'
    | .argument leaf => (Positional.argument leaf).Runs counting s log b s'
    | .group kind children repeats =>
      let once := OnceRun (Run scope n false) children kind
      if counting || repeats then
        ∃ leaves matched, p.recorded? scope (scope.depth p) = some leaves ∧
          RepeatRun once leaves s log matched s' ∧ b = (matched || kind = .optional)
      else once s log b s'
    | .either branches => EitherRun (Run scope n counting) branches s log b s'
    | .shortcut sc => EntriesRun (Run scope n counting) (scope.visible sc) s log s' ∧ b = true

end Synopsis
