import Synopsis.Command.FileAccess
import Synopsis.Command.Invocation
import Synopsis.Grammar.Match
import Synopsis.Help.Compile
import Synopsis.Pattern.Render
import Synopsis.Record.Grammar

/-! # Running commands

What each command prints, and how it fails.
-/

namespace Synopsis

inductive Failure where
  /-- The arguments do not match; the usage is shown. -/
  | mismatch (e : MatchError) (usage : String)
  | fatal (message : String)
  /-- The match did not end. -/
  | endless
  deriving DecidableEq, Repr

def Failure.exitCode : Failure → Nat
  | .mismatch _ _ => 1
  | .fatal _ | .endless => 2

/-- A command that reads and writes files. -/
abbrev CommandM (m : Type → Type) := ExceptT Failure m

def Path.quoted (p : Path) : String := "'" ++ p.text ++ "'"

/-! ## Output -/

/-- A result as text. YAML loses what is blank at its end. -/
def Mapping.toText (r : Mapping) (format : OutputFormat) : String :=
  let d := Datum.record (r.entries.map fun (key, v) => (key, v.toDatum))
  match format with
  | .json => Json.pretty 0 d
  | .yaml => String.ofList (Text.trimEnd (Yaml.render d).toList)

def Grammar.toText (g : Grammar) : OutputFormat → String
  | .json => g.toJson
  | .yaml => g.toYaml

/-- The title of a section, its options and their defaults. -/
def OptionGroup.summary (g : OptionGroup) : List String :=
  let heading := if g.title.isEmpty then "Options:" else g.title ++ " Options:"
  heading :: g.entries.map fun entry =>
    let fallback := (entry.entryOption?.bind fun (o, _) => o.default).elim ""
      fun text => " [default: " ++ text ++ "]"
    "  " ++ entry.render ++ fallback

/-- The declared options and the numbered usages, one a line. -/
def Grammar.summary (g : Grammar) : List String :=
  g.registry.groups.flatMap OptionGroup.summary
    ++ "Usages:" :: g.usages.mapIdx fun i usage => s!"  {i + 1}. " ++ usage.render

namespace Invocation

variable {m : Type → Type} [Monad m]

def fatal {α : Type} (message : String) : CommandM m α := throw (.fatal message)

/-- The value of a step on files, or a failure that tells what was tried. -/
def orFatal {α : Type} (task : String) (step : m (Except FileError α)) : CommandM m α := do
  match ← (step : m _) with
  | .ok a => return a
  | .error e => fatal (task ++ ": " ++ e.message)

/-! ## Steps -/

def loadConfig (fs : FileAccess m) : Option Path → CommandM m Config
  | none => return {}
  | some p => do
    let task := "Failed to load config " ++ p.quoted ++ ": "
    match ← (fs.read p : m _) with
    | .error .isDirectory | .error .notText => fatal (task ++ "YAML error")
    | .error e => fatal (task ++ "I/O error: " ++ e.message)
    | .ok text =>
      match Config.ofYaml? text with
      | some c => return c
      | none => fatal (task ++ "YAML error")

def compileDocument (fs : FileAccess m) (s : DocumentSource) : CommandM m Grammar := do
  let config ← loadConfig fs s.config
  let doc ← orFatal ("Failed to read " ++ s.doc.quoted) (fs.read s.doc)
  match Grammar.compile config doc with
  | .ok g => return g
  | .error e => fatal ("Failed to compile " ++ s.doc.quoted ++ ": " ++ e.message)

def loadGrammar (fs : FileAccess m) (p : Path) : CommandM m Grammar := do
  let text ← orFatal ("Failed to read " ++ p.quoted) (fs.read p)
  match if p.isYaml then Grammar.ofYaml text else Grammar.ofJson text with
  | .ok g => return g
  | .error e => fatal ("Failed to load grammar " ++ p.quoted ++ ": " ++ e.message)

def matchText (g : Grammar) (format : OutputFormat) (args : List String) : CommandM m String :=
  match g.matchArgs args with
  | .ok r => return r.toText format ++ "\n"
  | .error (.error e) => throw (.mismatch e g.source.usage)
  | .error .outOfFuel => throw .endless

/-- Writes a text to a file, whose directory is made if need be. -/
def writeOutput (fs : FileAccess m) (p : Path) (text : String) : CommandM m Unit := do
  if let some parent := p.parent? then
    orFatal ("Failed to create output directory " ++ parent.quoted)
      (fs.makeDirectories (parent.text.length + 1) parent)
  orFatal ("Failed to write " ++ p.quoted) (fs.write p text)

/-! ## Commands -/

/-- What a command prints. -/
def perform (fs : FileAccess m) : Invocation → CommandM m String
  | .match source format args => do
    matchText (← compileDocument fs source) format args
  | .compile source format output => do
    let g ← compileDocument fs source
    match output with
    | none => return g.toText format ++ "\n"
    | some p =>
      writeOutput fs p (g.toText format)
      return s!"Compiled {g.usages.length} usage alternative(s) into " ++ p.quoted ++ ".\n"
  | .run grammar format args => do
    matchText (← loadGrammar fs grammar) format args
  | .inspect source => do
    let g ← compileDocument fs source
    return String.join (g.summary.map (· ++ "\n"))

end Invocation

end Synopsis
