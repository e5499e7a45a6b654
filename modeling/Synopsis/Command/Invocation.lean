import Synopsis.Command.Path

/-! # Command lines

What is to be done, read from the arguments of the program.
-/

namespace Synopsis

inductive OutputFormat where
  | json
  | yaml
  deriving DecidableEq, Repr

/-- Where a grammar is compiled from. -/
structure DocumentSource where
  doc : Path
  config : Option Path
  deriving DecidableEq, Repr

inductive Invocation where
  | match (source : DocumentSource) (format : OutputFormat) (args : List String)
  | compile (source : DocumentSource) (format : OutputFormat) (output : Option Path)
  | run (grammar : Path) (format : OutputFormat) (args : List String)
  | inspect (source : DocumentSource)
  deriving DecidableEq, Repr

/-- Why nothing is done. -/
inductive Refusal where
  | help
  | version
  /-- No arguments are given at all. -/
  | helpForNothing
  | missingSubcommand
  | invalidSubcommand
  | unknownArgument
  | missingArgument
  /-- A value is missing or not allowed. -/
  | invalidValue
  /-- A flag is given a value. -/
  | needlessValue
  /-- Given more than once. -/
  | repeatedArgument
  deriving DecidableEq, Repr

/-- Only asking for help or the version is not a mistake. -/
def Refusal.exitCode : Refusal → Nat
  | .help | .version => 0
  | _ => 2

def Refusal.message : Refusal → String
  | .help | .helpForNothing => "match arguments against the grammar of a help text"
  | .version => "synopsis 1.0.0"
  | .missingSubcommand => "a subcommand is required but none is given"
  | .invalidSubcommand => "unrecognized subcommand"
  | .unknownArgument => "unexpected argument"
  | .missingArgument => "a required argument is not given"
  | .invalidValue => "a value is missing or not allowed"
  | .needlessValue => "a flag is given a value"
  | .repeatedArgument => "an argument is given more than once"

/-- The subcommands with what they take. -/
def Invocation.usage : String := "\n".intercalate [
  "Usage:",
  "  synopsis [-v] match --doc=<file> [--config=<file>] [--format=<format>] [-- <args>...]",
  "  synopsis [-v] compile --doc=<file> [--config=<file>] [--format=<format>] [--output=<file>]",
  "  synopsis [-v] run --grammar=<file> [--format=<format>] [-- <args>...]",
  "  synopsis [-v] inspect --doc=<file> [--config=<file>]",
  "  synopsis (help | -h | --help | -V | --version)"]

namespace Invocation

/-! ## Subcommands and their options -/

inductive Subcommand where
  | match
  | compile
  | run
  | inspect
  deriving DecidableEq, Repr

inductive Setting where
  | doc
  | config
  | format
  | output
  | grammar
  deriving DecidableEq, Repr

def Subcommand.ofName? : String → Option Subcommand
  | "match" => some .match
  | "compile" => some .compile
  | "run" => some .run
  | "inspect" => some .inspect
  | _ => none

def Setting.name : Setting → String
  | .doc => "doc"
  | .config => "config"
  | .format => "format"
  | .output => "output"
  | .grammar => "grammar"

namespace Subcommand

def settings : Subcommand → List Setting
  | .match => [.doc, .config, .format]
  | .compile => [.doc, .config, .format, .output]
  | .run => [.grammar, .format]
  | .inspect => [.doc, .config]

/-- Takes arguments to match behind `--`. -/
def takesArgs : Subcommand → Bool
  | .match | .run => true
  | .compile | .inspect => false

def setting? (c : Subcommand) (name : String) : Option Setting :=
  c.settings.find? (·.name == name)

end Subcommand

/-! ## Words -/

/-- An argument that is not `--`. -/
inductive Word where
  /-- `--name` or `--name=value`. -/
  | long (name : String) (value : Option String)
  /-- `-x` or several such flags. -/
  | short (flags : List Char)
  | plain (text : String)
  deriving DecidableEq, Repr

def Word.ofString (arg : String) : Word :=
  match arg.toList with
  | '-' :: '-' :: cs =>
    let name := cs.takeWhile (· ≠ '=')
    .long (String.ofList name) <| match cs.drop name.length with
      | _ :: value => some (String.ofList value)
      | [] => none
  | '-' :: c :: cs => .short (c :: cs)
  | _ => .plain arg

/-! ## Options of a subcommand -/

structure Given where
  values : List (Setting × String) := []
  /-- An option whose value may still follow, or is not looked at yet. -/
  pending : Option (Setting × Option String) := none
  verbose : Bool := false
  args : List String := []

def formatNamed? : String → Option OutputFormat
  | "json" => some .json
  | "yaml" => some .yaml
  | _ => none

def isValidValue : Setting → String → Bool
  | .format, v => (formatNamed? v).isSome
  | _, v => v ≠ ""

namespace Given

/-- Adds the value of an option, which may be given once. -/
def add (g : Given) (s : Setting) (v : String) : Except Refusal Given :=
  if (g.values.lookup s).isSome then .error .repeatedArgument
  else if isValidValue s v then .ok { g with values := g.values ++ [(s, v)] }
  else .error .invalidValue

/-- Looks at the value of the pending option. -/
def settle (g : Given) : Except Refusal Given :=
  match g.pending with
  | none => .ok g
  | some (_, none) => .error .invalidValue
  | some (s, some v) => add { g with pending := none } s v

def setVerbose (g : Given) : Except Refusal Given := do
  let g ← g.settle
  if g.verbose then .error .repeatedArgument else .ok { g with verbose := true }

def addShort (g : Given) : List Char → Except Refusal Given
  | [] => .ok g
  | 'v' :: cs => do (← g.setVerbose).addShort cs
  | 'h' :: _ => do
    let _ ← g.settle
    .error .help
  | _ => .error .unknownArgument

/-- An unknown argument counts for more than a bad value before it. -/
def addWord (c : Subcommand) (g : Given) : Word → Except Refusal Given
  | .long "verbose" none => g.setVerbose
  | .long "help" none => do
    let _ ← g.settle
    .error .help
  | .long "verbose" (some _) | .long "help" (some _) => .error .needlessValue
  | .long name value =>
    match c.setting? name, value with
    | some s, some v => do (← g.settle).add s v
    | some s, none => do return { ← g.settle with pending := some (s, none) }
    | none, _ => .error .unknownArgument
  | .short flags => g.addShort flags
  | .plain text =>
    match g.pending with
    | some (s, none) => .ok { g with pending := some (s, some text) }
    | _ => .error .unknownArgument

/-- Reads the arguments behind the name of a subcommand. -/
def addAll (c : Subcommand) (g : Given) : List String → Except Refusal Given
  | [] => g.settle
  | "--" :: rest =>
    if rest.isEmpty then g.settle
    else if c.takesArgs then do return { ← g.settle with args := rest }
    else .error .unknownArgument
  | arg :: rest => do (← g.addWord c (.ofString arg)).addAll c rest

def path? (g : Given) (s : Setting) : Option Path := (g.values.lookup s).map Path.mk

def path (g : Given) (s : Setting) : Except Refusal Path :=
  match g.path? s with
  | some p => .ok p
  | none => .error .missingArgument

def format (g : Given) : OutputFormat := ((g.values.lookup .format).bind formatNamed?).getD .json

def source (g : Given) : Except Refusal DocumentSource := do
  return ⟨← g.path .doc, g.path? .config⟩

end Given

def ofSubcommand (c : Subcommand) (args : List String) : Except Refusal Invocation := do
  let g ← Given.addAll c {} args
  match c with
  | .match => return .match (← g.source) g.format g.args
  | .compile => return .compile (← g.source) g.format (g.path? .output)
  | .run => return .run (← g.path .grammar) g.format g.args
  | .inspect => return .inspect (← g.source)

/-! ## The whole command line -/

def isSubcommandName (name : String) : Bool :=
  name = "help" || (Subcommand.ofName? name).isSome

/-- Behind `help` may stand the name of one subcommand. -/
def helpFor : List String → Refusal
  | [] => .help
  | [name] => if isSubcommandName name then .help else .invalidSubcommand
  | _ => .invalidSubcommand

/-- What flags before the subcommand ask for. -/
def topFlags (verbose : Bool) : List Char → Except Refusal Bool
  | [] => .ok verbose
  | 'v' :: cs => if verbose then .error .repeatedArgument else topFlags true cs
  | 'h' :: _ => .error .help
  | 'V' :: _ => .error .version
  | _ => .error .unknownArgument

/-- A word before the subcommand that is not its name. -/
def topWord (verbose : Bool) : Word → Except Refusal Bool
  | .long name value =>
    if name = "verbose" || name = "help" || name = "version" then
      if value.isSome then .error .needlessValue
      else topFlags verbose [if name = "verbose" then 'v' else if name = "help" then 'h' else 'V']
    else .error .unknownArgument
  | .short flags => topFlags verbose flags
  | .plain _ => .error .invalidSubcommand

def nothingGiven (verbose : Bool) : Refusal :=
  if verbose then .missingSubcommand else .helpForNothing

def parseFrom (verbose : Bool) : List String → Except Refusal Invocation
  | [] => .error (nothingGiven verbose)
  | "--" :: rest =>
    match rest with
    | [] => .error (nothingGiven verbose)
    | name :: _ =>
      .error (if isSubcommandName name then .unknownArgument else .invalidSubcommand)
  | "help" :: rest => .error (helpFor rest)
  | arg :: rest =>
    match Subcommand.ofName? arg with
    | some c => ofSubcommand c rest
    | none => do parseFrom (← topWord verbose (.ofString arg)) rest

/-- The arguments come without the name of the program. -/
def parse (args : List String) : Except Refusal Invocation := parseFrom false args

end Invocation

end Synopsis
