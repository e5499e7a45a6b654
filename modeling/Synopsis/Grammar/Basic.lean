import Synopsis.Argv.Tokenize
import Synopsis.Matcher.Basic
import Synopsis.Pattern.Slots

/-! # Grammars

The declared options and the usages of a program, ready to be matched: every
leaf has a slot of its own, and all option names are in a table.
-/

namespace Synopsis

structure SectionText where
  title : String
  text : String
  deriving DecidableEq, Repr

/-- The sections of the help text that a grammar comes from. -/
structure SourceText where
  /-- With its title. -/
  usage : String := ""
  options : List SectionText := []
  deriving DecidableEq, Repr

structure Grammar where
  config : Config
  source : SourceText
  registry : Registry
  /-- Tried in this order. -/
  usages : List Pattern
  table : OptionTable
  slotCount : Nat
  deriving DecidableEq

/-- Gives the leaves of all sections their slots, and returns the next free one. -/
def Registry.number (next : Nat) (r : Registry) : Registry × Nat :=
  let (groups, free) := go next r.groups
  (⟨groups⟩, free)
where
  go (next : Nat) : List OptionGroup → List OptionGroup × Nat
    | [] => ([], next)
    | g :: gs =>
      let (entries, free) := Pattern.numberAll next g.entries
      let (gs, free) := go free gs
      ({ g with entries } :: gs, free)

namespace Grammar

/-- The first shortcut of some usages that names no section. -/
def unknownShortcut? (registry : Registry) (usages : List Pattern) : Option Shortcut :=
  (usages.flatMap Pattern.shortcuts).find? (!registry.hasGroupFor ·)

/-- A grammar of these parts. Slots are given to the declared options first. -/
def build (config : Config) (source : SourceText) (registry : Registry) (usages : List Pattern) :
    Except BuildError Grammar := do
  if config.namedOptionGroups then
    if let some s := unknownShortcut? registry usages then
      throw (.unknownOptionsSection (s.title ++ "options"))
  let (registry, next) := registry.number 0
  let (usages, slotCount) := Pattern.numberAll next usages
  let options := registry.options.map (·.1) ++ usages.flatMap Pattern.options
  return { config, source, registry, usages, table := .ofList options, slotCount }

def scope (g : Grammar) : Scope := ⟨g.registry, g.config.namedOptionGroups⟩

def tokenize (g : Grammar) (raw : List String) : Except MatchError Argv :=
  Argv.tokenize raw g.table g.config

/-- Matches one usage. Whether anything may be left is up to the caller; a usage
that does not exist does not match. -/
def matchAlternative (g : Grammar) (i : Nat) : MatchM Bool := do
  let some usage := g.usages[i]? | return false
  matchPattern g.scope (g.scope.fuel usage (← MatchM.argv)) false usage

end Grammar

end Synopsis
