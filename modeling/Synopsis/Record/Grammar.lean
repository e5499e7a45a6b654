import Synopsis.Data.Json.Printer
import Synopsis.Data.Json.Reader
import Synopsis.Grammar.Basic
import Synopsis.Record.Config
import Synopsis.Record.Pattern

/-! # Grammars as data

A grammar is kept as a record of the version of the format, its settings, the
help text it comes from, its options and its usages. The slots and the option
table are made anew when it is read.
-/

namespace Synopsis

/-! ## Parts -/

def SectionText.toDatum (s : SectionText) : Datum :=
  .record [("title", .str s.title), ("text", .str s.text)]

def SectionText.ofDatum? (positional : Bool) (d : Datum) : Option SectionText := do
  let fields ← d.fields? positional ["title", "text"]
  some {
    title := ← Datum.requiredField? fields "title" Datum.string?
    text := ← Datum.requiredField? fields "text" Datum.string? }

def SourceText.toDatum (s : SourceText) : Datum :=
  .record [("usage", .str s.usage), ("options", .list (s.options.map SectionText.toDatum))]

def SourceText.ofDatum? (positional : Bool) (d : Datum) : Option SourceText := do
  let fields ← d.fields? positional ["usage", "options"]
  some {
    usage := ← Datum.requiredField? fields "usage" Datum.string?
    options := ← Datum.fieldOr? fields "options" [] fun d => do
      (← d.list?).mapM (SectionText.ofDatum? positional) }

def OptionGroup.toDatum (g : OptionGroup) : Datum :=
  .record [("title", .str g.title), ("options", .list (g.entries.map Pattern.toDatum))]

def OptionGroup.ofDatum? (positional : Bool) (d : Datum) : Option OptionGroup := do
  let fields ← d.fields? positional ["title", "options"]
  some {
    title := ← Datum.requiredField? fields "title" Datum.string?
    entries := ← Datum.requiredField? fields "options" fun d => do
      (← d.list?).mapM Pattern.decode? }

def Registry.toDatum (r : Registry) : Datum := .list (r.groups.map OptionGroup.toDatum)

def Registry.ofDatum? (positional : Bool) (d : Datum) : Option Registry := do
  some ⟨← (← d.list?).mapM (OptionGroup.ofDatum? positional)⟩

/-! ## Records -/

structure GrammarRecord where
  version : String
  config : Config
  source : SourceText
  registry : Registry
  usages : List Pattern
  deriving DecidableEq

namespace GrammarRecord

def toDatum (r : GrammarRecord) : Datum :=
  .record [("version", .str r.version), ("config", r.config.toDatum),
    ("source", r.source.toDatum), ("options", r.registry.toDatum),
    ("usages", .list (r.usages.map Pattern.toDatum))]

def fieldNames : List String := ["version", "config", "source", "options", "usages"]

/-- The parts of a record may be lists of their fields if `positional`. -/
def ofDatum? (positional : Bool) (d : Datum) : Option GrammarRecord := do
  let fields ← d.fields? positional fieldNames
  some {
    version := ← Datum.requiredField? fields "version" Datum.string?
    config := ← Datum.fieldOr? fields "config" {} (Config.ofDatum? positional)
    source := ← Datum.fieldOr? fields "source" {} (SourceText.ofDatum? positional)
    registry := ← Datum.fieldOr? fields "options" {} (Registry.ofDatum? positional)
    usages := ← Datum.requiredField? fields "usages" fun d => do (← d.list?).mapM Pattern.decode? }

end GrammarRecord

namespace Grammar

def formatVersion : String := "1.0.0"

/-- The number that has to be the same for a record to be read. -/
def majorVersion (version : String) : String :=
  String.ofList (version.toList.takeWhile (· ≠ '.'))

def toRecord (g : Grammar) : GrammarRecord where
  version := formatVersion
  config := g.config
  source := g.source
  registry := g.registry
  usages := g.usages

def ofRecord (r : GrammarRecord) : Except BuildError Grammar :=
  if majorVersion r.version = majorVersion formatVersion then
    build r.config r.source r.registry r.usages
  else .error (.unsupportedVersion r.version)

def toJson (g : Grammar) : String := Json.pretty 0 g.toRecord.toDatum

def toYaml (g : Grammar) : String := Yaml.render g.toRecord.toDatum

def ofRecord? (r : Option GrammarRecord) : Except BuildError Grammar :=
  match r with
  | some r => ofRecord r
  | none => .error .invalidRecord

/-- The grammar of a text whose values are nested up to a limit, if there is one. -/
def ofJsonWithin (limit : Option Nat) (text : String) : Except BuildError Grammar :=
  ofRecord? ((Json.parseWithin? limit text).bind (GrammarRecord.ofDatum? true))

def ofJson (text : String) : Except BuildError Grammar := ofJsonWithin (some Json.maxDepth) text

def ofYaml (text : String) : Except BuildError Grammar :=
  ofRecord? ((Yaml.parse? text).bind (GrammarRecord.ofDatum? false))

end Grammar

end Synopsis
