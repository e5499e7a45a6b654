import Synopsis.Config
import Synopsis.Data.Decode
import Synopsis.Data.Yaml.Printer
import Synopsis.Data.Yaml.Reader

/-! # Settings as data

Settings are a record of all fields. When read, a field that is missing has its
usual value.
-/

namespace Synopsis.Config

def toDatum (c : Config) : Datum :=
  .record [
    ("standard_long_option_style", .bool c.standardLongOptions),
    ("allow_combined_short_flags", .bool c.combinedShortFlags),
    ("allow_attached_short_values", .bool c.attachedShortValues),
    ("auto_handle_double_dash", .bool c.autoDoubleDash),
    ("program_name", c.programName.elim .null .str),
    ("options_first", .bool c.optionsFirst),
    ("appeared_only", .bool c.appearedOnly),
    ("named_option_groups", .bool c.namedOptionGroups),
    ("case_sensitive_sections", .bool c.caseSensitiveSections),
    ("usage_title", .str c.usageTitle),
    ("options_title", .str c.optionsTitle)]

def fieldNames : List String :=
  ["standard_long_option_style", "allow_combined_short_flags", "allow_attached_short_values",
    "auto_handle_double_dash", "program_name", "options_first", "appeared_only",
    "named_option_groups", "case_sensitive_sections", "usage_title", "options_title"]

def ofDatum? (positional : Bool) (d : Datum) : Option Config := do
  let fields ← d.fields? positional fieldNames
  let flag (name : String) (missing : Bool) := Datum.fieldOr? fields name missing Datum.bool?
  let usual : Config := {}
  some {
    standardLongOptions := ← flag "standard_long_option_style" usual.standardLongOptions
    combinedShortFlags := ← flag "allow_combined_short_flags" usual.combinedShortFlags
    attachedShortValues := ← flag "allow_attached_short_values" usual.attachedShortValues
    autoDoubleDash := ← flag "auto_handle_double_dash" usual.autoDoubleDash
    programName := ← Datum.fieldOr? fields "program_name" usual.programName Datum.optionalString?
    optionsFirst := ← flag "options_first" usual.optionsFirst
    appearedOnly := ← flag "appeared_only" usual.appearedOnly
    namedOptionGroups := ← flag "named_option_groups" usual.namedOptionGroups
    caseSensitiveSections := ← flag "case_sensitive_sections" usual.caseSensitiveSections
    usageTitle := ← Datum.fieldOr? fields "usage_title" usual.usageTitle Datum.string?
    optionsTitle := ← Datum.fieldOr? fields "options_title" usual.optionsTitle Datum.string? }

def toYaml (c : Config) : String := Yaml.render c.toDatum

def ofYaml? (text : String) : Option Config := do ofDatum? false (← Yaml.parse? text)

end Synopsis.Config
