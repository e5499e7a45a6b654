import Synopsis.Error
import Synopsis.Pattern.Basic
import Synopsis.Text.Blank
import Synopsis.Text.Lowercase

/-! # Declared options

The options that the options sections of a document announce, section by
section. Shortcuts stand for them.
-/

namespace Synopsis

/-- The option and repeat flag of an entry, which is an optional group around
one option. -/
def Pattern.entryOption? : Pattern → Option (OptionAtom × Bool)
  | .group .optional [.option o] repeats => some (o, repeats)
  | _ => none

/-- One options section. -/
structure OptionGroup where
  title : String
  entries : List Pattern := []
  deriving DecidableEq

namespace OptionGroup

def push (g : OptionGroup) (o : OptionAtom) (repeats : Bool) : OptionGroup :=
  { g with entries := g.entries ++ [.group .optional [.option o] repeats] }

def options (g : OptionGroup) : List (OptionAtom × Bool) :=
  g.entries.filterMap Pattern.entryOption?

/-- All names of the options, in order. -/
def names (g : OptionGroup) : List String := g.options.flatMap fun (o, _) => o.names.toList

end OptionGroup

/-- Titles that differ in case, in blanks, or in hyphens and underscores for
blanks are the same. -/
def normalizeTitle (title : String) : String :=
  let cs := (Text.lower title).toList.map fun c => if c = '-' || c = '_' then ' ' else c
  " ".intercalate ((Text.words cs).map String.ofList)

structure Registry where
  groups : List OptionGroup := []
  deriving DecidableEq

namespace Registry

def isEmpty (r : Registry) : Bool := r.groups.all (·.entries.isEmpty)

def entries (r : Registry) : List Pattern := r.groups.flatMap (·.entries)

/-- Every declared option with its repeat flag, in order. -/
def options (r : Registry) : List (OptionAtom × Bool) := r.entries.filterMap Pattern.entryOption?

def names (r : Registry) : List String := r.groups.flatMap OptionGroup.names

def find? (r : Registry) (name : String) : Option (OptionAtom × Bool) :=
  r.options.find? fun (o, _) => o.hasName name

/-- The first of some names that occurs before it, or among the names seen. -/
def firstDuplicate? (seen : List String) : List String → Option String
  | [] => none
  | name :: names => if seen.contains name then some name else firstDuplicate? (name :: seen) names

/-- Appends a section. No name may be declared twice. -/
def pushGroup (r : Registry) (g : OptionGroup) : Except BuildError Registry :=
  match firstDuplicate? r.names g.names with
  | some name => .error (.duplicateOption name)
  | none => .ok { groups := r.groups ++ [g] }

/-- There is a section with the title of the shortcut. -/
def hasGroupFor (r : Registry) (s : Shortcut) : Bool :=
  r.groups.any fun g => normalizeTitle g.title == normalizeTitle s.title

/-- The entries that a shortcut stands for: those of its own section if sections
are named, and only options that it does not hide. -/
def visible (r : Registry) (s : Shortcut) (named : Bool) : List Pattern :=
  let groups := r.groups.filter fun g =>
    !named || normalizeTitle g.title == normalizeTitle s.title
  (groups.flatMap (·.entries)).filter fun entry =>
    entry.entryOption?.any fun (o, _) => o.names.isDisjoint s.hidden

end Registry

end Synopsis
