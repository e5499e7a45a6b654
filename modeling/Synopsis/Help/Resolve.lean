import Synopsis.Config
import Synopsis.Pattern.Arity
import Synopsis.Pattern.Expand
import Synopsis.Pattern.Order
import Synopsis.Pattern.Render
import Synopsis.Pattern.Simplify
import Synopsis.Registry

/-! # From usage lines to usages

The options of a usage line get the names and values that their declarations
give them, shortcuts hide the options that their line spells out, and every
alternation is split into usages of its own.
-/

namespace Synopsis.Help

def checkArity (declared written : OptionAtom) : Except BuildError Unit :=
  if declared.valueArity = written.valueArity then .ok ()
  else .error (.inconsistentArity (declared.names.join ", ") declared.valueArity.render
    written.valueArity.render)

mutual

/-- An argument, or a group of nothing but arguments. -/
def isValueWritten : Pattern → Bool
  | .argument _ => true
  | .group _ children _ => !children.isEmpty && areValuesWritten children
  | _ => false

def areValuesWritten : List Pattern → Bool
  | [] => true
  | p :: ps => isValueWritten p && areValuesWritten ps

end

/-- Where options are declared: in an options section, or by a value that a usage
line gives them. -/
structure Declarations where
  registry : Registry
  inline : List OptionAtom := []

namespace Declarations

/-- The declaration that shares a name with an option. -/
def find? (d : Declarations) (o : OptionAtom) : Option OptionAtom :=
  ((o.names.toList.findSome? d.registry.find?).map (·.1)).or
    (d.inline.find? fun known => !known.names.isDisjoint o.names)

/-- Adds the options with a value that no section declares. -/
def addInline (d : Declarations) (o : OptionAtom) : Except BuildError Declarations :=
  if !o.takesValue || o.names.toList.any fun name => (d.registry.find? name).isSome then .ok d
  else match d.inline.find? fun known => !known.names.isDisjoint o.names with
    | some known => do
      checkArity known o
      return d
    | none => .ok { d with inline := d.inline ++ [o] }

/-- An option with all names and the value of its declaration, and whether what
follows is its value. -/
def complete (d : Declarations) (o : OptionAtom) (next : Option Pattern) :
    Except BuildError (OptionAtom × Bool) := do
  let some declared := d.find? o | return (o, false)
  let o := { o with names := o.names.union declared.names }
  if !declared.takesValue then
    checkArity declared o
    return (o, false)
  if o.takesValue then
    checkArity declared o
    return ({ o with value := declared.value }, false)
  match next.filter isValueWritten with
  | some value =>
    checkArity declared { o with value := some value }
    return ({ o with value := declared.value }, true)
  | none => return ({ o with value := declared.value }, false)

mutual

/-- Completes the options of a pattern. -/
def resolve (d : Declarations) : Pattern → Except BuildError Pattern
  | .group kind children repeats => do
    return .group kind (← resolveAll d false children) repeats
  | .either branches => do
    return .either (← resolveEach d branches)
  | .option o => do
    return .option (← d.complete o none).1
  | p => .ok p

/-- Completes the patterns of a line, the first one being left out if it is the
value of an option before it. -/
def resolveAll (d : Declarations) (used : Bool) : List Pattern → Except BuildError (List Pattern)
  | [] => .ok []
  | p :: ps =>
    if used then resolveAll d false ps
    else match p with
      | .option o => do
        let (o, used) ← d.complete o ps.head?
        return .option o :: (← resolveAll d used ps)
      | p => do
        let p ← resolve d p
        return p :: (← resolveAll d false ps)

def resolveEach (d : Declarations) : List Pattern → Except BuildError (List Pattern)
  | [] => .ok []
  | p :: ps => do
    let p ← resolve d p
    return p :: (← resolveEach d ps)

end

end Declarations

/-- A shortcut is kept if it stands for anything, or to be reported as unknown. -/
def keepsShortcut (registry : Registry) (named : Bool) (s : Shortcut) : Bool :=
  named && !registry.hasGroupFor s || !(registry.visible s named).isEmpty

/-- All names of the options that a line spells out. -/
def spelledNames (line : Pattern) : Names :=
  .ofList (line.options.flatMap fun o => o.names.toList)

/-- The usages of a line in which all options are complete. -/
def usagesOfLine (keep : Shortcut → Bool) (line : Pattern) : List Pattern :=
  let simplified (p : Pattern) : Pattern := (p.simplifyWith keep).getD (.optional [])
  (simplified (line.hideOptions (spelledNames line))).expand.map fun p =>
    (simplified p).optionsAhead

/-- The usages that some lines stand for. -/
def usagesOfLines (config : Config) (registry : Registry) (lines : List Pattern) :
    Except BuildError (List Pattern) := do
  let declarations ← (lines.flatMap Pattern.options).foldlM Declarations.addInline { registry }
  let resolved ← lines.mapM declarations.resolve
  return resolved.flatMap (usagesOfLine (keepsShortcut registry config.namedOptionGroups))

end Synopsis.Help
