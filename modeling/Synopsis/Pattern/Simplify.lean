import Synopsis.Pattern.Basic

/-! # Simplification

Removes nesting that says nothing: groups around a single group, empty groups
and alternations, and alternations between single arguments, which become one
argument with several names. Shortcuts that are not kept disappear.
-/

namespace Synopsis

/-- Optional as soon as one of two nested groups is. -/
def GroupKind.merge : GroupKind → GroupKind → GroupKind
  | .required, .required => .required
  | _, _ => .optional

namespace Pattern

/-- A group around one simplified pattern. Two nested groups become one, except
that `[(a b)]` keeps its parentheses: without them `a` could stand alone. -/
def absorb (kind : GroupKind) (repeats : Bool) : Pattern → Pattern
  | .group inner [only] innerRepeats => .group (kind.merge inner) [only] (repeats || innerRepeats)
  | .group inner children innerRepeats =>
    if kind = .optional ∧ inner = .required then
      .group .optional [.group inner children innerRepeats] repeats
    else .group inner children (repeats || innerRepeats)
  | p => .group kind [p] repeats

/-- The group of some simplified children, if any is left. -/
def collapse (kind : GroupKind) (repeats : Bool) : List Pattern → Option Pattern
  | [] => none
  | [only] => some (absorb kind repeats only)
  | children => some (.group kind children repeats)

/-- The names of a plain group of the given kind that holds one argument. -/
def soleArgument? (kind : GroupKind) : Pattern → Option Names
  | .group k [.argument leaf] false => if k = kind then some leaf.names else none
  | _ => none

/-- `[<name> | <pattern>]` becomes one argument known by both names. -/
def mergeArguments? : List Pattern → Option Pattern
  | .group kind children repeats :: rest => do
    let names ← (.group kind children repeats :: rest).mapM (soleArgument? kind)
    some (.group kind [.argument { names := names.foldl .union {} }] false)
  | _ => none

/-- The alternation of some simplified branches, if any is left. -/
def alternation : List Pattern → Option Pattern
  | [] => none
  | branches => some ((mergeArguments? branches).getD (.either branches))

mutual

def simplifyWith (keep : Shortcut → Bool) : Pattern → Option Pattern
  | .shortcut s => if keep s then some (.shortcut s) else none
  | .either branches => alternation (simplifyAll keep branches)
  | .group kind children repeats => collapse kind repeats (simplifyAll keep children)
  | p => some p

def simplifyAll (keep : Shortcut → Bool) : List Pattern → List Pattern
  | [] => []
  | p :: ps => (simplifyWith keep p).toList ++ simplifyAll keep ps

end

/-- `none` when nothing is left. -/
def simplify : Pattern → Option Pattern := simplifyWith fun _ => true

end Pattern

end Synopsis
