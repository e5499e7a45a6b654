import Synopsis.Pattern.Basic

/-! # Options first

Within a group, children made of options only are tried before all others. Alternations
are left as they are.
-/

namespace Synopsis.Pattern

mutual

/-- Neither a command nor an argument nor an alternation occurs. -/
def isOptionsOnly : Pattern → Bool
  | .option _ | .shortcut _ => true
  | .command _ | .argument _ | .either _ => false
  | .group _ children _ => areOptionsOnly children

def areOptionsOnly : List Pattern → Bool
  | [] => true
  | p :: ps => isOptionsOnly p && areOptionsOnly ps

end

mutual

/-- Moves the children made of options only to the front of every group. -/
def optionsAhead : Pattern → Pattern
  | .group kind children repeats =>
    let children := optionsAheadAll children
    .group kind (children.filter isOptionsOnly ++ children.filter (!isOptionsOnly ·)) repeats
  | p => p

def optionsAheadAll : List Pattern → List Pattern
  | [] => []
  | p :: ps => optionsAhead p :: optionsAheadAll ps

end

end Synopsis.Pattern
