import Synopsis.Pattern.Basic

/-! # Slot numbers

Every leaf that can record something gets a slot of its own, from left to
right; an option comes before the leaves of its value pattern.
-/

namespace Synopsis.Pattern

mutual

/-- The pattern with slots from `next` on, and the first slot left free. -/
def number (next : Nat) : Pattern → Pattern × Nat
  | .option ⟨names, none, fallback, _⟩ => (.option ⟨names, none, fallback, next⟩, next + 1)
  | .option ⟨names, some value, fallback, _⟩ =>
    let (value, free) := number (next + 1) value
    (.option ⟨names, some value, fallback, next⟩, free)
  | .command leaf => (.command { leaf with slot := next }, next + 1)
  | .argument leaf => (.argument { leaf with slot := next }, next + 1)
  | .group kind children repeats =>
    let (children, free) := numberAll next children
    (.group kind children repeats, free)
  | .either branches =>
    let (branches, free) := numberAll next branches
    (.either branches, free)
  | .shortcut s => (.shortcut s, next)

def numberAll (next : Nat) : List Pattern → List Pattern × Nat
  | [] => ([], next)
  | p :: ps =>
    let (p, free) := number next p
    let (ps, free) := numberAll free ps
    (p :: ps, free)

end

end Synopsis.Pattern
