import Synopsis.Pattern.Basic

/-! # Arity

How many values a pattern can take: a set of numbers, with an unbounded member
for groups that repeat. Two declarations of one option agree when their arities
are equal.
-/

namespace Synopsis

inductive Count where
  | exactly (n : Nat)
  | unbounded
  deriving DecidableEq, Repr

namespace Count

def plus : Count → Count → Count
  | .exactly a, .exactly b => .exactly (a + b)
  | _, _ => .unbounded

/-- An unbounded count is above every number. -/
instance : Ord Count where
  compare
    | .exactly a, .exactly b => compare a b
    | .exactly _, .unbounded => .lt
    | .unbounded, .exactly _ => .gt
    | .unbounded, .unbounded => .eq

@[simp] theorem compare_exactly (a b : Nat) :
    compare (exactly a) (exactly b) = compare a b := rfl
@[simp] theorem compare_exactly_unbounded (a : Nat) :
    compare (exactly a) unbounded = .lt := rfl
@[simp] theorem compare_unbounded_exactly (a : Nat) :
    compare unbounded (exactly a) = .gt := rfl
@[simp] theorem compare_unbounded : compare unbounded unbounded = .eq := rfl

instance : Std.TransOrd Count where
  eq_swap {a b} := by
    cases a <;> cases b <;> simp
    exact Std.OrientedCmp.eq_swap
  isLE_trans {a b c} := by
    cases a <;> cases b <;> cases c <;> simp
    exact Std.TransCmp.isLE_trans

instance : Std.LawfulEqOrd Count where
  eq_of_compare {a b} := by
    cases a <;> cases b <;> simp

def render : Count → String
  | .exactly n => toString n
  | .unbounded => "inf"

end Count

abbrev Arity := OrderedSet Count

namespace Arity

def flag : Arity := .singleton (.exactly 0)

def least (a : Arity) : Count := a.toList.head?.getD (.exactly 0)

def greatest (a : Arity) : Count := a.toList.getLast?.getD (.exactly 0)

/-- At most one value can ever be taken. -/
def isAtMostOne (a : Arity) : Bool := (compare a.greatest (.exactly 1)).isLE

/-- The counts of two patterns that stand side by side. -/
def sum (a b : Arity) : Arity :=
  .ofList (a.toList.flatMap fun m => b.toList.map m.plus)

/-- The counts in braces, separated by commas. -/
def render (a : Arity) : String :=
  "\x7b" ++ ", ".intercalate (a.toList.map Count.render) ++ "\x7d"

end Arity

namespace Pattern

mutual

def arity : Pattern → Arity
  | .option _ | .command _ | .argument _ => .singleton (.exactly 1)
  | .shortcut _ => Arity.flag
  | .either branches => arityOfBranches branches
  | .group kind children repeats =>
    let counts := arityOfChildren Arity.flag children
    let counts := if repeats && !children.isEmpty then counts.insert .unbounded else counts
    if kind = .optional then counts.insert (.exactly 0) else counts

def arityOfBranches : List Pattern → Arity
  | [] => {}
  | p :: ps => (arity p).union (arityOfBranches ps)

/-- Adds the arities of the children to the counts so far. -/
def arityOfChildren (counts : Arity) : List Pattern → Arity
  | [] => counts
  | p :: ps => arityOfChildren (counts.sum (arity p)) ps

end

end Pattern

/-- A flag takes no value. -/
def OptionOf.valueArity (o : OptionAtom) : Arity := o.value.elim Arity.flag Pattern.arity

end Synopsis
