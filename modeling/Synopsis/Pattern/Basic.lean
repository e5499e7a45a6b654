import Synopsis.Collections.OrderedSet

/-! # Patterns

A usage line is a tree. Its leaves are options, commands, arguments and
shortcuts; groups and alternations are its inner nodes. An option may carry a
tree of its own, the pattern of its values.
-/

namespace Synopsis

abbrev Names := OrderedSet String

inductive GroupKind where
  /-- `( )` -/
  | required
  /-- `[ ]` -/
  | optional
  deriving DecidableEq, Repr

/-- An option with all its aliases, over the type of its value pattern. The
slot says where a match records the option. -/
structure OptionOf (π : Type) where
  names : Names
  value : Option π := none
  default : Option String := none
  slot : Nat := 0
  deriving DecidableEq

/-- A command or an argument. -/
structure Leaf where
  names : Names
  slot : Nat := 0
  deriving DecidableEq, Repr

/-- The placeholder `[options]`, or `[title-options]` with the title `title-`.
Hidden names belong to options spelled out on the same usage line. -/
structure Shortcut where
  title : String
  hidden : Names := {}
  deriving DecidableEq, Repr

inductive Pattern where
  | option (o : OptionOf Pattern)
  | command (leaf : Leaf)
  | argument (leaf : Leaf)
  | group (kind : GroupKind) (children : List Pattern) (repeats : Bool)
  | either (branches : List Pattern)
  | shortcut (s : Shortcut)
  deriving Inhabited

abbrev OptionAtom := OptionOf Pattern

namespace Pattern

def required (children : List Pattern) : Pattern := .group .required children false

def optional (children : List Pattern) : Pattern := .group .optional children false

def argumentNamed (name : String) : Pattern := .argument { names := .singleton name }

def commandNamed (name : String) : Pattern := .command { names := .singleton name }

def optionNamed (name : String) : Pattern := .option { names := .singleton name }

/-- Puts `...` behind a pattern. What is not a group becomes one first. -/
def repeated : Pattern → Pattern
  | .group kind children _ => .group kind children true
  | p => .group .required [p] true

def isAtom : Pattern → Bool
  | .option _ | .command _ | .argument _ => true
  | _ => false

def isRepeatingGroup : Pattern → Bool
  | .group _ _ repeats => repeats
  | _ => false

/-! ## Leaves -/

mutual

/-- The leaves from left to right. Value patterns are not entered. -/
def leaves : Pattern → List Pattern
  | .group _ children _ => leavesAll children
  | .either branches => leavesAll branches
  | p => [p]

def leavesAll : List Pattern → List Pattern
  | [] => []
  | p :: ps => leaves p ++ leavesAll ps

end

mutual

/-- Replaces every leaf outside value patterns. -/
def mapLeaves (f : Pattern → Pattern) : Pattern → Pattern
  | .group kind children repeats => .group kind (mapLeavesAll f children) repeats
  | .either branches => .either (mapLeavesAll f branches)
  | p => f p

def mapLeavesAll (f : Pattern → Pattern) : List Pattern → List Pattern
  | [] => []
  | p :: ps => mapLeaves f p :: mapLeavesAll f ps

end

def option? : Pattern → Option OptionAtom
  | .option o => some o
  | _ => none

def shortcut? : Pattern → Option Shortcut
  | .shortcut s => some s
  | _ => none

/-- Every option outside value patterns, in order. -/
def options (p : Pattern) : List OptionAtom := p.leaves.filterMap option?

/-- Every shortcut outside value patterns, in order. -/
def shortcuts (p : Pattern) : List Shortcut := p.leaves.filterMap shortcut?

/-- Makes every shortcut hide the given names, instead of those it hid before. -/
def hideOptions (names : Names) : Pattern → Pattern :=
  mapLeaves fun
    | .shortcut s => .shortcut { s with hidden := names }
    | p => p

@[simp] theorem leavesAll_eq_flatMap : ∀ ps : List Pattern, leavesAll ps = ps.flatMap leaves
  | [] => rfl
  | p :: ps => by simp [leavesAll, leavesAll_eq_flatMap ps]

@[simp] theorem mapLeavesAll_eq_map (f : Pattern → Pattern) :
    ∀ ps : List Pattern, mapLeavesAll f ps = ps.map (mapLeaves f)
  | [] => rfl
  | p :: ps => by simp [mapLeavesAll, mapLeavesAll_eq_map f ps]

/-! ## Size -/

mutual

/-- The number of nodes, value patterns included. -/
def nodes : Pattern → Nat
  | .option ⟨_, some v, _, _⟩ => nodes v + 1
  | .group _ children _ => nodesAll children + 1
  | .either branches => nodesAll branches + 1
  | _ => 1

def nodesAll : List Pattern → Nat
  | [] => 0
  | p :: ps => nodes p + nodesAll ps

end

/-! ## Equality -/

mutual

def beq : Pattern → Pattern → Bool
  | .option ⟨n, none, d, s⟩, .option ⟨n', none, d', s'⟩ => n == n' && d == d' && s == s'
  | .option ⟨n, some v, d, s⟩, .option ⟨n', some v', d', s'⟩ =>
    n == n' && beq v v' && d == d' && s == s'
  | .command l, .command l' => l == l'
  | .argument l, .argument l' => l == l'
  | .group k ps r, .group k' ps' r' => k == k' && beqAll ps ps' && r == r'
  | .either ps, .either ps' => beqAll ps ps'
  | .shortcut s, .shortcut s' => s == s'
  | _, _ => false

def beqAll : List Pattern → List Pattern → Bool
  | [], [] => true
  | p :: ps, q :: qs => beq p q && beqAll ps qs
  | _, _ => false

end

mutual

theorem eq_of_beq {p q : Pattern} (h : beq p q = true) : p = q := by
  unfold beq at h
  split at h <;> simp_all
  · exact eq_of_beq h.1.1.2
  · exact eqAll_of_beqAll h.1.2
  · exact eqAll_of_beqAll h

theorem eqAll_of_beqAll {ps qs : List Pattern} (h : beqAll ps qs = true) : ps = qs := by
  unfold beqAll at h
  split at h <;> simp_all
  exact ⟨eq_of_beq h.1, eqAll_of_beqAll h.2⟩

end

mutual

theorem beq_self : ∀ p : Pattern, beq p p = true
  | .option ⟨_, none, _, _⟩ => by simp [beq]
  | .option ⟨_, some v, _, _⟩ => by simp [beq, beq_self v]
  | .command _ => by simp [beq]
  | .argument _ => by simp [beq]
  | .group _ ps _ => by simp [beq, beqAll_self ps]
  | .either ps => by simp [beq, beqAll_self ps]
  | .shortcut _ => by simp [beq]

theorem beqAll_self : ∀ ps : List Pattern, beqAll ps ps = true
  | [] => rfl
  | p :: ps => by simp [beqAll, beq_self p, beqAll_self ps]

end

instance : DecidableEq Pattern := fun p q =>
  if h : beq p q then .isTrue (eq_of_beq h)
  else .isFalse fun e => h (e ▸ beq_self p)

end Pattern

namespace OptionOf

def takesValue (o : OptionAtom) : Bool := o.value.isSome

def hasName (o : OptionAtom) (name : String) : Bool := o.names.contains name

end OptionOf

end Synopsis
