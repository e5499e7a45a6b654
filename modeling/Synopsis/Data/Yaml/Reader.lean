import Synopsis.Data.Yaml.Token

/-! # Reading YAML

A stream holds one document, or none, which counts as an empty scalar. An alias
stands for a copy of what its anchor marks.
-/

namespace Synopsis.Yaml

def empty : Datum := .plain ""

/-- What the anchors passed so far mark, the last one first. -/
abbrev Anchors := List (String × Datum)

/-- A reader of the tokens that are left. -/
abbrev TokenReader := StateT (List Token × Anchors) Option

namespace TokenReader

def peek? : TokenReader (Option Token) := return (← get).1.head?

def next : TokenReader Unit := modify fun (ts, anchors) => (ts.drop 1, anchors)

/-- Takes a token if it is the given one. -/
def accept (t : Token) : TokenReader Bool := do
  if (← peek?) = some t then
    next
    return true
  return false

def expect (t : Token) : TokenReader Unit := do
  if !(← accept t) then failure

/-- Whether the next token is one of the given ones. -/
def sees (ts : List Token) : TokenReader Bool := do
  return (← peek?).any ts.contains

end TokenReader

open TokenReader

/-- Nested deeper, nothing can be read. -/
def maxDepth : Nat := 128

def anchor? : TokenReader (Option String) := do
  if let some (.anchor name) ← peek? then
    next
    return some name
  return none

def tag? : TokenReader (Option String) := do
  if let some (.tag text) ← peek? then
    next
    return some text
  return none

/-- The anchor and the tag before a node, in either order. -/
def properties : TokenReader (Option String × Option String) := do
  match ← anchor? with
  | some name => return (some name, ← tag?)
  | none =>
    let tag ← tag?
    return (← anchor?, tag)

/-- Under the tag for text, a plain scalar is text. -/
def applyTag (tag : Option String) (d : Datum) : Datum :=
  match tag, d with
  | some "!!str", .plain t | some "!", .plain t => .str t
  | _, d => d

/-- What ends the value of a key or an item that is left out. -/
def blockStops : List Token := [.key, .value, .blockEnd]

/-- Goes one level down. -/
def descend (depth : Nat) : TokenReader Nat := do
  if depth = 0 then failure
  return depth - 1

mutual

/-- A node. Blocks may only begin outside brackets; a sequence that is not
indented only behind a key. -/
def node : (limit depth : Nat) → (isBlock isUnderKey : Bool) → TokenReader Datum
  | 0, _, _, _ => failure
  | limit + 1, depth, isBlock, isUnderKey => do
    if let some (.alias name) ← peek? then
      next
      (← get).2.lookup name
    else
      let (anchor, tag) ← properties
      let d ← content limit depth isBlock isUnderKey (anchor.isSome || tag.isSome)
      let d := applyTag tag d
      if let some name := anchor then
        modify fun (ts, anchors) => (ts, (name, d) :: anchors)
      return d

def content : (limit depth : Nat) → (isBlock isUnderKey mayBeEmpty : Bool) → TokenReader Datum
  | 0, _, _, _, _ => failure
  | limit + 1, depth, isBlock, isUnderKey, mayBeEmpty => do
    match ← peek?, isBlock with
    | some (.scalar isPlain text), _ =>
      next
      return if isPlain then .plain text else .str text
    | some .flowSequence, _ =>
      next
      flowItems limit (← descend depth) true []
    | some .flowMapping, _ =>
      next
      flowEntries limit (← descend depth) true []
    | some .blockSequence, true =>
      next
      blockItems limit (← descend depth) []
    | some .blockMapping, true =>
      next
      blockEntries limit (← descend depth) []
    | t, _ =>
      if t = some .blockEntry && isUnderKey then looseItems limit (← descend depth) []
      else if mayBeEmpty then return empty
      else failure

/-- The items of a sequence that is indented. -/
def blockItems : (limit depth : Nat) → List Datum → TokenReader Datum
  | 0, _, _ => failure
  | limit + 1, depth, items => do
    if ← accept .blockEnd then return .list items.reverse
    expect .blockEntry
    let d ← if ← sees [.blockEntry, .blockEnd] then pure empty else node limit depth true false
    blockItems limit depth (d :: items)

/-- The items of a sequence that is not indented. -/
def looseItems : (limit depth : Nat) → List Datum → TokenReader Datum
  | 0, _, _ => failure
  | limit + 1, depth, items => do
    if !(← accept .blockEntry) then return .list items.reverse
    let d ← if ← sees (.blockEntry :: blockStops) then pure empty else node limit depth true false
    looseItems limit depth (d :: items)

def blockEntries : (limit depth : Nat) → List (Datum × Datum) → TokenReader Datum
  | 0, _, _ => failure
  | limit + 1, depth, entries => do
    if ← accept .blockEnd then return .map entries.reverse
    let hasKey ← accept .key
    if !hasKey && !(← sees [.value]) then failure
    let k ← if !hasKey || (← sees blockStops) then pure empty else node limit depth true true
    let hasValue ← accept .value
    let v ← if !hasValue || (← sees blockStops) then pure empty else node limit depth true true
    blockEntries limit depth ((k, v) :: entries)

/-- The value of an entry in brackets, unless one of the given tokens comes first. -/
def flowValue : (limit depth : Nat) → (stops : List Token) → TokenReader Datum
  | 0, _, _ => failure
  | limit + 1, depth, stops => do
    if !(← accept .value) || (← sees stops) then return empty
    node limit depth false false

def flowItems : (limit depth : Nat) → (isFirst : Bool) → List Datum → TokenReader Datum
  | 0, _, _, _ => failure
  | limit + 1, depth, isFirst, items => do
    if ← accept .flowSequenceEnd then return .list items.reverse
    if !isFirst then expect .flowEntry
    if ← accept .key then
      let depth' ← descend depth
      let k ← if ← sees [.value, .flowEntry, .flowSequenceEnd] then pure empty
        else node limit depth' false false
      let v ← flowValue limit depth' [.flowEntry, .flowSequenceEnd]
      flowItems limit depth false (.map [(k, v)] :: items)
    else if ← accept .flowSequenceEnd then return .list items.reverse
    else
      let d ← node limit depth false false
      flowItems limit depth false (d :: items)

def flowEntries : (limit depth : Nat) → (isFirst : Bool) → List (Datum × Datum) → TokenReader Datum
  | 0, _, _, _ => failure
  | limit + 1, depth, isFirst, entries => do
    if ← accept .flowMappingEnd then return .map entries.reverse
    if !isFirst then expect .flowEntry
    if ← accept .key then
      let k ← if ← sees [.value, .flowEntry, .flowMappingEnd] then pure empty
        else node limit depth false false
      let v ← flowValue limit depth [.flowEntry, .flowMappingEnd]
      flowEntries limit depth false ((k, v) :: entries)
    else if ← accept .flowMappingEnd then return .map entries.reverse
    else
      let k ← node limit depth false false
      flowEntries limit depth false ((k, empty) :: entries)

end

/-- Takes tokens as long as they are the given one. -/
def dropAll (t : Token) : List Token → List Token
  | [] => []
  | u :: us => if u = t then dropAll t us else u :: us

/-- The document of a stream. Directives need a line that begins the document. -/
def documentOf? (ts : List Token) : Option Datum := do
  let behindDirectives := dropAll .directive ts
  let hasStart := behindDirectives.head? = some .documentStart
  guard (hasStart ∨ behindDirectives.length = ts.length)
  let ts := if hasStart then behindDirectives.drop 1 else ts
  let stops : List Token := [.directive, .documentStart, .documentEnd]
  let (d, rest) ←
    if ts.head?.all stops.contains then some (empty, ts)
    else ((node (4 * (ts.length + 1)) maxDepth true false).run (ts, [])).map fun (d, rest, _) =>
      (d, rest)
  guard (dropAll .documentEnd rest).isEmpty
  some d

def parse? (text : String) : Option Datum := do documentOf? (← tokenize? text)

end Synopsis.Yaml
