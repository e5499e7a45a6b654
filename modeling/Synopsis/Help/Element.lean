import Synopsis.Config
import Synopsis.Error
import Synopsis.Help.Lexeme
import Synopsis.Registry

/-! # Patterns of a line

Reads words into patterns. The brackets that are open form a stack; each level
holds the branches that are finished and the elements of the one being read.
-/

namespace Synopsis.Help

/-- What stands between two blanks, bars or brackets. -/
inductive Item where
  /-- A command, an argument, or the options of a stack. -/
  | atoms (ps : List Pattern)
  | shortcut (s : Shortcut)
  /-- An option with its value in brackets, or with a placeholder. -/
  | valued (name : String) (kind : GroupKind) (value : List Pattern)
  | group (kind : GroupKind) (children : List Pattern)

structure Element where
  item : Item
  /-- An ellipsis follows. -/
  repeats : Bool := false

/-- An ellipsis behind an option with a value repeats the value. -/
def Element.patterns (e : Element) : List Pattern :=
  match e.item with
  | .atoms ps => if e.repeats then [.group .required ps true] else ps
  | .shortcut s => if e.repeats then [.group .optional [.shortcut s] true] else [.shortcut s]
  | .valued name kind value =>
    [.option { names := .singleton name, value := some (.group kind value e.repeats) }]
  | .group kind children => [.group kind children e.repeats]

/-! ## Levels -/

structure Level where
  branches : List (List Element) := []
  current : List Element := []

namespace Level

def push (l : Level) (item : Item) : Level := { l with current := l.current ++ [⟨item, false⟩] }

def nextBranch (l : Level) : Level := { branches := l.branches ++ [l.current] }

/-- Makes the last element repeat, if there is one. -/
def repeatLast? (l : Level) : Option Level :=
  l.current.getLast?.map fun last =>
    { l with current := l.current.dropLast ++ [{ last with repeats := true }] }

/-- The patterns of a level: one alternation if there are several branches, of
which none may be empty then. -/
def patterns? (l : Level) : Option (List Pattern) :=
  let branches := (l.branches ++ [l.current]).map fun es => es.flatMap Element.patterns
  match branches with
  | [only] => some only
  | branches =>
    if branches.any List.isEmpty then none else some [.either (branches.map Pattern.required)]

end Level

/-- An open bracket, and the level that it stands in. -/
structure OpenBracket where
  kind : GroupKind
  /-- The option of which the bracket holds the value. -/
  option : Option String
  outer : Level

def OpenBracket.item (b : OpenBracket) (children : List Pattern) : Item :=
  match b.option with
  | some name => .valued name b.kind children
  | none => .group b.kind children

/-! ## Reading -/

/-- The options of a stack, up to the first one that is known to take a value.
The rest of the stack is its placeholder. -/
def stackedOptions (registry : Registry) : List Char → List Pattern
  | [] => []
  | c :: cs =>
    let name := String.ofList ['-', c]
    if (registry.find? name).any (·.1.takesValue) then
      let value := if cs.isEmpty then none
        else some (Pattern.required [.argumentNamed (String.ofList cs)])
      [.option { names := .singleton name, value }]
    else .optionNamed name :: stackedOptions registry cs

/-- What reading depends on besides the words. -/
structure LineContext where
  line : String
  /-- `-abc` stands for several options. -/
  standard : Bool
  registry : Registry

namespace LineContext

def options (c : LineContext) (text : String) : List Pattern :=
  if !c.standard || text.startsWith "--" || text.length ≤ 2 then [.optionNamed text]
  else stackedOptions c.registry (text.toList.drop 1)

/-- The item that a word is by itself. -/
def item? (c : LineContext) : Lexeme → Option Item
  | .shortcut title => some (.shortcut { title })
  | .option text => some (.atoms (c.options text))
  | .optionWithValue name value => some (.valued name .required [.argumentNamed value])
  | .command text => some (.atoms [.commandNamed text])
  | .argument text => some (.atoms [.argumentNamed text])
  | _ => none

def unbalanced (c : LineContext) : BuildError := .unbalancedBrackets c.line

def unexpected (c : LineContext) (token : String) : BuildError := .unexpectedToken token c.line

def finish (c : LineContext) (l : Level) : Except BuildError (List Pattern) :=
  match l.patterns? with
  | some ps => .ok ps
  | none => .error (c.unexpected "|")

/-- Reads the words that follow, with the open brackets and the innermost level. -/
def read (c : LineContext) : List OpenBracket → Level → List Lexeme → Except BuildError (List Pattern)
  | [], l, [] => c.finish l
  | _ :: _, _, [] => .error c.unbalanced
  | brackets, l, .opening kind :: rest => c.read (⟨kind, none, l⟩ :: brackets) {} rest
  | brackets, l, .assignment name :: .opening kind :: rest =>
    c.read (⟨kind, some name, l⟩ :: brackets) {} rest
  | _, _, .assignment name :: _ => .error (c.unexpected (name ++ "="))
  | [], _, .closing _ :: _ => .error c.unbalanced
  | b :: brackets, l, .closing kind :: rest =>
    if kind = b.kind then
      match c.finish l with
      | .ok children => c.read brackets (b.outer.push (b.item children)) rest
      | .error e => .error e
    else .error c.unbalanced
  | brackets, l, .bar :: rest => c.read brackets l.nextBranch rest
  | brackets, l, .ellipsis :: rest =>
    match l.repeatLast? with
    | some l => c.read brackets l rest
    | none => .error (c.unexpected "...")
  | brackets, l, lexeme :: rest =>
    match c.item? lexeme with
    | some item => c.read brackets (l.push item) rest
    | none => .error c.unbalanced

end LineContext

/-- The patterns that a line of words stands for. -/
def parseLine (config : Config) (registry : Registry) (line : List Char) (lexemes : List Lexeme) :
    Except BuildError (List Pattern) :=
  LineContext.read ⟨String.ofList (Text.trim line), config.standardLongOptions, registry⟩ [] {} lexemes

end Synopsis.Help
