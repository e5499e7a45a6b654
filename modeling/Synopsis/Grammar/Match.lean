import Synopsis.Grammar.Basic
import Synopsis.Grammar.Report
import Synopsis.Text.Blank

/-! # Results

The usages are tried in order, and the first one that takes all arguments is
reported. A report has the same keys whichever usage matched: the others
contribute neutral values, declared options their defaults, and `--` says
whether the end of the options was marked.
-/

namespace Synopsis

abbrev Mapping := OrderedMap String Value

namespace Grammar

def reporter (g : Grammar) : Reporter := ⟨g.scope, g.config.appearedOnly⟩

/-! ## Other usages -/

/-- A value in the shape that another usage expects under its key. -/
def reshape (expected : Value) (v : Value) : Value :=
  match expected, v with
  | .int _, v => v.count?.elim v .int
  | .list _, .null => .list []
  | .list _, .str text => .list [text]
  | .list _, .bool b => .list [toString b]
  | .list _, .int n => .list [toString n]
  | _, v => v

/-- Adds the neutral values of a usage that did not match. -/
def addNeutral (m neutral : Mapping) : Mapping :=
  neutral.entries.foldl (fun m (key, v) => m.insertWith (fun old v => reshape v old) key v) m

/-! ## Declared options -/

def splitDefault (text : String) : Value := .list ((Text.words text.toList).map String.ofList)

/-- A declared option that some usage reports: a default replaces a value that is
not truthy. -/
def declaredReported (o : OptionAtom) (repeats : Bool) (v : Value) : Value :=
  let split := match v with
    | .int _ | .list _ => true
    | _ => repeats
  let v := match v.isTruthy, o.default with
    | false, some text => if split then splitDefault text else .str text
    | _, _ => v
  if !o.takesValue && repeats then v.count?.elim v .int else v

/-- A declared option that no usage reports. -/
def declaredUnreported (o : OptionAtom) (repeats : Bool) (slot : Slot) : Value :=
  match o.default with
  | some text =>
    let split := match slot with
      | .count _ | .list _ => true
      | _ => repeats
    if split || (o.takesValue && !o.valueArity.isAtMostOne) then splitDefault text else .str text
  | none =>
    if o.takesValue then if o.valueArity.isAtMostOne then .null else .list []
    else slot.hits repeats

def addDeclared (g : Grammar) (slots : Slots) (m : Mapping) (o : OptionAtom) (repeats : Bool) :
    Mapping :=
  match o.names.toList.findSome? m.find? with
  | some v => m.union (.const o.names.toList (declaredReported o repeats v))
  | none =>
    if g.config.appearedOnly then m
    else m.union (.const o.names.toList (declaredUnreported o repeats (slots.get o.slot)))

/-! ## The end of the options -/

/-- An end of the options that was only put in front of the first positional
argument does not count. -/
def dashesValue (c : Config) (v : Value) : Value :=
  let v := if c.optionsFirst then
    match v with
    | .bool _ => .bool false
    | .int n => .int (max (n - 1) 0)
    | v => v
  else v
  if c.autoDoubleDash then .bool v.isTruthy else v

/-! ## Matching -/

/-- The result when the usage of that number has matched with these slots. -/
def assemble (g : Grammar) (i : Nat) (slots : Slots) (dashes : Bool) : Mapping :=
  let matched : Mapping := match g.usages[i]? with
    | some usage =>
      .ofList ((g.reporter.collect slots false usage).entries.filterMap fun (key, v) =>
        v.map (key, ·))
    | none => {}
  let others := g.usages.eraseIdx i
  let m := others.foldl (fun m usage => addNeutral m (g.reporter.neutral false usage)) matched
  let m := g.registry.options.foldl (fun m (o, repeats) => g.addDeclared slots m o repeats) m
  m.insert "--" (dashesValue g.config ((m.find? "--").getD (.bool dashes)))

/-- Tries the usages from number `i` on. If none takes all arguments, the last
error that one of them raised is the answer. -/
def matchFrom (g : Grammar) (tokens : Argv) (last : MatchError) :
    Nat → List Pattern → Except Stop Mapping
  | _, [] => .error (.error last)
  | i, _ :: rest =>
    match g.matchAlternative i ⟨.blank g.slotCount, tokens⟩ with
    | .ok matched left =>
      if matched && left.argv.isExhausted then
        .ok (g.assemble i left.slots left.argv.checkDash.dashes)
      else matchFrom g tokens last (i + 1) rest
    | .error (.error e) _ => matchFrom g tokens e (i + 1) rest
    | .error .outOfFuel _ => .error .outOfFuel

/-- The result of the first usage that takes all arguments, which come without
the name of the program. -/
def matchArgs (g : Grammar) (raw : List String) : Except Stop Mapping :=
  match g.tokenize raw with
  | .error e => .error (.error e)
  | .ok tokens => g.matchFrom tokens .noUsageMatched 0 g.usages

end Grammar

end Synopsis
