import Synopsis.Collections.OrderedMap
import Synopsis.Matcher.Recorded
import Synopsis.Pattern.Arity

/-! # Reports

What the slots of a usage say under the names of its leaves, and what they would
say if nothing had matched.
-/

namespace Synopsis

/-- How a match is reported. -/
structure Reporter where
  scope : Scope
  /-- Options that did not appear are left out. -/
  appearedOnly : Bool

/-- How many values an option reports. -/
inductive Width where
  | flag
  | one
  | many
  deriving DecidableEq, Repr

def OptionOf.width (o : OptionAtom) (inRepeat : Bool) : Width :=
  match o.value with
  | none => .flag
  | some value =>
    if inRepeat then .many
    else match value.arity.greatest with
      | .exactly 0 => .flag
      | .exactly 1 => .one
      | _ => .many

/-- A number, where something can be met again; the truth value otherwise. -/
def Slot.hits (s : Slot) (inRepeat : Bool) : Value :=
  if inRepeat then .int (s.count?.getD 0)
  else match s with
    | .unset => .bool false
    | s => s.toValue

mutual

/-- The texts of all arguments in a value pattern. -/
def Pattern.texts (slots : Slots) : Pattern → List String
  | .argument leaf => (slots.get leaf.slot).texts
  | .group _ children _ => Pattern.textsAll slots children
  | .either branches => Pattern.textsAll slots branches
  | .option _ | .command _ | .shortcut _ => []

def Pattern.textsAll (slots : Slots) : List Pattern → List String
  | [] => []
  | p :: ps => Pattern.texts slots p ++ Pattern.textsAll slots ps

end

namespace Reporter

/-! ## What matched -/

def option (r : Reporter) (slots : Slots) (inRepeat : Bool) (o : OptionAtom) : Reported :=
  let slot := slots.get o.slot
  let texts := o.value.elim [] (Pattern.texts slots)
  if slot.isTruthy then
    match o.width inRepeat, slot with
    | .flag, .count n => some (.int n)
    | .flag, _ => some (if inRepeat then .int (slot.count?.getD 0) else .bool true)
    | .one, _ => some (texts.head?.elim .null .str)
    | .many, _ => some (.list texts)
  else if r.appearedOnly then none
  else match o.width inRepeat, slot with
    | .flag, .count n => some (.int n)
    | .flag, _ => some (.bool false)
    | .one, _ => some .null
    | .many, _ => some (.list [])

def argument (slots : Slots) (inRepeat : Bool) (leaf : Leaf) : Value :=
  let slot := slots.get leaf.slot
  if inRepeat then .list slot.texts else slot.toValue

/-- The options behind a shortcut, each with whether it can be met again. -/
def behind (r : Reporter) (s : Shortcut) (inRepeat : Bool) : List (OptionAtom × Bool) :=
  ((r.scope.visible s).filterMap Pattern.entryOption?).map fun (o, repeats) =>
    (o, inRepeat || repeats)

/-- One value under all names of each of some options, the later ones winning. -/
def byName {ν : Type} (value : OptionAtom → Bool → ν) (options : List (OptionAtom × Bool)) :
    OrderedMap String ν :=
  .ofList (options.flatMap fun (o, inRepeat) => o.names.toList.map (·, value o inRepeat))

def mergeReports (m n : OrderedMap String Reported) : OrderedMap String Reported :=
  n.entries.foldl (fun m (key, v) => m.insertWith (Reported.merge key) key v) m

mutual

/-- The report of a usage that matched. Leaves with the same name are merged. -/
def collect (r : Reporter) (slots : Slots) (inRepeat : Bool) :
    Pattern → OrderedMap String Reported
  | .option o => .const o.names.toList (r.option slots inRepeat o)
  | .command leaf => .const leaf.names.toList (some ((slots.get leaf.slot).hits inRepeat))
  | .argument leaf => .const leaf.names.toList (some (argument slots inRepeat leaf))
  | .group _ children repeats => collectAll r slots (inRepeat || repeats) {} children
  | .either branches => collectAll r slots inRepeat {} branches
  | .shortcut s => byName (fun o again => r.option slots again o) (r.behind s inRepeat)

/-- Adds the reports of some patterns to a report. -/
def collectAll (r : Reporter) (slots : Slots) (inRepeat : Bool)
    (m : OrderedMap String Reported) : List Pattern → OrderedMap String Reported
  | [] => m
  | p :: ps => collectAll r slots inRepeat (mergeReports m (collect r slots inRepeat p)) ps

end

/-! ## What did not match -/

def neutralOption (o : OptionAtom) (inRepeat : Bool) : Value :=
  match o.width inRepeat with
  | .flag => if inRepeat then .int 0 else .bool false
  | .one => .null
  | .many => .list []

/-- The neutral value of a name that occurs twice on a line. -/
def mergeNeutral (a b : Value) : Value :=
  match a.count?, b.count? with
  | some m, some n => .int (m + n)
  | _, _ => .list []

mutual

/-- The values that a usage has when nothing in it matched. -/
def neutral (r : Reporter) (inRepeat : Bool) : Pattern → OrderedMap String Value
  | .option o => if r.appearedOnly then {} else .const o.names.toList (neutralOption o inRepeat)
  | .command leaf => .const leaf.names.toList (if inRepeat then .int 0 else .bool false)
  | .argument leaf => .const leaf.names.toList (if inRepeat then .list [] else .null)
  | .group _ children repeats =>
    if inRepeat || repeats then neutralLast r true {} children
    else neutralMerged r {} children
  | .either branches => neutralLast r inRepeat {} branches
  | .shortcut s => if r.appearedOnly then {} else byName neutralOption (r.behind s inRepeat)

/-- Of leaves with the same name the last one wins. -/
def neutralLast (r : Reporter) (inRepeat : Bool) (m : OrderedMap String Value) :
    List Pattern → OrderedMap String Value
  | [] => m
  | p :: ps => neutralLast r inRepeat (m.union (neutral r inRepeat p)) ps

/-- Leaves with the same name are merged. -/
def neutralMerged (r : Reporter) (m : OrderedMap String Value) :
    List Pattern → OrderedMap String Value
  | [] => m
  | p :: ps =>
    let m := (neutral r false p).entries.foldl (fun m (key, v) => m.insertWith mergeNeutral key v) m
    neutralMerged r m ps

end

end Reporter

end Synopsis
