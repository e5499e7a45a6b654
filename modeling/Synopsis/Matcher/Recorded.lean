import Synopsis.Registry
import Synopsis.Slot

/-! # Recording leaves

The leaves that a pattern can fill, value patterns and the options behind
shortcuts included, and how their slots are cleared before a pass of a
repeating group and merged after the last one.
-/

namespace Synopsis

/-- The declared options, and whether shortcuts stand for one section each. -/
structure Scope where
  registry : Registry
  named : Bool
  deriving DecidableEq

/-- The entries that a shortcut stands for. -/
def Scope.visible (scope : Scope) (s : Shortcut) : List Pattern :=
  scope.registry.visible s scope.named

/-- What a leaf records: how often it was met, or the texts that it took. -/
inductive RecordKind where
  | hits
  | texts
  deriving DecidableEq, Repr

structure Recorded where
  kind : RecordKind
  slot : Nat
  deriving DecidableEq, Repr

/-- Every leaf that a pattern can fill; `none` if there is no end to them within
the given depth. -/
def Pattern.recorded? (scope : Scope) : Nat → Pattern → Option (List Recorded)
  | 0, _ => none
  | n + 1, p =>
    let all (ps : List Pattern) := (ps.mapM (recorded? scope n)).map List.flatten
    match p with
    | .option o => do
      let inner ← all o.value.toList
      some (⟨.hits, o.slot⟩ :: inner)
    | .command leaf => some [⟨.hits, leaf.slot⟩]
    | .argument leaf => some [⟨.texts, leaf.slot⟩]
    | .group _ children _ => all children
    | .either branches => all branches
    | .shortcut s => all (scope.visible s)

/-- Deep enough unless a value pattern leads back to its own option. -/
def Scope.depth (scope : Scope) (p : Pattern) : Nat :=
  Pattern.nodesAll scope.registry.entries + p.nodes + 1

namespace Recorded

/-- A slot at the start of a pass. -/
def cleared (r : Recorded) (s : Slot) : Slot :=
  match r.kind, s with
  | .texts, .list _ => .list []
  | .texts, _ => .unset
  | .hits, .unset => .unset
  | .hits, .count _ => .count 0
  | .hits, _ => .flag false

/-- A slot at the end, from its contents before the first pass and after each. -/
def merged (r : Recorded) (history : List Slot) : Slot :=
  match r.kind with
  | .hits => .count (history.foldr (fun s n => s.count?.getD 0 + n) 0)
  | .texts => .list (history.flatMap Slot.texts)

def clearAll (rs : List Recorded) (slots : Slots) : Slots :=
  rs.foldl (fun s r => s.modify r.slot r.cleared) slots

def mergeAll (rs : List Recorded) (history : List Slots) (slots : Slots) : Slots :=
  rs.foldl (fun s r => s.set r.slot (r.merged (history.map (·.get r.slot)))) slots

end Recorded

end Synopsis
