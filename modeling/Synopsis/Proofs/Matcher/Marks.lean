import Synopsis.Proofs.Matcher.Adequacy
import Synopsis.Proofs.Matcher.Required
import Synopsis.Proofs.Matcher.Yields

/-! # Marks of a line

A line says of each of its patterns whether it has matched. For a leaf that is just what
its slot says, and all that a scan of leaves and optional patterns says can be read off
the slots.
-/

namespace Synopsis

open Pattern (Reaches slots Distinct)

variable {scope : Scope} {n : Nat} {line : List Pattern} {c : Pattern} {table table' : Slots}
  {s t : Attempt} {log : List Move} {b : Bool} {last last' : Option Nat} {xs ys : List Scanned}

/-- A pattern of a line, which has matched if its own slot says so. -/
def Scanned.ofSlots (table : Slots) (c : Pattern) : Scanned :=
  ⟨c, c.ownRecord?.elim true (·.isMet table)⟩

/-- A leaf, or a pattern that matches whatever there is. -/
def Pattern.IsTold (c : Pattern) : Prop := c.isAtom = true ∨ (Scanned.start c).matched = true

namespace Scanned

theorem ofSlots_congr (h : ∀ i, c.slot? = some i → table'.get i = table.get i) :
    ofSlots table' c = ofSlots table c := by
  unfold ofSlots
  cases hr : c.ownRecord? with
  | none => rfl
  | some r =>
    have hget := h r.slot (by rw [Pattern.slot?, hr]; rfl)
    simp only [Option.elim_some, Recorded.isMet, hget]

theorem map_ofSlots_congr (h : ∀ c ∈ line, ∀ i, c.slot? = some i → table'.get i = table.get i) :
    line.map (ofSlots table') = line.map (ofSlots table) :=
  List.map_congr_left fun c hc => ofSlots_congr (h c hc)

theorem ofSlots_positional (table : Slots) (p : Positional) :
    ofSlots table p.pattern = ⟨p.pattern, p.isFilled table⟩ := by
  cases p <;> rfl

theorem ofSlots_of_matched (h : (start c).matched = true) : ofSlots table c = start c := by
  cases c with
  | group kind _ _ =>
    cases kind with
    | required => cases h
    | optional => rfl
  | shortcut => rfl
  | _ => cases h

end Scanned

open Scanned (ofSlots)

/-- Before anything was recorded, patterns are marked as at the start of a scan. -/
theorem Pattern.IsTold.ofSlots_eq (h : c.IsTold) (ht : ∀ i, table.get i = .unset) :
    ofSlots table c = .start c := by
  rcases h with h | h
  · cases c with
    | option | command | argument => simp [ofSlots, ownRecord?, Recorded.isMet, ht, Scanned.start,
        Slot.isTruthy, Slot.hasText]
    | group | either | shortcut => cases h
  · exact Scanned.ofSlots_of_matched h

theorem Positional.Runs.isFilled_eq {p : Positional} (h : p.Runs false s log b t) :
    p.isFilled t.slots = (b || p.isFilled s.slots) := by
  cases h with
  | filled hf => simpa using hf
  | barred hw | refused hw => rfl
  | taken => exact p.isFilled_record _ _

theorem Run.matched_eq (hd : Distinct scope [c]) (hc : c.IsTold)
    (h : Run scope n false c s log b t) :
    (ofSlots t.slots c).matched = (b || (ofSlots s.slots c).matched) := by
  cases n with
  | zero => exact h.elim
  | succ n =>
    cases c with
    | option o =>
      cases b with
      | true => exact OptionOf.Runs.isTruthy hd (fun _ _ _ _ _ run => ⟨n, run⟩) h
      | false =>
        obtain ⟨-, rfl⟩ := OptionOf.Runs.undone h
        rfl
    | command leaf => exact Positional.Runs.isFilled_eq h
    | argument leaf => exact Positional.Runs.isFilled_eq h
    | group | either | shortcut => exact (Bool.or_true b).symm

/-! ## Scans -/

/-- What no pattern of a line reaches, a pass over the line leaves alone. -/
theorem Pass.untouched {i place : Nat} (hi : ∀ c ∈ line, ∀ q, Reaches scope c q → q.slot? ≠ some i)
    (h : Pass (Run scope n false) place last xs s log last' ys t) (hx : ∀ x ∈ xs, x.pattern ∈ line) :
    Untouched i s log t :=
  ((Untouched.closed scope i).toChains.pass
    (fun c hc _ _ _ _ run => run.untouched (hi c hc)) h hx).1

/-- Patterns that are told by their slots. -/
structure Told (scope : Scope) (line : List Pattern) : Prop where
  distinct : Distinct scope line
  told : ∀ c ∈ line, c.IsTold

namespace Told

variable {line' : List Pattern} {place i : Nat} {d : Pattern}

theorem tail (h : Told scope (c :: line)) : Told scope line :=
  ⟨h.distinct.sublist (List.sublist_cons_self _ _), fun d hd => h.told d (List.mem_cons_of_mem _ hd)⟩

theorem perm (h : Told scope line) (hp : line.Perm line') : Told scope line' :=
  ⟨((hp.append_left _).flatMap_right _).filterMap _ |>.nodup h.distinct,
    fun c hc => h.told c (hp.mem_iff.mpr hc)⟩

theorem ne_head (h : Told scope (c :: line)) (hd : d ∈ line) (hi : d.slot? = some i) : c ≠ d := by
  rintro rfl
  have hnodup := h.distinct.slots_nodup
  rw [Pattern.slots_cons] at hnodup
  have hc : i ∈ slots [c] := Pattern.mem_slots_self hi
  exact (List.nodup_append'.mp hnodup).2.2 hc (Pattern.mem_slots_of_mem hd hc)

/-- A match of the first pattern does not change what is told of the others. -/
theorem map_ofSlots_of_head (h : Told scope (c :: line)) (run : Run scope n false c s log b t) :
    line.map (ofSlots t.slots) = line.map (ofSlots s.slots) := by
  refine Scanned.map_ofSlots_congr fun d hd i hi => (run.untouched fun q hq => ?_).get_eq
  exact h.distinct.not_reaches (List.mem_cons_of_mem _ hd) List.mem_cons_self (h.ne_head hd hi).symm
    (Pattern.mem_slots_self hi) hq

/-- A pass over the others does not change what is told of the first pattern. -/
theorem ofSlots_head (h : Told scope (c :: line))
    (hp : Pass (Run scope n false) place last (line.map (ofSlots table)) s log last' ys t) :
    ofSlots t.slots c = ofSlots s.slots c := by
  have hline : ∀ x ∈ line.map (ofSlots table), x.pattern ∈ line := by simp [ofSlots]
  refine Scanned.ofSlots_congr fun i hi => (hp.untouched (fun d hd q hq hqi => ?_) hline).get_eq
  refine h.distinct.not_reaches List.mem_cons_self (List.mem_cons_of_mem _ hd) ?_
    (Pattern.mem_slots_self hi) hq hqi
  rintro rfl
  exact h.ne_head hd hi rfl

theorem pass (h : Told scope line)
    (hp : Pass (Run scope n false) place last (line.map (ofSlots s.slots)) s log last' ys t) :
    ys = line.map (ofSlots t.slots) := by
  induction line generalizing place last s log last' ys t with
  | nil =>
    cases hp
    rfl
  | cons c line ih =>
    have others {u : Attempt} {log : List Move} {b : Bool}
        (run : Run scope n false c (s.aimed place last) log b u) :
        line.map (ofSlots s.slots) = line.map (ofSlots u.slots) :=
      (h.map_ofSlots_of_head (s := s.aimed place last) run).symm
    have head {u : Attempt} {log : List Move} {b : Bool}
        (run : Run scope n false c (s.aimed place last) log b u) :
        ⟨c, b || (ofSlots s.slots c).matched⟩ = ofSlots u.slots c :=
      congrArg (Scanned.mk c) (Run.matched_eq (s := s.aimed place last)
        (h.distinct.singleton List.mem_cons_self) (h.told c List.mem_cons_self) run).symm
    cases hp with
    | empty => rfl
    | hit _ run rest | miss _ run rest =>
      rw [others run] at rest
      rw [ih h.tail rest, List.map_cons, h.ofSlots_head rest]
      exact congrArg (· :: _) (head run)

theorem yields_scanPass (h : Told scope line) :
    (scanPass (matchPattern scope n false) place last (line.map (ofSlots s.slots))).Yields s
      (fun r t => r.2 = line.map (ofSlots t.slots)) fun _ _ => True := by
  unfold MatchM.Yields
  cases hpass : scanPass (matchPattern scope n false) place last (line.map (ofSlots s.slots)) s with
  | error => trivial
  | ok r t =>
    obtain ⟨log, hp⟩ := pass_of_scanPass (fun _ _ _ _ => run_of_matchPattern) hpass
    exact h.pass hp

end Told

end Synopsis
