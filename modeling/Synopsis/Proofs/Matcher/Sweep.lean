import Synopsis.Proofs.Matcher.Frame
import Synopsis.Proofs.Matcher.Places

/-! # A line takes its positionals from left to right

While a line is scanned, a positional that is filled bars the ones to its left. Two
positionals that were empty at the start thus take their tokens in turn.
-/

namespace Synopsis

open Pattern (Distinct Reaches slots)

variable {scope : Scope} {ps : List Pattern} {p q : Positional} {s t u : Attempt}
  {log log' : List Move} {n i j place : Nat} {last last' : Option Nat} {x : Scanned}
  {xs ys done : List Scanned} {b : Bool}

theorem Positional.slot_mem (p : Positional) : p.slot ∈ slots [p.pattern] :=
  Pattern.mem_slots.mpr ⟨_, List.mem_singleton_self _, _,
    Pattern.mem_atoms_self p.slot?_pattern, p.slot?_pattern⟩

/-! ## Two positionals -/

/-- From `s` to `t`, `p` and `q` take in turn. -/
structure Swept (p q : Positional) (s : Attempt) (log : List Move) (t : Attempt) : Prop where
  behind : Behind s log t
  keeps : q.isFilled s.slots = true → q.isFilled t.slots = true
  late : q.isFilled s.slots = true → ∀ place, .take p.slot place ∉ log
  fills : ∀ place, .take q.slot place ∈ log → q.isFilled t.slots = true
  turn : InTurn p.slot q.slot log
  headed : .take p.slot 1 ∈ log → t.argv.Headed

namespace Swept

theorem of_untouched (hb : Behind s log t) (hp : Untouched p.slot s log t)
    (hq : Untouched q.slot s log t) : Swept p q s log t where
  behind := hb
  keeps hf := (Positional.isFilled_congr hq.get_eq).trans hf
  late _ _ hm := hp.moves _ hm rfl
  fills _ hm := absurd rfl (hq.moves _ hm)
  turn := .of_idle hp.moves
  headed hm := absurd rfl (hp.moves _ hm)

theorem chains : Chains (Swept p q) where
  refl _ := of_untouched (fun hs => ⟨hs, nofun⟩) ⟨rfl, nofun⟩ ⟨rfl, nofun⟩
  aim _ _ := of_untouched (fun hs => ⟨hs, nofun⟩) ⟨rfl, nofun⟩ ⟨rfl, nofun⟩
  trans h h' :=
    { behind := h.behind.trans h'.behind
      keeps := fun hf => h'.keeps (h.keeps hf)
      late := fun hf place hm =>
        (List.mem_append.mp hm).elim (h.late hf place) (h'.late (h.keeps hf) place)
      fills := fun place hm =>
        (List.mem_append.mp hm).elim (fun hm => h'.keeps (h.fills place hm)) (h'.fills place)
      turn := h.turn.append h'.turn (fun hm => (h'.behind (h.headed hm)).2)
        fun place place' hm => h'.late (h.fills place hm) place'
      headed := fun hm =>
        (List.mem_append.mp hm).elim (fun hm => (h'.behind (h.headed hm)).1) h'.headed }

/-- The left one takes nothing once only options may be taken. -/
theorem left (h : p.Runs false s log b t) (hne : p.slot ≠ q.slot)
    (hlate : q.isFilled s.slots = true → s.argv.optionOnly = true) (hb : Behind s log t) :
    Swept p q s log t := by
  have hq : q.isFilled t.slots = q.isFilled s.slots := Positional.isFilled_congr (h.get_of_ne hne)
  cases h with
  | filled | barred | refused =>
    exact of_untouched hb ⟨rfl, nofun⟩ ⟨rfl, nofun⟩
  | @taken _ place token _ ho hpl _ _ =>
    have hplace : place ≤ 1 := by
      rcases Argv.positional_cases hpl with ⟨rfl, -⟩ | ⟨rfl, -⟩ <;> omega
    refine ⟨hb, fun hf => hq.trans hf, ?_, ?_, ?_, ?_⟩
    · intro hf
      rw [hlate hf] at ho
      cases ho
    · intro place hm
      obtain ⟨he, -⟩ := Move.take.inj (List.mem_singleton.mp hm)
      exact absurd he.symm hne
    · refine ⟨?_, List.pairwise_singleton .., List.pairwise_singleton ..⟩
      intro place' hm
      obtain ⟨-, rfl⟩ := Move.take.inj (List.mem_singleton.mp hm)
      exact hplace
    · intro hm
      obtain ⟨-, rfl⟩ := Move.take.inj (List.mem_singleton.mp hm)
      exact (Argv.headed_of_positional hpl).remove

theorem right (h : q.Runs false s log b t) (hne : p.slot ≠ q.slot) (hb : Behind s log t) :
    Swept p q s log t := by
  cases h with
  | filled | barred | refused =>
    exact of_untouched hb ⟨rfl, nofun⟩ ⟨rfl, nofun⟩
  | @taken _ place token =>
    have hfilled := q.isFilled_record token.text s.slots
    have hidle : ∀ m ∈ [Move.take q.slot place], m.slot ≠ p.slot := fun m hm => by
      rw [List.mem_singleton.mp hm]
      exact hne.symm
    exact ⟨hb, fun _ => hfilled, fun _ _ hm => absurd rfl (hidle _ hm), fun _ _ => hfilled,
      .of_idle hidle, fun hm => absurd rfl (hidle _ hm)⟩

end Swept

/-! ## Marks of a scan -/

/-- The positionals of a line are filled as marked, and the marked ones stand no further
right than the last one. -/
def Marked (xs : List Scanned) (last : Option Nat) (s : Slots) : Prop :=
  ∀ k x (p : Positional), xs[k]? = some x → x.pattern = p.pattern →
    p.isFilled s = x.matched ∧ (x.matched = true → ∃ l, last = some l ∧ k ≤ l)

theorem Pattern.positional?_eq_some {c : Pattern} :
    c.positional? = some p ↔ c = p.pattern := by
  cases c <;> cases p <;> simp [positional?, Positional.pattern]

theorem Run.positional {counting : Bool} (h : Run scope n counting p.pattern s log b t) :
    p.Runs counting s log b t := by
  cases n with
  | zero => exact h.elim
  | succ n => cases p <;> exact h

theorem Marked.miss (h : Marked (done ++ x :: xs) last s.slots)
    (run : Run scope n false x.pattern (s.aimed done.length last) log false t) :
    Marked (done ++ x :: xs) last t.slots := by
  rw [run.undone.1.slots_eq]
  exact h

/-- A positional that matches for the first time stands to the right of the last one. -/
theorem Marked.lt_of_first (h : Marked (done ++ x :: xs) last s.slots) (hx : x.pattern = p.pattern)
    (hm : x.matched = false)
    (run : Run scope n false x.pattern (s.aimed done.length last) log true t) :
    ∀ l, last = some l → l < done.length := by
  rintro l rfl
  have hempty : p.isFilled s.slots = false := (h done.length x p (by simp) hx).1.trans hm
  rw [hx] at run
  cases run.positional with
  | filled hf =>
    rw [Bool.not_false, Bool.true_and] at hf
    exact absurd (hempty.symm.trans hf) Bool.false_ne_true
  | taken _ ho =>
    simp only [Attempt.aimed, Option.any_some, decide_eq_false_iff_not] at ho
    omega

theorem getElem?_of_ne_length {k : Nat} {y : Scanned} (hk : k ≠ done.length) :
    (done ++ y :: xs)[k]? = (done ++ x :: xs)[k]? := by
  rcases Nat.lt_or_gt_of_ne hk with hlt | hlt
  · rw [List.getElem?_append_left hlt, List.getElem?_append_left hlt]
  · obtain ⟨e, rfl⟩ := Nat.exists_eq_add_of_lt hlt
    rw [Nat.add_assoc, List.getElem?_append_right (Nat.le_add_right _ _),
      List.getElem?_append_right (Nat.le_add_right _ _), Nat.add_sub_cancel_left]
    rfl

section Line

variable (hd : Distinct scope ps) (hline : (done ++ x :: xs).map (·.pattern) = ps)

theorem getElem?_line (hline : (done ++ x :: xs).map (·.pattern) = ps) :
    ps[done.length]? = some x.pattern := by
  rw [← hline]
  simp

include hd hline

theorem eq_length_of_getElem? (hi : ps[i]? = some p.pattern) (hx : x.pattern = p.pattern) :
    done.length = i :=
  hd.getElem?_inj (getElem?_line hline) hi (hx ▸ p.slot_mem) p.slot_mem

theorem Run.untouched_of_ne (hp : p.pattern ∈ ps) (hne : x.pattern ≠ p.pattern)
    (run : Run scope n false x.pattern s log b t) : Untouched p.slot s log t := by
  have hx : x.pattern ∈ ps := List.mem_of_getElem? (getElem?_line hline)
  exact run.untouched fun _ hreach => hd.not_reaches hp hx hne.symm p.slot_mem hreach

/-- A match in a scan does not disturb the turns of two positionals of the line. -/
theorem Marked.swept (h : Marked (done ++ x :: xs) last s.slots) (hij : i < j)
    (hp : ps[i]? = some p.pattern) (hq : ps[j]? = some q.pattern)
    (run : Run scope n false x.pattern (s.aimed done.length last) log b t) :
    Swept p q (s.aimed done.length last) log t := by
  have hb : Behind (s.aimed done.length last) log t :=
    (Behind.closed scope).run (fun _ _ => trivial) run
  have hne : p.slot ≠ q.slot := fun he =>
    Nat.ne_of_lt hij (hd.getElem?_inj hp hq p.slot_mem (he ▸ q.slot_mem))
  by_cases hxp : x.pattern = p.pattern
  · have hi := eq_length_of_getElem? hd hline hp hxp
    rw [hxp] at run
    refine .left run.positional hne ?_ hb
    intro hf
    obtain ⟨y, hy, hyq⟩ : ∃ y, (done ++ x :: xs)[j]? = some y ∧ y.pattern = q.pattern := by
      rw [← hline, List.getElem?_map] at hq
      exact Option.map_eq_some_iff.mp hq
    obtain ⟨hm, hlast⟩ := h j y q hy hyq
    obtain ⟨l, rfl, hl⟩ := hlast (hm.symm.trans hf)
    simp only [Attempt.aimed, Option.any_some, decide_eq_true_eq]
    omega
  · by_cases hxq : x.pattern = q.pattern
    · rw [hxq] at run
      exact .right run.positional hne hb
    · exact .of_untouched hb (run.untouched_of_ne hd hline (List.mem_of_getElem? hp) hxp)
        (run.untouched_of_ne hd hline (List.mem_of_getElem? hq) hxq)

theorem Marked.hit (h : Marked (done ++ x :: xs) last s.slots)
    (run : Run scope n false x.pattern (s.aimed done.length last) log true t) :
    Marked (done ++ { x with matched := true } :: xs)
      (if !x.matched && x.pattern.positional?.isSome then some done.length else last) t.slots := by
  intro k y r hy hr
  by_cases hk : k = done.length
  · subst hk
    obtain rfl : { x with matched := true } = y := by simpa using hy
    have hr : x.pattern = r.pattern := hr
    constructor
    · rw [hr] at run
      exact run.positional.isFilled
    · intro _
      cases hm : x.matched with
      | true => simpa using (h done.length x r (by simp) hr).2 hm
      | false =>
        have hpos : x.pattern.positional?.isSome = true := by
          rw [hr]
          cases r <;> rfl
        exact ⟨done.length, by simp [hpos], Nat.le_refl _⟩
  · rw [getElem?_of_ne_length hk] at hy
    obtain ⟨hm, hlast⟩ := h k y r hy hr
    have hmem : ps[k]? = some r.pattern := by
      rw [← hline, List.getElem?_map, hy, Option.map_some, hr]
    have hne : x.pattern ≠ r.pattern := fun he =>
      hk (eq_length_of_getElem? hd hline hmem he).symm
    have hget := (run.untouched_of_ne hd hline (List.mem_of_getElem? hmem) hne).get_eq
    refine ⟨(Positional.isFilled_congr hget).trans hm, ?_⟩
    intro hmatched
    obtain ⟨l, hl, hkl⟩ := hlast hmatched
    split
    next hfirst =>
      simp only [Bool.and_eq_true, Bool.not_eq_true'] at hfirst
      obtain ⟨r', hr'⟩ := Option.isSome_iff_exists.mp hfirst.2
      have hlt := h.lt_of_first (Pattern.positional?_eq_some.mp hr') hfirst.1 run l hl
      exact ⟨done.length, rfl, by omega⟩
    next => exact ⟨l, hl, hkl⟩

end Line

/-! ## Scans -/

section Scan

variable (hd : Distinct scope ps) (hij : i < j) (hp : ps[i]? = some p.pattern)
  (hq : ps[j]? = some q.pattern)
include hd hij hp hq

theorem Pass.swept (h : Pass (Run scope n false) place last xs s log last' ys t)
    (hplace : done.length = place) (hline : (done ++ xs).map (·.pattern) = ps)
    (hm : Marked (done ++ xs) last s.slots) :
    Swept p q s log t ∧ (done ++ ys).map (·.pattern) = ps ∧
      Marked (done ++ ys) last' t.slots := by
  induction h generalizing done with
  | nil | empty => exact ⟨Swept.chains.refl _, hline, hm⟩
  | @hit s t u log log' place last last' x xs ys _ run rest ih =>
    subst hplace
    have hswept := hm.swept hd hline hij hp hq run
    obtain ⟨hrest, hys, hm'⟩ := @ih (done ++ [{ x with matched := true }]) (by simp)
      (by simpa using hline) (by simpa using Marked.hit hd hline hm run)
    rw [List.append_assoc] at hys hm'
    exact ⟨Swept.chains.trans (Swept.chains.trans (Swept.chains.aimed _ _ _) hswept) hrest,
      hys, hm'⟩
  | @miss s t u log log' place last last' x xs ys _ run rest ih =>
    subst hplace
    have hswept := hm.swept hd hline hij hp hq run
    obtain ⟨hrest, hys, hm'⟩ := @ih (done ++ [x]) (by simp) (by simpa using hline)
      (by simpa using hm.miss run)
    rw [List.append_assoc] at hys hm'
    exact ⟨Swept.chains.trans (Swept.chains.trans (Swept.chains.aimed _ _ _) hswept) hrest,
      hys, hm'⟩

theorem Passes.swept (h : Passes (Run scope n false) last xs s log ys t)
    (hline : xs.map (·.pattern) = ps) (hm : Marked xs last s.slots) :
    Swept p q s log t ∧ ys.map (·.pattern) = ps ∧ ∃ last', Marked ys last' t.slots := by
  induction h with
  | empty => exact ⟨Swept.chains.refl _, hline, _, hm⟩
  | still _ pass =>
    obtain ⟨hs, hys, hm'⟩ := pass.swept hd hij hp hq (rfl : ([] : List Scanned).length = 0) hline hm
    exact ⟨hs, hys, _, hm'⟩
  | again _ pass _ _ ih =>
    obtain ⟨hs, hys, hm'⟩ := pass.swept hd hij hp hq (rfl : ([] : List Scanned).length = 0) hline hm
    obtain ⟨hrest, hzs, hm''⟩ := ih hys hm'
    exact ⟨Swept.chains.trans hs hrest, hzs, hm''⟩

end Scan

/-! ## Lines -/

/-- All commands and arguments of a line have what they need. -/
def AllFilled (ps : List Pattern) (s : Slots) : Prop :=
  ∀ p : Positional, p.pattern ∈ ps → p.isFilled s = true

def NoneFilled (ps : List Pattern) (s : Slots) : Prop :=
  ∀ p : Positional, p.pattern ∈ ps → p.isFilled s = false

/-- No move is one of their moves. -/
def Idle (ps : List Pattern) (log : List Move) : Prop :=
  ∀ p : Positional, p.pattern ∈ ps → ∀ m ∈ log, m.slot ≠ p.slot

theorem noneFilled_blank (size : Nat) : NoneFilled ps (.blank size) := fun p _ => by
  cases p <;> simp [Positional.isFilled, Slot.isTruthy, Slot.hasText]

theorem Idle.append (h : Idle ps log) (h' : Idle ps log') : Idle ps (log ++ log') :=
  fun p hp => List.forall_mem_append.mpr ⟨h p hp, h' p hp⟩

theorem marked_start (h : NoneFilled ps s.slots) : Marked (ps.map .start) none s.slots := by
  intro k x p hx hp
  rw [List.getElem?_map] at hx
  obtain ⟨c, hc, rfl⟩ := Option.map_eq_some_iff.mp hx
  have hp : c = p.pattern := hp
  subst hp
  have hm : (Scanned.start p.pattern).matched = false := by cases p <;> rfl
  rw [hm]
  exact ⟨h p (List.mem_of_getElem? hc), nofun⟩

theorem Marked.allFilled (h : Marked xs last s.slots) (hline : xs.map (·.pattern) = ps)
    (hall : xs.all (·.matched) = true) : AllFilled ps s.slots := by
  intro p hp
  obtain ⟨x, hx, he⟩ := List.mem_map.mp (hline ▸ hp)
  obtain ⟨k, hk⟩ := List.mem_iff_getElem?.mp hx
  exact (h k x p hk he).1.trans (List.all_eq_true.mp hall x hx)

section Lines

variable (hd : Distinct scope ps)
include hd

/-- From an empty line on, two positionals of it take in turn. -/
theorem Scan.swept (hij : i < j) (hp : ps[i]? = some p.pattern)
    (hq : ps[j]? = some q.pattern) (h : Scan (Run scope n false) ps s log xs t)
    (hs : NoneFilled ps s.slots) :
    Swept p q s log t ∧ (xs.all (·.matched) = true → AllFilled ps t.slots) := by
  have hline : (ps.map Scanned.start).map (·.pattern) = ps := by
    simp [Function.comp_def, Scanned.start]
  obtain ⟨hswept, hxs, last', hm⟩ := Passes.swept hd hij hp hq h hline (marked_start hs)
  exact ⟨hswept, hm.allFilled hxs⟩

/-- A line that is filled stays so and takes nothing more. -/
theorem Scan.rests (h : Scan (Run scope n false) ps s log xs t)
    (hs : AllFilled ps s.slots) : AllFilled ps t.slots ∧ Idle ps log := by
  have hchains : Chains fun s log t =>
      AllFilled ps s.slots → AllFilled ps t.slots ∧ Idle ps log :=
    { refl := fun _ hs => ⟨hs, fun _ _ => nofun⟩
      aim := fun _ _ hs => ⟨hs, fun _ _ => nofun⟩
      trans := fun h h' hs => ⟨(h' (h hs).1).1, (h hs).2.append (h' (h hs).1).2⟩ }
  refine hchains.scan ?_ h hs
  intro c hc s log b t run hs
  by_cases hpos : ∃ p : Positional, c = p.pattern
  · obtain ⟨p, rfl⟩ := hpos
    have hf := hs p hc
    cases run.positional with
    | filled => exact ⟨hs, fun _ _ => nofun⟩
    | barred hw | refused hw | taken hw => simp [hf] at hw
  · have huntouched (r : Positional) (hr : r.pattern ∈ ps) : Untouched r.slot s log t :=
      run.untouched fun _ hreach =>
        hd.not_reaches hr hc (fun he => hpos ⟨r, he.symm⟩) r.slot_mem hreach
    exact ⟨fun r hr => (Positional.isFilled_congr (huntouched r hr).get_eq).trans (hs r hr),
      fun r hr => (huntouched r hr).moves⟩

end Lines

end Synopsis
