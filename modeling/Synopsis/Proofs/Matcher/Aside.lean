import Synopsis.Proofs.Help.Leaves
import Synopsis.Proofs.Matcher.Adequacy
import Synopsis.Proofs.Matcher.Unseen

/-! # Options aside

On a stream without flags, a pattern of options takes nothing. Within an optional
group it always matches, and only fills slots of its own.
-/

namespace Synopsis

open Pattern (Reaches)

variable {scope : Scope} {H : Set Nat} {p : Pattern} {ps line : List Pattern} {n : Nat}
  {counting : Bool} {run : Pattern → MatchM Bool} {once : MatchM Bool} {a : Argv} {s : Attempt}

/-- No commands or arguments are among the leaves. -/
def Pattern.OptionsOnly (p : Pattern) : Prop := ∀ q ∈ p.leaves, q.positional? = none

/-- The pattern matches whatever there is. -/
def Pattern.IsOptional : Pattern → Prop
  | .group .optional _ _ | .shortcut _ => True
  | _ => False

/-! ## Answers that leave the stream alone -/

def Stays {α : Type} (a : Argv) (r : EStateM.Result Stop Attempt α) : Prop :=
  ∃ x t, r = .ok x t ∧ a.Near t.argv

namespace Stays

variable {α β : Type} {m : MatchM α} {x : α}

theorem pure (h : a.Near s.argv) : Stays a ((pure x : MatchM α) s) := ⟨x, s, rfl, h⟩

theorem bind {f : α → MatchM β} (h : Stays a (m s))
    (hf : ∀ x t, a.Near t.argv → Stays a (f x t)) : Stays a ((m >>= f) s) := by
  obtain ⟨x, t, hm, ht⟩ := h
  rw [MatchM.bind_apply_of_ok hm]
  exact hf x t ht

theorem restoring {m : MatchM Bool} (hs : a.Near s.argv) (h : Stays a (m s)) :
    Stays a (MatchM.restoring m s) := by
  simp only [MatchM.restoring, MatchM.get_bind]
  refine h.bind fun b t ht => ?_
  split
  · exact .pure ht
  · exact .pure ⟨hs.tokens, ht.style, ht.autoDashes, hs.dashes⟩

end Stays

section Lines

variable (h : ∀ p ∈ line, ∀ s : Attempt, a.Near s.argv → Stays a (run p s))
include h

theorem stays_scanPass {place : Nat} {last : Option Nat} {xs : List Scanned}
    (hx : ∀ x ∈ xs, x.pattern ∈ line) (hs : a.Near s.argv) : Stays a (scanPass run place last xs s) := by
  induction xs generalizing place last s with
  | nil => exact .pure hs
  | cons x xs ih =>
    obtain ⟨hp, hx⟩ := List.forall_mem_cons.mp hx
    simp only [scanPass, MatchM.argv_bind]
    split
    · exact .pure hs
    simp only [MatchM.setArgv_bind]
    refine (h _ hp (s.aimed place last) (hs.trans (.optionOnly _ _))).bind fun b t ht => ?_
    split
    · exact (ih hx ht).bind fun _ _ => .pure
    · exact (ih hx ht).bind fun _ _ => .pure

/-- The first pass is the last one. -/
theorem stays_scanLine (hs : a.Near s.argv) : Stays a (scanLine run line s) := by
  simp only [scanLine, MatchM.argv_bind, scanPasses]
  split
  · exact .pure hs
  · refine (stays_scanPass h (by simp [Scanned.start]) hs).bind fun x t ht => ?_
    simp only [MatchM.argv_bind, ht.tokens, hs.tokens]
    exact .pure ht

theorem stays_matchOnce (kind : GroupKind) (hl : ∀ slots, Lending.loan? slots line = none)
    (hs : a.Near s.argv) : Stays a (matchOnce run kind line s) := by
  cases kind with
  | required =>
    refine .restoring hs ((stays_scanLine h hs).bind fun xs t ht => ?_)
    split
    · exact .pure ht
    · simp only [Lending.lend, MatchM.slots_bind, hl]
      exact .pure ht
  | optional => exact (stays_scanLine h hs).bind fun _ _ => .pure

theorem stays_matchEither (hs : a.Near s.argv) : Stays a (matchEither run line s) := by
  induction line generalizing s with
  | nil => exact .pure hs
  | cons p ps ih =>
    obtain ⟨hp, hps⟩ := List.forall_mem_cons.mp h
    refine (Stays.restoring hs (hp s hs)).bind fun b t ht => ?_
    split
    · exact .pure ht
    · exact ih hps ht

theorem stays_matchEntries (hs : a.Near s.argv) : Stays a (matchEntries run line s) := by
  induction line generalizing s with
  | nil => exact .pure hs
  | cons p ps ih =>
    obtain ⟨hp, hps⟩ := List.forall_mem_cons.mp h
    simp only [matchEntries, MatchM.argv_bind]
    split
    · exact .pure hs
    · exact (hp s hs).bind fun _ _ => ih hps

end Lines

theorem stays_matchRepeatedly (leaves : List Recorded)
    (h : ∀ s : Attempt, a.Near s.argv → Stays a (once s)) (hs : a.Near s.argv) :
    Stays a (matchRepeatedly once leaves s) := by
  simp only [matchRepeatedly, MatchM.slots_bind, MatchM.argv_bind]
  have hpasses : Stays a (repeatPasses once leaves (s.argv.size + 1) [] s) := by
    simp only [repeatPasses, MatchM.argv_bind]
    split
    · exact .pure hs
    simp only [MatchM.slots_bind, MatchM.setSlots_bind]
    refine (h (s.cleared leaves) hs).bind fun b t ht => ?_
    split
    · exact .pure ht
    · simp only [MatchM.slots_bind, MatchM.argv_bind, ht.tokens, hs.tokens]
      exact .pure ht
  refine hpasses.bind fun history t ht => ?_
  split
  · exact .pure ht
  · exact .pure ht

/-! ## Patterns of options -/

theorem loan?_eq_none_of_optionsOnly (h : ∀ p ∈ line, p.OptionsOnly) (slots : Slots) :
    Lending.loan? slots line = none := by
  by_contra hne
  obtain ⟨loan, hl⟩ := Option.ne_none_iff_exists'.mp hne
  obtain ⟨before, children, rest, hsplits⟩ := Lending.splits_of_loan? hl
  obtain ⟨i, hi⟩ := List.exists_mem_of_ne_nil _ hsplits.lenders_ne
  obtain ⟨leaf, hleaf, -⟩ := hsplits.lender_leaf hi
  obtain ⟨p, hp, hleaf⟩ := List.mem_flatMap.mp hleaf
  cases h p hp _ hleaf

theorem stays_matchPattern (he : ∀ e ∈ scope.registry.entries, e.IsEntry) (hg : scope.Grounded)
    (ha : a.Quiet) (hp : p.OptionsOnly) (hn : Suffices scope n p) (hs : a.Near s.argv) :
    Stays a (matchPattern scope n counting p s) := by
  induction n generalizing counting p s with
  | zero => exact hn.elim
  | succ n ih =>
    cases p with
    | command | argument => cases hp _ (List.mem_singleton_self _)
    | option o =>
      have hquiet : s.argv.Quiet := ha.of_subset (by rw [hs.tokens]; exact List.Subset.refl _)
      simp only [matchPattern, OptionOf.run, MatchM.slots_bind]
      split
      · exact .pure hs
      · simp only [MatchM.argv_bind, hquiet.takeOption?_eq]
        exact .pure hs
    | group kind children repeats =>
      have hchild : ∀ c ∈ children, c.OptionsOnly :=
        fun c hc q hq => hp q (Pattern.mem_leaves_group.mpr ⟨c, hc, hq⟩)
      have honce {s : Attempt} (hs : a.Near s.argv) :
          Stays a (matchOnce (matchPattern scope n false) kind children s) :=
        stays_matchOnce (fun c hc _ => ih (hchild c hc) (hn c hc)) kind
          (loan?_eq_none_of_optionsOnly hchild) hs
      obtain ⟨leaves, hleaves⟩ := Option.isSome_iff_exists.mp
        (Pattern.recorded?_isSome hg (.group kind children repeats))
      simp only [matchPattern, hleaves]
      split
      · exact (stays_matchRepeatedly leaves (fun _ => honce) hs).bind fun _ _ => .pure
      · exact honce hs
    | either branches =>
      exact stays_matchEither (fun c hc _ =>
        ih (fun q hq => hp q (Pattern.mem_leaves_either.mpr ⟨c, hc, hq⟩)) (hn c hc)) hs
    | shortcut sc =>
      refine (stays_matchEntries (fun e hmem _ => ih ?_ (hn e hmem)) hs).bind fun _ _ => .pure
      obtain ⟨o, b, rfl⟩ := he e (Pattern.mem_entries_of_visible hmem)
      simp [Pattern.OptionsOnly, Pattern.leaves, Pattern.positional?]

theorem answer_of_isOptional {b : Bool} {t : Attempt} {log : List Move} (ho : p.IsOptional)
    (h : Run scope n counting p s log b t) : b = true := by
  cases n with
  | zero => exact h.elim
  | succ n =>
    cases p with
    | option | command | argument | either => exact ho.elim
    | shortcut => exact h.2
    | group kind children repeats =>
      cases kind with
      | required => exact ho.elim
      | optional =>
        simp only [Run] at h
        split at h
        · obtain ⟨_, _, -, -, rfl⟩ := h
          simp
        · cases h
          rfl

/-- An optional pattern of options is idle on streams without flags. -/
theorem idle_matchPattern (he : ∀ e ∈ scope.registry.entries, e.IsEntry) (hg : scope.Grounded)
    (hp : p.OptionsOnly) (ho : p.IsOptional) (hn : Suffices scope n p)
    (hH : ∀ q, Reaches scope p q → ∀ i, q.slot? = some i → i ∈ H) :
    Idles .quiet H (matchPattern scope n false p) := by
  intro s hs
  obtain ⟨b, t, h, ht⟩ : Stays s.argv (matchPattern scope n false p s) :=
    stays_matchPattern he hg hs hp hn (.refl _)
  obtain ⟨log, hrun⟩ := run_of_matchPattern h
  obtain rfl := answer_of_isOptional ho hrun
  refine ⟨t, h, hs, ht, False.elim, fun i hi => ?_⟩
  exact (hrun.untouched fun q hq hqi => hi (hH q hq i hqi)).get_eq

end Synopsis
