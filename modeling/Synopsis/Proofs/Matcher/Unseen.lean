import Synopsis.Proofs.Matcher.Aligned
import Synopsis.Proofs.Matcher.Depth

/-! # What a match does not see

A match answers the same in attempts that differ only in slots which its pattern does
not reach.
-/

namespace Synopsis

open Pattern (Reaches)

variable {K : Argv.Trait} {exact : Prop} {H : Set Nat} {scope : Scope} {p c : Pattern} {ps : List Pattern} {n n' : Nat}
  {counting : Bool} {run run' : Pattern → MatchM Bool}

/-! ## Lists of patterns -/

theorem Aligned.append {line : List Pattern} {f : Nat → Nat} {place place' : Nat} {xs xs' : List Scanned}
    (h : ∀ p ∈ line, Couples K True H (run p) (run' p))
    (hf : ∀ k < line.length, f (place + k) = place' + k)
    (rest : Aligned K exact H run run' f (place + line.length) (place' + line.length) xs xs') :
    Aligned K exact H run run' f place place' (line.map .start ++ xs) (line.map .start ++ xs') := by
  induction line generalizing place place' with
  | nil => exact rest
  | cons p ps ih =>
    obtain ⟨hp, hps⟩ := List.forall_mem_cons.mp h
    refine .both (hf 0 (Nat.zero_lt_succ _)) hp (ih hps (fun k hk => ?_) ?_)
    · rw [Nat.add_assoc, Nat.add_assoc, Nat.add_comm 1 k]
      exact hf (k + 1) (Nat.succ_lt_succ hk)
    · rwa [Nat.add_assoc, Nat.add_assoc, Nat.add_comm 1, ← List.length_cons]

theorem aligned_same {line : List Pattern} (h : ∀ p ∈ line, Couples K True H (run p) (run' p)) :
    Aligned K exact H run run' id 0 0 (line.map .start) (line.map .start) := by
  have hline : Aligned K exact H run run' id 0 0 (line.map .start ++ []) (line.map .start ++ []) :=
    .append h (fun _ _ => rfl) .nil
  simpa using hline

theorem matchOnce_couples {kind : GroupKind} {line : List Pattern}
    (hline : ∀ p ∈ line, p.Avoids scope H) (h : ∀ p ∈ line, Couples K True H (run p) (run' p)) :
    Couples K exact H (matchOnce run kind line) (matchOnce run' kind line) := by
  cases kind with
  | required =>
    exact matchLineWith_couples strictMono_id (aligned_same h)
      (Lending.lend_couples hline fun _ _ hs => Lending.loan?_congr hs hline)
  | optional =>
    intro s s' hs
    refine (scanLine_meets strictMono_id (aligned_same h) hs).bind ?_
    rintro _ t _ t' ⟨-, ht⟩
    exact .ok ⟨rfl, ht⟩

theorem matchEither_couples (h : ∀ p ∈ ps, Couples K exact H (run p) (run' p)) :
    Couples K exact H (matchEither run ps) (matchEither run' ps) := by
  induction ps with
  | nil => exact fun _ _ hs => .ok ⟨rfl, hs⟩
  | cons p ps ih =>
    obtain ⟨hp, hps⟩ := List.forall_mem_cons.mp h
    intro s s' hs
    refine (Meets.restoring hs (hp _ _ hs)).bind ?_
    rintro b t _ t' ⟨rfl, ht⟩
    split
    · exact .ok ⟨rfl, ht⟩
    · exact ih hps _ _ ht

theorem matchEntries_meets (h : ∀ p ∈ ps, Couples K exact H (run p) (run' p)) {s s' : Attempt}
    (hs : Alike K exact H s s') :
    Meets Eq (Same K exact H) (matchEntries run ps s) (matchEntries run' ps s') := by
  induction ps generalizing s s' with
  | nil => exact .ok ⟨rfl, hs⟩
  | cons p ps ih =>
    obtain ⟨hp, hps⟩ := List.forall_mem_cons.mp h
    simp only [matchEntries, MatchM.argv_bind, hs.near.isEmpty_eq]
    split
    · exact .ok ⟨rfl, hs⟩
    · refine (hp _ _ hs).bind ?_
      rintro _ t _ t' ⟨-, ht⟩
      exact ih hps ht

/-! ## Patterns -/

/-- The patterns that are tried for another one on the same stream. -/
def Pattern.tried (scope : Scope) : Pattern → List Pattern
  | .option _ | .command _ | .argument _ => []
  | .group _ children _ => children
  | .either branches => branches
  | .shortcut sc => scope.visible sc

theorem Pattern.reaches_of_mem_tried (hc : c ∈ p.tried scope) : Reaches scope p c := by
  cases p with
  | option | command | argument => cases hc
  | group => exact .child hc .refl
  | either => exact .branch hc .refl
  | shortcut => exact .entry hc .refl

/-- If options answer the same, so do the patterns that they are in. -/
theorem matchPattern_couples_succ (hp : p.Avoids scope H)
    (ho : ∀ o, p = .option o → Couples K True H (o.run (matchPattern scope n counting) counting)
      (o.run (matchPattern scope n' counting) counting))
    (htried : ∀ c ∈ p.tried scope, ∀ counting,
      Couples K True H (matchPattern scope n counting c) (matchPattern scope n' counting c)) :
    Couples K True H (matchPattern scope (n + 1) counting p)
      (matchPattern scope (n' + 1) counting p) := by
  cases p with
  | option o => exact ho o rfl
  | command leaf => exact fun _ _ hs => Positional.meets counting hs (hp.slot_notMem rfl)
  | argument leaf => exact fun _ _ hs => Positional.meets counting hs (hp.slot_notMem rfl)
  | group kind children repeats =>
    have honce : Couples K True H (matchOnce (matchPattern scope n false) kind children)
        (matchOnce (matchPattern scope n' false) kind children) :=
      matchOnce_couples hp.child fun c hc => htried c hc false
    simp only [matchPattern]
    split
    · cases (Pattern.group kind children repeats).recorded? scope (scope.depth _) with
      | none => exact fun _ _ _ => .stop rfl
      | some leaves =>
        intro s s' hs
        refine (matchRepeatedly_couples (fun _ _ => rfl) honce _ _ hs).bind ?_
        rintro b t _ t' ⟨rfl, ht⟩
        exact .ok ⟨rfl, ht⟩
    · exact honce
  | either branches => exact matchEither_couples fun c hc => htried c hc counting
  | shortcut sc =>
    intro s s' hs
    refine (matchEntries_meets (fun c hc => htried c hc counting) hs).bind ?_
    rintro _ t _ t' ⟨-, ht⟩
    exact .ok ⟨rfl, ht⟩

theorem Suffices.tried (h : Suffices scope (n + 1) p) : ∀ c ∈ p.tried scope, Suffices scope n c := by
  cases p with
  | option | command | argument => exact nofun
  | group | either | shortcut => exact h

/-- On streams without flags, the bounds of the recursion do not matter. -/
theorem matchPattern_couples (hp : p.Avoids scope H) (hn : Suffices scope n p)
    (hn' : Suffices scope n' p) :
    Couples .quiet True H (matchPattern scope n counting p) (matchPattern scope n' counting p) := by
  induction n generalizing n' counting p with
  | zero => exact hn.elim
  | succ n ih =>
    cases n' with
    | zero => exact hn'.elim
    | succ n' =>
      refine matchPattern_couples_succ hp (fun o ho _ _ hs => ?_) fun c hc counting =>
        ih (hp.trans (Pattern.reaches_of_mem_tried hc)) (hn.tried c hc) (hn'.tried c hc)
      subst ho
      exact OptionOf.meets counting hs (hp.slot_notMem rfl)

end Synopsis
