import Synopsis.Proofs.Matcher.Aside
import Synopsis.Proofs.Matcher.Required

/-! # Options put into a line

What a required group takes from a stream without flags, before and after an optional
pattern of options was put into its line. Options that do not repeat change nothing.
Those that repeat keep the line from making a loan.
-/

namespace Synopsis

open Pattern (Reaches)

variable {exact : Prop} {H : Set Nat} {scope : Scope} {before after line : List Pattern} {o p : Pattern}
  {slots : Slots} {n n' : Nat} {repeats : Bool} {run run' : Pattern → MatchM Bool}

/-! ## Loans -/

namespace Lending

theorem borrowers?_of_isOptional (ho : o.IsOptional) (hr : o.isRepeatingGroup = false) :
    borrowers? slots o = some [] := by
  cases o with
  | option | command | argument | either => exact ho.elim
  | shortcut => rfl
  | group kind _ repeats =>
    cases kind with
    | required => exact ho.elim
    | optional =>
      obtain rfl : repeats = false := hr
      rfl

theorem borrowersAll?_insert (ho : o.IsOptional) (hr : o.isRepeatingGroup = false) :
    borrowersAll? slots (before ++ o :: after) = borrowersAll? slots (before ++ after) := by
  induction before with
  | nil =>
    rw [List.nil_append, List.nil_append, borrowersAll?, borrowers?_of_isOptional ho hr]
    cases borrowersAll? slots after <;> rfl
  | cons p before ih => rw [List.cons_append, borrowersAll?, ih, List.cons_append, borrowersAll?]

/-- The last pattern of a line needs no rule of its own. -/
theorem loan?_cons (p : Pattern) (rest : List Pattern) : loan? slots (p :: rest) =
    match p with
    | .shortcut _ => loan? slots rest
    | .group kind children true => do
      guard (isSatisfied slots (.group kind children true))
      let lenders ← argumentSlotsAll? children
      let borrowers ← borrowersAll? slots rest
      if lenders.isEmpty || borrowers.isEmpty then none else some ⟨kind, lenders, borrowers⟩
    | p => if isSatisfied slots p then loan? slots rest else none := by
  cases rest with
  | nil =>
    rw [loan?]
    split
    · rfl
    next kind children =>
      cases isSatisfied slots (.group kind children true) with
      | false => rfl
      | true => cases argumentSlotsAll? children <;> simp [loan?, borrowersAll?]
    · rw [loan?, ite_self]
  | cons q rest =>
    cases p with
    | option | command | argument | either | shortcut => rfl
    | group _ _ repeats => cases repeats <;> rfl

/-- An optional pattern that does not repeat is passed over. -/
theorem loan?_insert (ho : o.IsOptional) (hr : o.isRepeatingGroup = false) :
    loan? slots (before ++ o :: after) = loan? slots (before ++ after) := by
  induction before with
  | nil =>
    rw [List.nil_append, List.nil_append, loan?_cons]
    cases o with
    | option | command | argument | either => exact ho.elim
    | shortcut => rfl
    | group kind _ repeats =>
      cases kind with
      | required => exact ho.elim
      | optional =>
        obtain rfl : repeats = false := hr
        rfl
  | cons p before ih =>
    rw [List.cons_append, List.cons_append, loan?_cons, loan?_cons, ih, borrowersAll?_insert ho hr]

/-- A repeating group of options can neither lend nor borrow. -/
theorem loan?_eq_none_of_mem (ho : o ∈ line) (hr : o.isRepeatingGroup = true)
    (hp : o.OptionsOnly) : loan? slots line = none := by
  by_contra hne
  obtain ⟨loan, hl⟩ := Option.ne_none_iff_exists'.mp hne
  obtain ⟨before, children, rest, hsplits⟩ := splits_of_loan? hl
  rw [hsplits.line_eq, List.mem_append, List.mem_cons] at ho
  rcases ho with ho | rfl | ho
  · rw [hsplits.first o ho] at hr
    cases hr
  · obtain ⟨i, hi⟩ := List.exists_mem_of_ne_nil _ hsplits.lenders_ne
    obtain ⟨_, hmem, q, hq, -⟩ := Pattern.mem_slots.mp (hsplits.lenders_slots ▸ hi)
    obtain rfl := List.mem_singleton.mp hmem
    obtain ⟨hleaf, leaf, rfl⟩ := hsplits.lender_argument hq
    cases hp _ hleaf
  · obtain ⟨_, hb, -⟩ := borrowers?_of_mem ho hsplits.borrowers_eq
    cases o with
    | option | command | argument | either | shortcut => cases hr
    | group kind =>
      obtain rfl : _ = true := hr
      cases kind <;> cases hb

end Lending

/-! ## Places -/

/-- Where a place of a line is found once a pattern was put in at another one. -/
def placeBeside (inserted place : Nat) : Nat := if place < inserted then place else place + 1

theorem placeBeside_strictMono (i : Nat) : StrictMono (placeBeside i) := by
  intro k l h
  unfold placeBeside
  split <;> split <;> omega

theorem aligned_insert (h : ∀ p ∈ before ++ after, Couples .quiet True H (run p) (run' p))
    (hidle : Idles .quiet H (run' o)) (ho : o.IsOptional) :
    Aligned .quiet False H run run' (placeBeside before.length) 0 0 ((before ++ after).map .start)
      ((before ++ o :: after).map .start) := by
  obtain ⟨hbefore, hafter⟩ := List.forall_mem_append.mp h
  have hmatched : (Scanned.start o).matched = true := by
    cases o with
    | option | command | argument | either => exact ho.elim
    | shortcut => rfl
    | group kind =>
      cases kind with
      | required => exact ho.elim
      | optional => rfl
  rw [List.map_append, List.map_append, List.map_cons]
  refine .append hbefore (fun k hk => ?_) (.idle not_false hidle hmatched ?_)
  · simp [placeBeside, hk]
  · have hrest : Aligned .quiet False H run run' (placeBeside before.length) (0 + before.length)
        (0 + before.length + 1) (after.map .start ++ []) (after.map .start ++ []) :=
      .append hafter (fun k _ => by rw [placeBeside, if_neg (by omega)]; omega) .nil
    simpa using hrest

/-! ## Groups -/

/-- A required group as `matchPattern` has it, given how a loan is made on its line. -/
def matchGroupWith (lend : MatchM Bool) (scope : Scope) (n : Nat) (line : List Pattern) (repeats : Bool) :
    MatchM Bool := do
  let once := matchLineWith lend (matchPattern scope n false) line
  if repeats then
    let group := Pattern.group .required line true
    let some leaves := group.recorded? scope (scope.depth group) | throw .outOfFuel
    matchRepeatedly once leaves
  else once

theorem matchPattern_required : matchPattern scope (n + 1) false (.group .required line repeats) =
    matchGroupWith (Lending.lend line) scope n line repeats := by
  cases repeats with
  | false => rfl
  | true =>
    rw [matchPattern, matchGroupWith]
    simp only [Bool.or_true, if_true]
    cases (Pattern.group .required line true).recorded? scope (scope.depth _) with
    | none => rfl
    | some leaves => simp [matchOnce, matchLine_eq]

/-- Outside the slots of the pattern put in, the group records what it recorded before. -/
theorem recorded?_insert (hg : scope.Grounded)
    (hH : ∀ q, Reaches scope o q → ∀ i, q.slot? = some i → i ∈ H) :
    ∃ rs rs', (Pattern.group .required (before ++ after) true).recorded? scope
        (scope.depth (.group .required (before ++ after) true)) = some rs ∧
      (Pattern.group .required (before ++ o :: after) true).recorded? scope
        (scope.depth (.group .required (before ++ o :: after) true)) = some rs' ∧
      ∀ i ∉ H, rs'.filter (·.slot = i) = rs.filter (·.slot = i) := by
  let bound (line : List Pattern) :=
    Pattern.nodesAll scope.registry.entries + (Pattern.group .required line true).nodes
  have hsome (line : List Pattern) : ∀ p ∈ line, (p.recorded? scope (bound line)).isSome :=
    fun p hp => Pattern.recorded?_isSome_of_grounded hg (by
      have := Pattern.nodes_le_nodesAll hp
      simp only [bound, Pattern.nodes]
      omega)
  have hall (line : List Pattern) := Pattern.mapM_flatten_of_isSome (hsome line)
  refine ⟨_, _, hall (before ++ after), hall (before ++ o :: after), fun i hi => ?_⟩
  -- The greater bound makes no difference to the patterns that were there before.
  have hsame : ∀ p ∈ before ++ after, p.recorded? scope (bound (before ++ o :: after)) =
      p.recorded? scope (bound (before ++ after)) := by
    intro p hp
    obtain ⟨rs, hrs⟩ := Option.isSome_iff_exists.mp (hsome _ p hp)
    rw [hrs, Pattern.recorded?_mono hrs]
    simp only [bound, Pattern.nodes, Pattern.nodesAll_append, Pattern.nodesAll]
    omega
  have hown : ((o.recorded? scope (bound (before ++ o :: after))).getD []).filter (·.slot = i) = [] := by
    obtain ⟨rs, hrs⟩ := Option.isSome_iff_exists.mp (hsome (before ++ o :: after) o (by simp))
    rw [hrs, Option.getD_some, List.filter_eq_nil_iff]
    intro r hr hri
    obtain ⟨q, hq, hqr⟩ := (Pattern.mem_recorded_iff hrs).mp hr
    refine hi (hH q hq i ?_)
    rw [Pattern.slot?, hqr, Option.map_some, of_decide_eq_true hri]
  obtain ⟨hbefore, hafter⟩ := List.forall_mem_append.mp hsame
  rw [List.flatMap_append, List.flatMap_append, List.flatMap_cons, List.filter_append,
    List.filter_append, List.filter_append, hown, List.nil_append,
    List.flatMap_congr fun p hp => congrArg (Option.getD · []) (hbefore p hp),
    List.flatMap_congr fun p hp => congrArg (Option.getD · []) (hafter p hp)]

/-- What a required group takes from a stream without flags does not depend on an
optional pattern of options in its line. -/
theorem matchGroupWith_couples {lend lend' : MatchM Bool} (hl : Couples .quiet False H lend lend')
    (hg : scope.Grounded) (havoids : ∀ p ∈ before ++ after, p.Avoids scope H)
    (hn : ∀ p ∈ before ++ after, Suffices scope n p) (hn' : ∀ p ∈ before ++ after, Suffices scope n' p)
    (hidle : Idles .quiet H (matchPattern scope n' false o)) (ho : o.IsOptional)
    (hH : ∀ q, Reaches scope o q → ∀ i, q.slot? = some i → i ∈ H) :
    Couples .quiet False H (matchGroupWith lend scope n (before ++ after) repeats)
      (matchGroupWith lend' scope n' (before ++ o :: after) repeats) := by
  have honce : Couples .quiet False H (matchLineWith lend (matchPattern scope n false) (before ++ after))
      (matchLineWith lend' (matchPattern scope n' false) (before ++ o :: after)) :=
    matchLineWith_couples (placeBeside_strictMono before.length)
      (aligned_insert (fun p hp => matchPattern_couples (havoids p hp) (hn p hp) (hn' p hp)) hidle ho) hl
  cases repeats with
  | false => exact honce
  | true =>
    obtain ⟨rs, rs', hrs, hrs', hsame⟩ :
        ∃ rs rs', (Pattern.group .required (before ++ after) true).recorded? scope
            (scope.depth (.group .required (before ++ after) true)) = some rs ∧
          (Pattern.group .required (before ++ o :: after) true).recorded? scope
            (scope.depth (.group .required (before ++ o :: after) true)) = some rs' ∧
          ∀ i ∉ H, rs'.filter (·.slot = i) = rs.filter (·.slot = i) := recorded?_insert hg hH
    simp only [matchGroupWith, if_true, hrs, hrs']
    exact matchRepeatedly_couples hsame honce

/-! ## Usages -/

/-- A match that takes all arguments. -/
def TakesAll (scope : Scope) (p : Pattern) (s t : Attempt) : Prop :=
  matchPattern scope (scope.fuel p s.argv) false p s = .ok true t ∧ t.argv.isExhausted = true

/-- A match of a required group that takes all arguments without a loan on its own line. -/
def TakesAllUnaided (scope : Scope) (line : List Pattern) (repeats : Bool) (s t : Attempt) : Prop :=
  matchGroupWith (pure false) scope (scope.fuel (.group .required line repeats) s.argv - 1) line
    repeats s = .ok true t ∧ t.argv.isExhausted = true

/-- Matches that succeed together, with the same values for everything in a line. -/
structure SameMatches (scope : Scope) (line : List Pattern) (M M' : Attempt → Prop) : Prop where
  iff : (∃ t, M' t) ↔ ∃ t, M t
  values : ∀ t t', M t → M' t' → ∀ p ∈ line, ∀ q, Reaches scope p q → ∀ i, q.slot? = some i →
    t'.slots.get i = t.slots.get i

theorem sameMatches_of_meets {m m' : MatchM Bool} {s : Attempt}
    (h : Meets Eq (Same .quiet False H) (m s) (m' s)) (havoids : ∀ p ∈ line, p.Avoids scope H) :
    SameMatches scope line (fun t => m s = .ok true t ∧ t.argv.isExhausted = true)
      (fun t => m' s = .ok true t ∧ t.argv.isExhausted = true) := by
  generalize m s = r at h ⊢
  generalize m' s = r' at h ⊢
  cases h with
  | stop => exact ⟨⟨nofun, nofun⟩, nofun⟩
  | @ok b _ t t' h =>
    obtain ⟨rfl, hslots⟩ := h
    have hex := hslots.near.isExhausted_eq
    refine ⟨⟨?_, ?_⟩, ?_⟩
    · rintro ⟨_, ⟨⟩, ht⟩
      exact ⟨t, rfl, hex ▸ ht⟩
    · rintro ⟨_, ⟨⟩, ht⟩
      exact ⟨t', rfl, hex.trans ht⟩
    · rintro _ _ ⟨⟨⟩, -⟩ ⟨⟨⟩, -⟩ p hp q hq i hi
      exact hslots.slots i (havoids p hp q hq i hi)

/-- The slots that a pattern can fill. -/
def Pattern.reach (scope : Scope) (p : Pattern) : Set Nat :=
  {i | ∃ q, Reaches scope p q ∧ q.slot? = some i}

end Synopsis
