import Synopsis.Proofs.Help.Choices

/-! # The normal form of simplification

A simplified pattern nests no group for nothing, and simplifying it again changes
nothing. So a procedure that simplifies once more whatever it has put together comes to
an end, and to the same pattern. Of the leaves, only arguments are merged.
-/

namespace Synopsis.Pattern

mutual

/-- By groups and alternations. Values of options are not entered. -/
@[elab_as_elim]
theorem inductionOn {motive : Pattern → Prop} (leaf : ∀ p, p.isInner = false → motive p)
    (group : ∀ kind ps repeats, (∀ p ∈ ps, motive p) → motive (.group kind ps repeats))
    (either : ∀ ps, (∀ p ∈ ps, motive p) → motive (.either ps)) : ∀ p : Pattern, motive p
  | .group _ ps _ => group _ _ _ (inductionOnAll leaf group either ps)
  | .either ps => either _ (inductionOnAll leaf group either ps)
  | .option _ | .command _ | .argument _ | .shortcut _ => leaf _ rfl

theorem inductionOnAll {motive : Pattern → Prop} (leaf : ∀ p, p.isInner = false → motive p)
    (group : ∀ kind ps repeats, (∀ p ∈ ps, motive p) → motive (.group kind ps repeats))
    (either : ∀ ps, (∀ p ∈ ps, motive p) → motive (.either ps)) :
    ∀ ps : List Pattern, ∀ p ∈ ps, motive p
  | [] => nofun
  | p :: ps => List.forall_mem_cons.mpr
    ⟨inductionOn leaf group either p, inductionOnAll leaf group either ps⟩

end

def isGroup : Pattern → Bool
  | .group _ _ _ => true
  | _ => false

def isArgument : Pattern → Bool
  | .argument _ => true
  | _ => false

/-- No group is empty, and none holds a group alone, except that `[(a b)]` keeps its
parentheses. No alternation is left between single arguments. -/
inductive Normal : Pattern → Prop
  | leaf {p : Pattern} (h : p.isInner = false) : Normal p
  | only {kind : GroupKind} {p : Pattern} {repeats : Bool} (h : Normal p)
      (hp : p.isGroup = false) : Normal (.group kind [p] repeats)
  | parenthesized {p q : Pattern} {ps : List Pattern} {repeats again : Bool}
      (h : Normal (.group .required (p :: q :: ps) again)) :
      Normal (.group .optional [.group .required (p :: q :: ps) again] repeats)
  | several {kind : GroupKind} {p q : Pattern} {ps : List Pattern} {repeats : Bool}
      (h : ∀ c ∈ p :: q :: ps, Normal c) : Normal (.group kind (p :: q :: ps) repeats)
  | either {ps : List Pattern} (hne : ps ≠ []) (h : ∀ c ∈ ps, Normal c)
      (hm : mergeArguments? ps = none) : Normal (.either ps)

/-- Every leaf is kept. -/
def Kept (keep : Shortcut → Bool) (p : Pattern) : Prop := ∀ l ∈ p.leaves, isKept keep l = true

variable {keep : Shortcut → Bool} {p q : Pattern} {ps qs : List Pattern}
  {kind inner outer : GroupKind} {repeats again : Bool} {r s : Option Pattern} {name : String}

/-! ## Normal forms stay -/

theorem kept_group : Kept keep (.group kind ps repeats) ↔ ∀ p ∈ ps, Kept keep p := by
  simp only [Kept, leaves, leavesAll_eq_flatMap, List.forall_mem_flatMap]

theorem kept_either : Kept keep (.either ps) ↔ ∀ p ∈ ps, Kept keep p := by
  simp only [Kept, leaves, leavesAll_eq_flatMap, List.forall_mem_flatMap]

theorem leaves_leaf (h : p.isInner = false) : p.leaves = [p] := by
  cases p with
  | option | command | argument | shortcut => rfl
  | group | either => cases h

theorem simplifyWith_leaf (h : p.isInner = false) :
    p.simplifyWith keep = if isKept keep p then some p else none := by
  cases p with
  | option | command | argument | shortcut => rfl
  | group | either => cases h

theorem simplifyAll_eq_filterMap (keep : Shortcut → Bool) (ps : List Pattern) :
    simplifyAll keep ps = ps.filterMap (simplifyWith keep) := by
  induction ps with
  | nil => rfl
  | cons p ps ih => cases h : p.simplifyWith keep <;> simp [simplifyAll, ih, h]

theorem simplifyAll_eq_self (h : ∀ p ∈ ps, p.simplifyWith keep = some p) :
    simplifyAll keep ps = ps := by
  rw [simplifyAll_eq_filterMap, List.filterMap_congr h, List.filterMap_some]

theorem isGroup_eq_false (h : p.isInner = false) : p.isGroup = false := by
  cases p with
  | option | command | argument | shortcut => rfl
  | group | either => cases h

theorem absorb_of_not_group (h : p.isGroup = false) :
    absorb kind repeats p = .group kind [p] repeats := by
  cases p with
  | group => cases h
  | option | command | argument | shortcut | either => rfl

/-- A normal form is its own simplification. -/
theorem Normal.simplifyWith_eq (h : Normal p) (hk : Kept keep p) :
    p.simplifyWith keep = some p := by
  induction h with
  | leaf h =>
    rw [simplifyWith_leaf h, hk _ (leaves_leaf h ▸ List.mem_singleton_self _), if_pos rfl]
  | only _ hp ih =>
    have hself := ih (kept_group.mp hk _ (List.mem_singleton_self _))
    rw [simplifyWith, simplifyAll_eq_self (List.forall_mem_singleton.mpr hself), collapse,
      absorb_of_not_group hp]
  | parenthesized _ ih =>
    have hself := ih (kept_group.mp hk _ (List.mem_singleton_self _))
    rw [simplifyWith, simplifyAll_eq_self (List.forall_mem_singleton.mpr hself)]
    rfl
  | several _ ih =>
    rw [simplifyWith, simplifyAll_eq_self fun c hc => ih c hc (kept_group.mp hk c hc)]
    rfl
  | @either ps hne _ hm ih =>
    rw [simplifyWith, simplifyAll_eq_self fun c hc => ih c hc (kept_either.mp hk c hc)]
    obtain ⟨p, ps, rfl⟩ := List.exists_cons_of_ne_nil hne
    rw [alternation, hm]
    · rfl
    · exact hne

/-! ## Simplification leads to normal forms -/

theorem Normal.absorb (h : Normal p) : Normal (absorb kind repeats p) := by
  cases h with
  | leaf hp =>
    rw [absorb_of_not_group (isGroup_eq_false hp)]
    exact .only (.leaf hp) (isGroup_eq_false hp)
  | only h hp => exact .only h hp
  | parenthesized h =>
    cases kind <;> exact .parenthesized h
  | @several inner p q ps again h =>
    change Normal (if _ then _ else _)
    split
    next hkinds => exact hkinds.2 ▸ .parenthesized (hkinds.2 ▸ .several h)
    next => exact .several h
  | either hne h hm => exact .only (.either hne h hm) rfl

theorem Normal.collapse (h : ∀ p ∈ ps, Normal p) (hq : collapse kind repeats ps = some q) :
    Normal q := by
  match ps with
  | [] => cases hq
  | [p] =>
    obtain rfl := Option.some.inj hq
    exact (h p (List.mem_singleton_self p)).absorb
  | _ :: _ :: _ =>
    obtain rfl := Option.some.inj hq
    exact .several h

theorem Normal.alternation (h : ∀ p ∈ ps, Normal p) (hq : alternation ps = some q) : Normal q := by
  unfold Pattern.alternation at hq
  split at hq
  next => cases hq
  next hne =>
    obtain rfl := Option.some.inj hq
    cases hm : mergeArguments? ps with
    | none => exact .either hne h hm
    | some q =>
      obtain ⟨kind, ls, -, -, rfl⟩ := eq_map_of_mergeArguments? hm
      exact .only (.leaf rfl) rfl

theorem forall_mem_simplifyAll {P : Pattern → Prop}
    (h : ∀ p ∈ ps, ∀ q, p.simplifyWith keep = some q → P q) : ∀ q ∈ simplifyAll keep ps, P q := by
  intro q hq
  obtain ⟨p, hp, hpq⟩ := Plain.mem_simplifyAll.mp hq
  exact h p hp q hpq

theorem normal_of_simplifyWith (h : p.simplifyWith keep = some q) : Normal q := by
  induction p using inductionOn generalizing q with
  | leaf p hp =>
    rw [simplifyWith_leaf hp, Option.ite_none_right_eq_some] at h
    exact Option.some.inj h.2 ▸ .leaf hp
  | group kind ps repeats ih => exact .collapse (forall_mem_simplifyAll fun p hp _ => ih p hp) h
  | either ps ih => exact .alternation (forall_mem_simplifyAll fun p hp _ => ih p hp) h

/-! ## What becomes of the leaves -/

theorem leaves_absorb : (absorb kind repeats p).leaves = p.leaves := by
  unfold absorb
  split
  · rfl
  · split
    · exact List.append_nil _
    · rfl
  · exact List.append_nil _

/-- The leaves of a simplified pattern, beside those that it had. -/
structure Distils (keep : Shortcut → Bool) (old new : List Pattern) : Prop where
  kept : ∀ l ∈ new, isKept keep l = true
  steady : new.filter (fun l => !l.isArgument) = old.filter fun l => isKept keep l && !l.isArgument
  names (name : String) : (∃ l : Leaf, .argument l ∈ new ∧ name ∈ l.names.toList) ↔
    ∃ l : Leaf, .argument l ∈ old ∧ name ∈ l.names.toList
  left : (∃ l, l ∈ new) ↔ ∃ l ∈ old, isKept keep l = true

namespace Distils

variable {old new old' new' : List Pattern} {ls : List Leaf}

theorem nil_iff : Distils keep old [] ↔ ∀ l ∈ old, isKept keep l = false := by
  constructor
  · intro h l hl
    by_contra hk
    obtain ⟨_, h⟩ := h.left.mpr ⟨l, hl, Bool.not_eq_false _ ▸ hk⟩
    cases h
  · intro h
    refine ⟨nofun, ?_, fun name => ⟨nofun, ?_⟩, nofun, ?_⟩
    · exact (List.filter_eq_nil_iff.mpr fun l hl => by simp [h l hl]).symm
    · rintro ⟨l, hl, -⟩
      cases h _ hl
    · rintro ⟨l, hl, hk⟩
      simp [h l hl] at hk

theorem append (h : Distils keep old new) (h' : Distils keep old' new') :
    Distils keep (old ++ old') (new ++ new') where
  kept := List.forall_mem_append.mpr ⟨h.kept, h'.kept⟩
  steady := by rw [List.filter_append, List.filter_append, h.steady, h'.steady]
  names name := by
    simp only [List.mem_append, or_and_right, exists_or, h.names name, h'.names name]
  left := by simp only [List.mem_append, or_and_right, exists_or, h.left, h'.left]

/-- Arguments become one with all their names. -/
theorem merge (h : Distils keep old (ls.map .argument)) (hne : ls ≠ []) :
    Distils keep old [.argument { names := (ls.map Leaf.names).foldl .union {} }] where
  kept := List.forall_mem_singleton.mpr rfl
  steady := by
    rw [← h.steady, List.filter_map]
    simp [isArgument, Function.comp_def]
  names name := by
    have hnone : name ∉ ({} : Names).toList := nofun
    rw [← h.names name]
    simp [OrderedSet.mem_foldl_union, hnone]
  left := by
    rw [← h.left]
    obtain ⟨l, ls, rfl⟩ := List.exists_cons_of_ne_nil hne
    simp

end Distils

/-- The leaves of a pattern, if there is one. -/
def leavesOf (r : Option Pattern) : List Pattern := r.elim [] leaves

theorem distils_all (h : ∀ p ∈ ps, Distils keep p.leaves (leavesOf (p.simplifyWith keep))) :
    Distils keep (ps.flatMap leaves) ((simplifyAll keep ps).flatMap leaves) := by
  induction ps with
  | nil => exact Distils.nil_iff.mpr nofun
  | cons p ps ih =>
    obtain ⟨hp, hps⟩ := List.forall_mem_cons.mp h
    rw [simplifyAll, List.flatMap_append]
    refine Distils.append ?_ (ih hps)
    generalize p.simplifyWith keep = r at hp
    cases r with
    | none => exact hp
    | some q => simpa [leavesOf] using hp

theorem leavesOf_collapse : leavesOf (collapse kind repeats ps) = ps.flatMap leaves := by
  match ps with
  | [] => rfl
  | [p] => simp [collapse, leavesOf, leaves_absorb]
  | _ :: _ :: _ => exact leavesAll_eq_flatMap _

theorem distils_simplifyWith (keep : Shortcut → Bool) (p : Pattern) :
    Distils keep p.leaves (leavesOf (p.simplifyWith keep)) := by
  induction p using inductionOn with
  | leaf p hp =>
    rw [simplifyWith_leaf hp, leaves_leaf hp]
    split
    next hk =>
      rw [leavesOf, Option.elim_some, leaves_leaf hp]
      have hall : ∀ l ∈ [p], isKept keep l = true := List.forall_mem_singleton.mpr hk
      refine ⟨hall, List.filter_congr fun l hl => ?_, fun _ => .rfl, by simp [hk]⟩
      rw [hall l hl, Bool.true_and]
    next hk => exact Distils.nil_iff.mpr (List.forall_mem_singleton.mpr (Bool.not_eq_true _ ▸ hk))
  | group kind ps repeats ih =>
    rw [simplifyWith, leavesOf_collapse, leaves, leavesAll_eq_flatMap]
    exact distils_all ih
  | either ps ih =>
    rw [simplifyWith, leaves, leavesAll_eq_flatMap]
    have hall := distils_all ih
    generalize simplifyAll keep ps = qs at hall
    unfold alternation
    split
    next => exact hall
    next =>
      cases hm : mergeArguments? qs with
      | none => simpa [leavesOf, leaves] using hall
      | some q =>
        obtain ⟨kind, ls, hne, rfl, rfl⟩ := eq_map_of_mergeArguments? hm
        refine Distils.merge ?_ hne
        rw [List.flatMap_map] at hall
        rw [List.map_eq_flatMap]
        exact hall

/-! ## Simplifying again -/

/-- What a procedure has to simplify: a pattern, the patterns of a group, or a group around
what has become of the last one of them. -/
inductive Pending where
  | whole (p : Pattern)
  | line (kind : GroupKind) (ps : List Pattern) (repeats : Bool)
  | around (kind : GroupKind) (r : Option Pattern) (repeats : Bool)

/-- Simplification by rewriting. Whatever is put together or taken out of a group is
simplified once more. -/
inductive Rewrites (keep : Shortcut → Bool) : Pending → Option Pattern → Prop
  | leaf {p : Pattern} (h : p.isInner = false) :
      Rewrites keep (.whole p) (if isKept keep p then some p else none)
  | either {ps : List Pattern} {f : Pattern → Option Pattern}
      (h : ∀ p ∈ ps, Rewrites keep (.whole p) (f p)) :
      Rewrites keep (.whole (.either ps)) (alternation (ps.filterMap f))
  | group {kind : GroupKind} {ps : List Pattern} {repeats : Bool} {r : Option Pattern}
      (h : Rewrites keep (.line kind ps repeats) r) :
      Rewrites keep (.whole (.group kind ps repeats)) r
  | several {kind : GroupKind} {ps : List Pattern} {repeats : Bool} {f : Pattern → Option Pattern}
      (hps : 1 < ps.length) (h : ∀ p ∈ ps, Rewrites keep (.whole p) (f p))
      (hqs : 1 < (ps.filterMap f).length) :
      Rewrites keep (.line kind ps repeats) (some (.group kind (ps.filterMap f) repeats))
  | few {kind : GroupKind} {ps : List Pattern} {repeats : Bool} {f : Pattern → Option Pattern}
      {r : Option Pattern} (hps : 1 < ps.length) (h : ∀ p ∈ ps, Rewrites keep (.whole p) (f p))
      (hqs : (ps.filterMap f).length ≤ 1) (hr : Rewrites keep (.line kind (ps.filterMap f) repeats) r) :
      Rewrites keep (.line kind ps repeats) r
  | empty {kind : GroupKind} {repeats : Bool} : Rewrites keep (.line kind [] repeats) none
  | only {kind : GroupKind} {p : Pattern} {repeats : Bool} {q r : Option Pattern}
      (h : Rewrites keep (.whole p) q) (hr : Rewrites keep (.around kind q repeats) r) :
      Rewrites keep (.line kind [p] repeats) r
  | nothing {kind : GroupKind} {repeats : Bool} : Rewrites keep (.around kind none repeats) none
  | plain {kind : GroupKind} {p : Pattern} {repeats : Bool} (hp : p.isGroup = false) :
      Rewrites keep (.around kind (some p) repeats) (some (.group kind [p] repeats))
  | hollow {outer inner : GroupKind} {repeats again : Bool} :
      Rewrites keep (.around outer (some (.group inner [] again)) repeats) none
  | gone {outer inner : GroupKind} {p : Pattern} {repeats again : Bool}
      (h : Rewrites keep (.whole p) none) :
      Rewrites keep (.around outer (some (.group inner [p] again)) repeats) none
  | nested {outer inner : GroupKind} {p q : Pattern} {repeats again : Bool} {r : Option Pattern}
      (h : Rewrites keep (.whole p) (some q))
      (hr : Rewrites keep (.line (outer.merge inner) [q] (repeats || again)) r) :
      Rewrites keep (.around outer (some (.group inner [p] again)) repeats) r
  | vanished {ps : List Pattern} {repeats again : Bool} (hps : 1 < ps.length)
      (h : Rewrites keep (.whole (.group .required ps again)) none) :
      Rewrites keep (.around .optional (some (.group .required ps again)) repeats) none
  | parenthesized {ps qs : List Pattern} {repeats again again' : Bool} (hps : 1 < ps.length)
      (h : Rewrites keep (.whole (.group .required ps again)) (some (.group .required qs again')))
      (hqs : 1 < qs.length) :
      Rewrites keep (.around .optional (some (.group .required ps again)) repeats)
        (some (.group .optional [.group .required qs again'] repeats))
  | shortened {ps : List Pattern} {q : Pattern} {repeats again : Bool} {r : Option Pattern}
      (hps : 1 < ps.length) (h : Rewrites keep (.whole (.group .required ps again)) (some q))
      (hq : ∀ qs again', q = .group .required qs again' → qs.length ≤ 1)
      (hr : Rewrites keep (.line .optional [q] repeats) r) :
      Rewrites keep (.around .optional (some (.group .required ps again)) repeats) r
  | inner {outer inner : GroupKind} {ps : List Pattern} {repeats again : Bool} {r : Option Pattern}
      (hps : 1 < ps.length) (hkinds : ¬(outer = .optional ∧ inner = .required))
      (h : Rewrites keep (.whole (.group inner ps (repeats || again))) r) :
      Rewrites keep (.around outer (some (.group inner ps again)) repeats) r

namespace Pending

/-- What simplification makes of them. -/
def simplified (keep : Shortcut → Bool) : Pending → Option Pattern
  | .whole p => p.simplifyWith keep
  | .line kind ps repeats => collapse kind repeats (simplifyAll keep ps)
  | .around kind r repeats => r.map (absorb kind repeats)

/-- What a group stands around has been simplified. -/
def Ready (keep : Shortcut → Bool) : Pending → Prop
  | .around _ (some p) _ => Normal p ∧ Kept keep p
  | _ => True

end Pending

theorem kept_of_simplifyWith (h : p.simplifyWith keep = some q) : Kept keep q := by
  have hkept := (distils_simplifyWith keep p).kept
  rwa [h] at hkept

theorem simplifyWith_simplifyWith (h : p.simplifyWith keep = some q) :
    q.simplifyWith keep = some q :=
  (normal_of_simplifyWith h).simplifyWith_eq (kept_of_simplifyWith h)

theorem simplifyAll_simplifyAll :
    simplifyAll keep (simplifyAll keep ps) = simplifyAll keep ps :=
  simplifyAll_eq_self (forall_mem_simplifyAll fun _ _ _ => simplifyWith_simplifyWith)

theorem collapse_of_length (h : 1 < ps.length) :
    collapse kind repeats ps = some (.group kind ps repeats) := by
  match ps, h with
  | _ :: _ :: _, _ => rfl

theorem ready_around (h : p.simplifyWith keep = r) : Pending.Ready keep (.around kind r repeats) := by
  cases r with
  | none => trivial
  | some q => exact ⟨normal_of_simplifyWith h, kept_of_simplifyWith h⟩

namespace Normal

theorem ne_nil : ¬ Normal (.group kind [] repeats) := nofun

theorem mem (h : Normal (.group kind ps repeats)) (hp : p ∈ ps) : Normal p := by
  cases h with
  | leaf h => cases h
  | only h | parenthesized h => exact List.mem_singleton.mp hp ▸ h
  | several h => exact h p hp

theorem exists_leaf (h : Normal p) : ∃ l, l ∈ p.leaves := by
  have inside {ps : List Pattern} {c : Pattern} (hc : c ∈ ps) (h : ∃ l, l ∈ c.leaves) :
      ∃ l, l ∈ leavesAll ps := by
    obtain ⟨l, hl⟩ := h
    exact ⟨l, leavesAll_eq_flatMap ps ▸ List.mem_flatMap.mpr ⟨c, hc, hl⟩⟩
  induction h with
  | @leaf p h => exact ⟨p, leaves_leaf h ▸ List.mem_singleton_self p⟩
  | only _ _ ih | parenthesized _ ih => exact inside (List.mem_singleton_self _) ih
  | several _ ih => exact inside List.mem_cons_self (ih _ List.mem_cons_self)
  | either hne _ _ ih =>
    obtain ⟨c, hc⟩ := List.exists_mem_of_ne_nil _ hne
    exact inside hc (ih c hc)

theorem repeated (h : Normal (.group kind ps repeats)) : Normal (.group kind ps again) := by
  cases h with
  | leaf h => cases h
  | only h hp => exact .only h hp
  | parenthesized h => exact .parenthesized h
  | several h => exact .several h

/-- The last pattern of a group needs no group of its own. -/
theorem absorb_only (h : Normal (.group inner [p] again)) :
    Pattern.absorb (outer.merge inner) repeats p = .group (outer.merge inner) [p] repeats := by
  cases h with
  | leaf h => cases h
  | only _ hp => exact absorb_of_not_group hp
  | parenthesized => cases outer <;> rfl

theorem absorb_of_length (h : 1 < ps.length) : Pattern.absorb outer repeats (.group inner ps again) =
    if outer = .optional ∧ inner = .required then .group .optional [.group inner ps again] repeats
    else .group inner ps (repeats || again) := by
  match ps, h with
  | _ :: _ :: _, _ => rfl

end Normal

theorem Rewrites.eq_simplified {t : Pending} (h : Rewrites keep t r) (ht : t.Ready keep) :
    r = t.simplified keep := by
  -- A part that was simplified before has stayed as it is.
  have same {p : Pattern} {r : Option Pattern} (hr : r = p.simplifyWith keep) (hp : Normal p)
      (hk : Kept keep p) : r = some p := hr.trans (hp.simplifyWith_eq hk)
  have parts {ps : List Pattern} {f : Pattern → Option Pattern}
      (h : ∀ p ∈ ps, True → f p = p.simplifyWith keep) : ps.filterMap f = simplifyAll keep ps := by
    rw [List.filterMap_congr fun p hp => h p hp trivial, simplifyAll_eq_filterMap]
  induction h with
  | leaf h => exact (simplifyWith_leaf h).symm
  | either _ ih => exact congrArg alternation (parts ih)
  | group _ ih => exact ih trivial
  | several _ _ hqs ih =>
    rw [parts ih] at hqs ⊢
    exact (collapse_of_length hqs).symm
  | few _ _ _ _ ih ihr =>
    rw [ihr trivial, Pending.simplified, parts ih, simplifyAll_simplifyAll]
    rfl
  | empty | nothing => rfl
  | @only kind p repeats q r _ _ ih ihr =>
    obtain rfl := ih trivial
    rw [ihr (ready_around rfl), Pending.simplified, Pending.simplified, Pending.simplified,
      simplifyAll, simplifyAll, List.append_nil]
    cases p.simplifyWith keep <;> rfl
  | plain hp => exact congrArg some (absorb_of_not_group hp).symm
  | hollow => exact absurd ht.1 Normal.ne_nil
  | @gone _ _ p _ _ _ ih =>
    have hmem := List.mem_singleton_self p
    cases same (ih trivial) (ht.1.mem hmem) (kept_group.mp ht.2 _ hmem)
  | @nested outer inner p q repeats again r _ _ ih ihr =>
    have hmem := List.mem_singleton_self p
    have hp := ht.1.mem hmem
    have hk := kept_group.mp ht.2 _ hmem
    obtain rfl := Option.some.inj (same (ih trivial) hp hk)
    rw [ihr trivial, Pending.simplified,
      simplifyAll_eq_self (List.forall_mem_singleton.mpr (hp.simplifyWith_eq hk))]
    exact congrArg some ht.1.absorb_only
  | vanished _ _ ih => cases same (ih trivial) ht.1 ht.2
  | parenthesized hps _ _ ih =>
    obtain ⟨-, rfl, rfl⟩ := Pattern.group.inj (Option.some.inj (same (ih trivial) ht.1 ht.2))
    rw [Pending.simplified, Option.map_some, Normal.absorb_of_length hps, if_pos ⟨rfl, rfl⟩]
  | shortened hps _ hq _ ih =>
    have hle := hq _ _ (Option.some.inj (same (ih trivial) ht.1 ht.2))
    exact absurd hps (Nat.not_lt.mpr hle)
  | inner hps hkinds _ ih =>
    rw [same (ih trivial) ht.1.repeated (kept_group.mpr (kept_group.mp ht.2)), Pending.simplified,
      Option.map_some, Normal.absorb_of_length hps, if_neg hkinds]

/-- Nothing is left of a pattern if none of its leaves is kept. -/
theorem simplifyWith_eq_none_iff :
    p.simplifyWith keep = none ↔ ∀ l ∈ p.leaves, isKept keep l = false := by
  have hleaves := distils_simplifyWith keep p
  cases hs : p.simplifyWith keep with
  | none =>
    rw [hs] at hleaves
    exact iff_of_true rfl (Distils.nil_iff.mp hleaves)
  | some q =>
    rw [hs] at hleaves
    refine iff_of_false nofun fun hnone => ?_
    obtain ⟨l, hl⟩ := (normal_of_simplifyWith hs).exists_leaf
    obtain ⟨l, hl, hk⟩ := hleaves.left.mp ⟨l, hl⟩
    exact absurd hk (Bool.eq_false_iff.mp (hnone l hl))

/-! ### Every rewriting ends -/

/-- A normal form is rewritten to itself. -/
theorem Normal.rewrites (h : Normal p) (hk : Kept keep p) : Rewrites keep (.whole p) (some p) := by
  have hself (ps : List Pattern) : ps.filterMap some = ps := List.filterMap_some
  induction h with
  | leaf h =>
    have hrule : Rewrites keep _ _ := .leaf h
    rwa [hk _ (leaves_leaf h ▸ List.mem_singleton_self _), if_pos rfl] at hrule
  | only _ hp ih =>
    exact .group (.only (ih (kept_group.mp hk _ (List.mem_singleton_self _))) (.plain hp))
  | parenthesized _ ih =>
    have hinner := ih (kept_group.mp hk _ (List.mem_singleton_self _))
    exact .group (.only hinner (.parenthesized (by simp) hinner (by simp)))
  | @several kind p q ps repeats _ ih =>
    have hrule : Rewrites keep (.line kind _ repeats) _ := .several (f := some) (by simp)
      (fun c hc => ih c hc (kept_group.mp hk c hc)) (by simp)
    rw [hself] at hrule
    exact .group hrule
  | @either ps hne _ hm ih =>
    have hrule := Rewrites.either (f := some) fun c hc => ih c hc (kept_either.mp hk c hc)
    rw [hself] at hrule
    obtain ⟨p, ps, rfl⟩ := List.exists_cons_of_ne_nil hne
    rwa [Pattern.alternation, hm, Option.getD_none] at hrule
    exact fun hnil => by cases hnil

theorem Normal.rewrites_around (h : Normal p) (hk : Kept keep p) :
    Rewrites keep (.around outer (some p) repeats) (some (Pattern.absorb outer repeats p)) := by
  cases h with
  | leaf hp =>
    rw [absorb_of_not_group (isGroup_eq_false hp)]
    exact .plain (isGroup_eq_false hp)
  | @only inner p again h hp =>
    have hself := h.rewrites (kept_group.mp hk _ (List.mem_singleton_self _))
    exact .nested hself (.only hself (.plain hp))
  | @parenthesized p q ps again' again h =>
    have hself := h.rewrites (kept_group.mp hk _ (List.mem_singleton_self _))
    have hps : 1 < (p :: q :: ps).length := by simp
    have hrule : Rewrites keep (.around .optional _ (repeats || again')) _ :=
      .parenthesized hps hself hps
    cases outer <;> exact .nested hself (.only hself hrule)
  | @several inner p q ps again h =>
    have hps : 1 < (p :: q :: ps).length := by simp
    have hself (again : Bool) : Rewrites keep (.whole (.group inner (p :: q :: ps) again)) _ :=
      Normal.rewrites (.several h) (kept_group.mpr (kept_group.mp hk))
    rw [Normal.absorb_of_length hps]
    split
    next hkinds =>
      obtain ⟨rfl, rfl⟩ := hkinds
      exact .parenthesized hps (hself again) hps
    next hkinds => exact .inner hps hkinds (hself _)
  | either => exact .plain rfl

theorem rewrites_around (h : p.simplifyWith keep = r) :
    Rewrites keep (.around kind r repeats) (r.map (absorb kind repeats)) := by
  cases r with
  | none => exact .nothing
  | some q => exact (normal_of_simplifyWith h).rewrites_around (kept_of_simplifyWith h)

theorem rewrites_line (h : ∀ p ∈ ps, Rewrites keep (.whole p) (p.simplifyWith keep)) :
    Rewrites keep (.line kind ps repeats) (collapse kind repeats (simplifyAll keep ps)) := by
  have one {p : Pattern} (hp : Rewrites keep (.whole p) (p.simplifyWith keep)) :
      Rewrites keep (.line kind [p] repeats) (collapse kind repeats (simplifyAll keep [p])) := by
    have hrule : Rewrites keep (.line kind _ repeats) _ := .only hp (rewrites_around rfl)
    rw [simplifyAll, simplifyAll, List.append_nil]
    generalize p.simplifyWith keep = r at hrule
    cases r <;> exact hrule
  rcases ps with _ | ⟨p, _ | ⟨q, ps⟩⟩
  · exact .empty
  · exact one (h p (List.mem_singleton_self p))
  · have hps : 1 < (p :: q :: ps).length := by simp
    have hqs := simplifyAll_eq_filterMap keep (p :: q :: ps)
    by_cases hlen : 1 < (simplifyAll keep (p :: q :: ps)).length
    · rw [collapse_of_length hlen]
      rw [hqs] at hlen ⊢
      exact .several hps h hlen
    · refine .few hps h (hqs ▸ Nat.not_lt.mp hlen) ?_
      have hagain : collapse kind repeats (simplifyAll keep (p :: q :: ps)) =
          collapse kind repeats (simplifyAll keep (simplifyAll keep (p :: q :: ps))) := by
        rw [simplifyAll_simplifyAll]
      rw [← hqs, hagain]
      have hself : ∀ c ∈ simplifyAll keep (p :: q :: ps), Rewrites keep (.whole c) (some c) :=
        forall_mem_simplifyAll fun _ _ _ hc =>
          (normal_of_simplifyWith hc).rewrites (kept_of_simplifyWith hc)
      have hfixed : ∀ c ∈ simplifyAll keep (p :: q :: ps), c.simplifyWith keep = some c :=
        forall_mem_simplifyAll fun _ _ _ => simplifyWith_simplifyWith
      generalize simplifyAll keep (p :: q :: ps) = rest at hlen hself hfixed
      rcases rest with _ | ⟨c, _ | ⟨_, _⟩⟩
      · exact .empty
      · have hc := List.mem_singleton_self c
        exact one (hfixed c hc ▸ hself c hc)
      · simp at hlen

theorem rewrites_simplifyWith (keep : Shortcut → Bool) (p : Pattern) :
    Rewrites keep (.whole p) (p.simplifyWith keep) := by
  induction p using inductionOn with
  | leaf p hp => exact simplifyWith_leaf hp ▸ .leaf hp
  | group kind ps repeats ih => exact .group (rewrites_line ih)
  | either ps ih =>
    rw [simplifyWith, simplifyAll_eq_filterMap]
    exact .either ih

/-- Simplification is what rewriting comes to, which always ends. It ends in a normal form,
from where it goes no further, and has the leaves of the pattern, but for the shortcuts that
are not kept and for arguments that are merged. Nothing is left only of nothing. -/
theorem simplifyWith_normalizes (keep : Shortcut → Bool) (p : Pattern) :
    (∀ r, Rewrites keep (.whole p) r ↔ r = p.simplifyWith keep) ∧
      (∀ q, p.simplifyWith keep = some q →
        q.simplifyWith keep = some q ∧ Normal q ∧ Distils keep p.leaves q.leaves) ∧
      (p.simplifyWith keep = none ↔ ∀ l ∈ p.leaves, isKept keep l = false) := by
  have hleaves := distils_simplifyWith keep p
  refine ⟨fun r => ⟨fun h => h.eq_simplified trivial, ?_⟩, fun q hq => ⟨?_, ?_, ?_⟩, ?_⟩
  · rintro rfl
    exact rewrites_simplifyWith keep p
  · exact simplifyWith_simplifyWith hq
  · exact normal_of_simplifyWith hq
  · rwa [hq] at hleaves
  · exact simplifyWith_eq_none_iff

/-- A line in brackets of its own, and an alternation between two names of one argument. -/
theorem nested_line_is_flattened :
    ∃ keep p q, p = .required [.required [.either [.required [argumentNamed "<name>"],
        .required [argumentNamed "<pattern>"]]], .optional [.required [.shortcut ⟨"", {}⟩,
          optionNamed "-v"]]] ∧
      q = .required [.required [.argument ⟨.ofList ["<name>", "<pattern>"], 0⟩],
        .optional [optionNamed "-v"]] ∧
      p.simplifyWith keep = some q ∧ Rewrites keep (.whole p) (some q) ∧
      q.simplifyWith keep = some q ∧ Normal q ∧ Distils keep p.leaves q.leaves := by
  obtain ⟨hends, hlaws, -⟩ := simplifyWith_normalizes (fun _ => false)
    (.required [.required [.either [.required [argumentNamed "<name>"],
      .required [argumentNamed "<pattern>"]]], .optional [.required [.shortcut ⟨"", {}⟩,
        optionNamed "-v"]]])
  have hq : Pattern.simplifyWith (fun _ => false) (.required [.required [.either
      [.required [argumentNamed "<name>"], .required [argumentNamed "<pattern>"]]],
      .optional [.required [.shortcut ⟨"", {}⟩, optionNamed "-v"]]]) =
      some (.required [.required [.argument ⟨.ofList ["<name>", "<pattern>"], 0⟩],
        .optional [optionNamed "-v"]]) := by decide
  exact ⟨_, _, _, rfl, rfl, hq, (hends _).mpr hq.symm, hlaws _ hq⟩

end Synopsis.Pattern
