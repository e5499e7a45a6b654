import Mathlib.Data.List.Flatten
import Mathlib.Data.List.Nodup
import Mathlib.Data.List.Pairwise
import Synopsis.Grammar.Basic
import Synopsis.Proofs.Matcher.Reach
import Synopsis.Proofs.Matcher.Steps

/-! # Slot numbers are distinct

A grammar gives its leaves the slots `0`, `1`, ... in order, so that no two of them
record in the same place. What a pattern can fill are its own leaves and those of
the declared options.
-/

namespace Synopsis

namespace Pattern

mutual

/-- The options, commands and arguments of a pattern, value patterns included. -/
def atoms : Pattern → List Pattern
  | .option ⟨names, none, fallback, slot⟩ => [.option ⟨names, none, fallback, slot⟩]
  | .option ⟨names, some v, fallback, slot⟩ => .option ⟨names, some v, fallback, slot⟩ :: atoms v
  | .command leaf => [.command leaf]
  | .argument leaf => [.argument leaf]
  | .group _ children _ => atomsAll children
  | .either branches => atomsAll branches
  | .shortcut _ => []

def atomsAll : List Pattern → List Pattern
  | [] => []
  | p :: ps => atoms p ++ atomsAll ps

end

theorem atoms_option (o : OptionAtom) :
    atoms (.option o) = .option o :: o.value.elim [] atoms := by
  obtain ⟨names, _ | v, fallback, slot⟩ := o <;> rfl

@[simp] theorem atomsAll_eq_flatMap (ps : List Pattern) : atomsAll ps = ps.flatMap atoms := by
  induction ps with
  | nil => rfl
  | cons p ps ih => rw [atomsAll, ih, List.flatMap_cons]

/-- The slots of some patterns, in order. -/
def slots (ps : List Pattern) : List Nat := (ps.flatMap atoms).filterMap slot?

@[simp] theorem slots_nil : slots [] = [] := rfl

theorem slots_append (ps qs : List Pattern) : slots (ps ++ qs) = slots ps ++ slots qs := by
  simp [slots]

theorem slots_cons (p : Pattern) (ps : List Pattern) : slots (p :: ps) = slots [p] ++ slots ps :=
  slots_append [p] ps

theorem slots_group (kind : GroupKind) (children : List Pattern) (repeats : Bool) :
    slots [.group kind children repeats] = slots children := by
  simp [slots, atoms]

theorem slots_either (branches : List Pattern) : slots [.either branches] = slots branches := by
  simp [slots, atoms]

theorem slots_option {o : OptionAtom} {v : Pattern} (hv : o.value = some v) :
    slots [.option o] = o.slot :: slots [v] := by
  simp [slots, atoms_option, hv, slot?, ownRecord?]

theorem mem_slots {ps : List Pattern} {i : Nat} :
    i ∈ slots ps ↔ ∃ p ∈ ps, ∃ q ∈ p.atoms, q.slot? = some i := by
  simp only [slots, List.mem_filterMap, List.mem_flatMap]
  constructor
  · rintro ⟨q, ⟨p, hp, hq⟩, hi⟩
    exact ⟨p, hp, q, hq, hi⟩
  · rintro ⟨p, hp, q, hq, hi⟩
    exact ⟨q, ⟨p, hp, hq⟩, hi⟩

theorem mem_slots_of_mem {p : Pattern} {ps : List Pattern} {i : Nat} (hp : p ∈ ps)
    (hi : i ∈ slots [p]) : i ∈ slots ps := by
  obtain ⟨_, hq, h⟩ := mem_slots.mp hi
  exact mem_slots.mpr ⟨p, hp, List.mem_singleton.mp hq ▸ h⟩

theorem slots_eq_flatMap (ps : List Pattern) : slots ps = ps.flatMap fun p => slots [p] := by
  induction ps with
  | nil => rfl
  | cons p ps ih => rw [slots_cons, ih, List.flatMap_cons]

/-- A slot belongs to one of some patterns. -/
theorem eq_of_mem_slots {ps : List Pattern} {c c' : Pattern} {i : Nat} (h : (slots ps).Nodup)
    (hc : c ∈ ps) (hc' : c' ∈ ps) (hi : i ∈ slots [c]) (hi' : i ∈ slots [c']) : c = c' := by
  rw [slots_eq_flatMap, List.nodup_flatMap] at h
  have : Std.Symm fun a b : Pattern => List.Disjoint (slots [a]) (slots [b]) :=
    ⟨fun _ _ h _ hi hj => h hj hi⟩
  by_contra hne
  exact h.2.forall hc hc' hne hi hi'

/-- A slot without a second place in a list belongs to one leaf of it. -/
theorem eq_of_slot?_eq {l : List Pattern} (h : (l.filterMap slot?).Nodup) {q q' : Pattern}
    {i : Nat} (hq : q ∈ l) (hq' : q' ∈ l) (hi : q.slot? = some i) (hi' : q'.slot? = some i) :
    q = q' := by
  by_contra hne
  rw [List.Nodup, List.pairwise_filterMap] at h
  have : Std.Symm fun a b : Pattern => ∀ i ∈ a.slot?, ∀ j ∈ b.slot?, i ≠ j :=
    ⟨fun a b h i hi j hj he => h j hj i hi he.symm⟩
  exact h.forall hq hq' hne i hi i hi' rfl

theorem range'_append_sub {a b c : Nat} (hab : a ≤ b) (hbc : b ≤ c) :
    List.range' a (b - a) ++ List.range' b (c - b) = List.range' a (c - a) := by
  have h := List.range'_append_1 (s := a) (m := b - a) (n := c - b)
  rw [Nat.add_sub_cancel' hab] at h
  rw [h]
  congr 1
  omega

mutual

theorem number_slots (next : Nat) : ∀ p : Pattern,
    next ≤ (number next p).2 ∧
      slots [(number next p).1] = List.range' next ((number next p).2 - next)
  | .option ⟨names, none, fallback, slot⟩ => by
    simp [number, slots, atoms, slot?, ownRecord?]
  | .option ⟨names, some v, fallback, slot⟩ => by
    obtain ⟨hle, hv⟩ := number_slots (next + 1) v
    refine ⟨Nat.le_of_succ_le hle, ?_⟩
    have hsize : (number (next + 1) v).2 - next = (number (next + 1) v).2 - (next + 1) + 1 := by
      omega
    simp only [number, hsize, List.range'_succ, ← hv]
    simp [slots, atoms, slot?, ownRecord?]
  | .command leaf | .argument leaf => by simp [number, slots, atoms, slot?, ownRecord?]
  | .group _ children _ => by
    simpa [number, slots, atoms] using numberAll_slots next children
  | .either branches => by
    simpa [number, slots, atoms] using numberAll_slots next branches
  | .shortcut _ => by simp [number, slots, atoms]

theorem numberAll_slots (next : Nat) : ∀ ps : List Pattern,
    next ≤ (numberAll next ps).2 ∧
      slots (numberAll next ps).1 = List.range' next ((numberAll next ps).2 - next)
  | [] => by simp [numberAll]
  | p :: ps => by
    obtain ⟨hle, hp⟩ := number_slots next p
    obtain ⟨hle', hps⟩ := numberAll_slots (number next p).2 ps
    refine ⟨Nat.le_trans hle hle', ?_⟩
    simp only [numberAll]
    rw [slots_cons, hp, hps, range'_append_sub hle hle']

end

/-! ## Leaves in reach -/

theorem mem_atoms_self {q : Pattern} {i : Nat} (hi : q.slot? = some i) : q ∈ q.atoms := by
  cases q with
  | option => simp [atoms_option]
  | command | argument => simp [atoms]
  | group | either | shortcut => cases hi

theorem mem_slots_self {q : Pattern} {i : Nat} (hi : q.slot? = some i) : i ∈ slots [q] :=
  mem_slots.mpr ⟨q, List.mem_singleton_self q, q, mem_atoms_self hi, hi⟩

mutual

theorem atoms_eq_flatMap_leaves : ∀ p : Pattern, p.atoms = p.leaves.flatMap atoms
  | .option _ | .command _ | .argument _ | .shortcut _ => (List.append_nil _).symm
  | .group _ ps _ | .either ps => atomsAll_eq_flatMap_leaves ps

theorem atomsAll_eq_flatMap_leaves : ∀ ps : List Pattern,
    atomsAll ps = (leavesAll ps).flatMap atoms
  | [] => rfl
  | p :: ps => by
    rw [atomsAll, leavesAll, List.flatMap_append, atoms_eq_flatMap_leaves p,
      atomsAll_eq_flatMap_leaves ps]

end

theorem mem_atoms_of_mem_leaves {p q : Pattern} {i : Nat} (h : q ∈ p.leaves)
    (hi : q.slot? = some i) : q ∈ p.atoms := by
  rw [atoms_eq_flatMap_leaves]
  exact List.mem_flatMap.mpr ⟨q, h, mem_atoms_self hi⟩

theorem mem_flatMap_atoms_of_leaves {line : List Pattern} {q : Pattern} {i : Nat}
    (h : q ∈ line.flatMap leaves) (hi : q.slot? = some i) : q ∈ line.flatMap atoms := by
  obtain ⟨p, hp, h⟩ := List.mem_flatMap.mp h
  exact List.mem_flatMap.mpr ⟨p, hp, mem_atoms_of_mem_leaves h hi⟩

theorem atoms_infix_atomsAll {p : Pattern} {ps : List Pattern} (h : p ∈ ps) :
    p.atoms <:+: atomsAll ps := by
  rw [atomsAll_eq_flatMap]
  exact List.infix_of_mem_flatten (List.mem_map_of_mem h)

theorem atoms_sublist_atomsAll {p : Pattern} {ps : List Pattern} (h : p ∈ ps) :
    p.atoms.Sublist (atomsAll ps) :=
  (atoms_infix_atomsAll h).sublist

theorem Reaches.atoms_infix {scope : Scope} {p q : Pattern} (h : Reaches scope p q) :
    q.atoms <:+: p.atoms ∨ ∃ e ∈ scope.registry.entries, q.atoms <:+: e.atoms := by
  induction h with
  | refl => exact .inl List.infix_rfl
  | value hv _ ih =>
    apply ih.imp_left
    intro hq
    rw [atoms_option, hv]
    exact List.infix_cons hq
  | child hc _ ih | branch hc _ ih =>
    apply ih.imp_left
    intro hq
    rw [atoms]
    exact hq.trans (atoms_infix_atomsAll hc)
  | entry hc _ ih =>
    exact .inr (ih.elim (fun hq => ⟨_, mem_entries_of_visible hc, hq⟩) id)

theorem Reaches.mem_atoms {scope : Scope} {p q : Pattern} {i : Nat} (h : Reaches scope p q)
    (hi : q.slot? = some i) : q ∈ p.atoms ∨ ∃ e ∈ scope.registry.entries, q ∈ e.atoms := by
  have hq := mem_atoms_self hi
  exact h.atoms_infix.imp (·.subset hq) fun ⟨e, he, hs⟩ => ⟨e, he, hs.subset hq⟩

/-- What a pattern fills lies in its own slots or in those of the declared options. -/
theorem Reaches.mem_slots {scope : Scope} {p q : Pattern} {i : Nat} (h : Reaches scope p q)
    (hi : q.slot? = some i) : i ∈ slots (scope.registry.entries ++ [p]) := by
  rw [Pattern.mem_slots]
  rcases h.mem_atoms hi with hq | ⟨e, he, hq⟩
  · exact ⟨p, by simp, q, hq, hi⟩
  · exact ⟨e, by simp [he], q, hq, hi⟩

/-- The slots of a line are its own, and each belongs to one leaf. -/
def Distinct (scope : Scope) (line : List Pattern) : Prop :=
  (slots (scope.registry.entries ++ line)).Nodup

namespace Distinct

variable {scope : Scope} {line ps : List Pattern} {c c' : Pattern} {i : Nat}

theorem sublist (h : Distinct scope line) (hs : ps.Sublist line) : Distinct scope ps :=
  List.Nodup.sublist (((hs.append_left _).flatMap atoms).filterMap slot?) h

theorem singleton (h : Distinct scope line) (hc : c ∈ line) : Distinct scope [c] :=
  h.sublist (List.singleton_sublist.mpr hc)

theorem slots_nodup (h : Distinct scope line) : (slots line).Nodup := by
  unfold Distinct at h
  rw [slots_append] at h
  exact (List.nodup_append'.mp h).2.1

theorem children {kind : GroupKind} {repeats : Bool}
    (h : Distinct scope [.group kind line repeats]) : Distinct scope line := by
  unfold Distinct at h ⊢
  rwa [slots_append, slots_group, ← slots_append] at h

theorem branches {branches : List Pattern} (h : Distinct scope [.either branches]) :
    Distinct scope branches := by
  unfold Distinct at h ⊢
  rwa [slots_append, slots_either, ← slots_append] at h

theorem value {o : OptionAtom} {v : Pattern} (h : Distinct scope [.option o]) (hv : o.value = some v) :
    Distinct scope [v] := by
  unfold Distinct at h ⊢
  rw [slots_append, slots_option hv] at h
  rw [slots_append]
  exact h.sublist ((List.sublist_cons_self _ _).append_left _)

/-- The leaves of what a pattern of a line leads to stand together. -/
theorem atoms_infix_of_reaches {q : Pattern} (hc : c ∈ line) (hq : Reaches scope c q) :
    q.atoms <:+: (scope.registry.entries ++ line).flatMap atoms := by
  rw [← atomsAll_eq_flatMap]
  rcases hq.atoms_infix with hs | ⟨e, he, hs⟩
  · exact hs.trans (atoms_infix_atomsAll (List.mem_append_right _ hc))
  · exact hs.trans (atoms_infix_atomsAll (List.mem_append_left _ he))

/-- What a pattern of a line leads to has its own slots apart. -/
theorem slots_nodup_of_reaches {q : Pattern} (h : Distinct scope line) (hc : c ∈ line)
    (hq : Reaches scope c q) : (slots [q]).Nodup := by
  have hs := (atoms_infix_of_reaches hc hq).sublist.filterMap slot?
  exact List.Nodup.sublist (by simpa [slots] using hs) h

/-- A slot of one pattern of a line is out of reach of the others. -/
theorem not_reaches (h : Distinct scope line) (hc : c ∈ line) (hc' : c' ∈ line) (hne : c ≠ c')
    (hi : i ∈ slots [c]) {q : Pattern} (hq : Reaches scope c' q) : q.slot? ≠ some i := by
  intro hqi
  unfold Distinct at h
  rw [slots_append, List.nodup_append', slots_eq_flatMap line, List.nodup_flatMap] at h
  obtain ⟨-, ⟨-, hline⟩, hdeclared⟩ := h
  have : Std.Symm fun a b : Pattern => List.Disjoint (slots [a]) (slots [b]) :=
    ⟨fun _ _ h _ hi hj => h hj hi⟩
  have hreach := hq.mem_slots hqi
  rw [slots_append, List.mem_append] at hreach
  rcases hreach with hreach | hreach
  · exact hdeclared hreach (List.mem_flatMap.mpr ⟨c, hc, hi⟩)
  · exact hline.forall hc hc' hne hi hreach

/-- A slot belongs to one place of a line. -/
theorem getElem?_inj (h : Distinct scope ps) {k k' : Nat} (hk : ps[k]? = some c)
    (hk' : ps[k']? = some c') (hi : i ∈ slots [c]) (hi' : i ∈ slots [c']) : k = k' := by
  have hline := h.slots_nodup
  rw [slots_eq_flatMap, List.nodup_flatMap] at hline
  have apart {k k' : Nat} {c c' : Pattern} (hlt : k < k') (hk : ps[k]? = some c)
      (hk' : ps[k']? = some c') (hi : i ∈ slots [c]) : i ∉ slots [c'] := by
    obtain ⟨hkl, rfl⟩ := List.getElem?_eq_some_iff.mp hk
    obtain ⟨hkl', rfl⟩ := List.getElem?_eq_some_iff.mp hk'
    exact List.pairwise_iff_getElem.mp hline.2 k k' hkl hkl' hlt hi
  rcases Nat.lt_trichotomy k k' with hlt | he | hlt
  · exact absurd hi' (apart hlt hk hk' hi)
  · exact he
  · exact absurd hi (apart hlt hk' hk hi')

/-- The value of an option does not lead back to the option. -/
theorem value_not_reaches {o : OptionAtom} {v q : Pattern} (h : Distinct scope [.option o])
    (hv : o.value = some v) (hq : Reaches scope v q) : q.slot? ≠ some o.slot := by
  intro hqi
  unfold Distinct at h
  rw [slots_append, slots_option hv, List.nodup_append', List.nodup_cons] at h
  obtain ⟨-, ⟨hown, -⟩, hdeclared⟩ := h
  have hreach := hq.mem_slots hqi
  rw [slots_append, List.mem_append] at hreach
  exact hreach.elim (fun hi => hdeclared hi List.mem_cons_self) hown

end Distinct

end Pattern

/-! ## Grammars -/

open Pattern (slots)

theorem Registry.number_slots (next : Nat) (r : Registry) :
    next ≤ (r.number next).2 ∧
      slots (r.number next).1.entries = List.range' next ((r.number next).2 - next) := by
  suffices h : ∀ (groups : List OptionGroup) (next : Nat), next ≤ (number.go next groups).2 ∧
      slots ((number.go next groups).1.flatMap (·.entries)) =
        List.range' next ((number.go next groups).2 - next) from h r.groups next
  intro groups
  induction groups with
  | nil => simp [number.go]
  | cons g groups ih =>
    intro next
    obtain ⟨hle, hg⟩ := Pattern.numberAll_slots next g.entries
    obtain ⟨hle', hgs⟩ := ih (Pattern.numberAll next g.entries).2
    refine ⟨Nat.le_trans hle hle', ?_⟩
    simp only [number.go, List.flatMap_cons]
    rw [Pattern.slots_append, hg, hgs, Pattern.range'_append_sub hle hle']

namespace Grammar

/-- All leaves that can record something. -/
def atoms (g : Grammar) : List Pattern := (g.registry.entries ++ g.usages).flatMap Pattern.atoms

variable {g : Grammar} {config : Config} {source : SourceText} {registry : Registry}
  {usages : List Pattern}

/-- Building a grammar gives slots to its leaves and collects its option names. -/
theorem eq_of_build (h : build config source registry usages = .ok g) :
    g.config = config ∧ g.source = source ∧ g.registry = (registry.number 0).1 ∧
      g.usages = (Pattern.numberAll (registry.number 0).2 usages).1 ∧
      g.slotCount = (Pattern.numberAll (registry.number 0).2 usages).2 ∧
      g.table = .ofList (g.registry.options.map (·.1) ++ g.usages.flatMap Pattern.options) := by
  unfold build at h
  cases hc : config.namedOptionGroups with
  | false =>
    simp only [hc] at h
    obtain rfl := Except.ok.inj h
    exact ⟨rfl, rfl, rfl, rfl, rfl, rfl⟩
  | true =>
    cases hs : unknownShortcut? registry usages with
    | some s =>
      simp only [hc, hs] at h
      cases h
    | none =>
      simp only [hc, hs] at h
      obtain rfl := Except.ok.inj h
      exact ⟨rfl, rfl, rfl, rfl, rfl, rfl⟩

theorem slots_of_build (h : build config source registry usages = .ok g) :
    slots (g.registry.entries ++ g.usages) = List.range g.slotCount := by
  obtain ⟨-, -, hr, hu, hn, -⟩ := eq_of_build h
  obtain ⟨hle, hr'⟩ := registry.number_slots 0
  obtain ⟨hle', hu'⟩ := Pattern.numberAll_slots (registry.number 0).2 usages
  rw [Pattern.slots_append, hr, hu, hn, hr', hu', Pattern.range'_append_sub hle hle']
  exact (List.range_eq_range' (n := _)).symm

theorem distinct_of_build (h : build config source registry usages = .ok g) :
    Pattern.Distinct g.scope g.usages := by
  unfold Pattern.Distinct
  rw [show g.scope.registry = g.registry from rfl, slots_of_build h]
  exact List.nodup_range

end Grammar

end Synopsis
