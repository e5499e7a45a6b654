import Synopsis.Proofs.Grammar.Keys
import Synopsis.Proofs.Matcher.Single

/-! # The shapes of values

What stands under the name of a command is a truth value or a number, and under that of
an argument a text or a list of texts. Which of them it is depends on the usages alone: a
name that can be met again in one of them has numbers or lists.
-/

namespace Synopsis

open Pattern (Plain Once)

variable {μ : Type} {key : String} {k : RecordKind} {v w : Value} {a b : Bool} {xs ys : List Bool}

/-! ## Shapes -/

inductive Shape where
  | truth
  | number
  | text
  | list
  deriving DecidableEq, Repr

/-- No value is as good as a text. -/
def Value.shape : Value → Shape
  | .bool _ => .truth
  | .int _ => .number
  | .str _ | .null => .text
  | .list _ => .list

/-- What a name of a kind of leaf stands for, whether or not it can be met again. -/
def RecordKind.shape : RecordKind → (again : Bool) → Shape
  | .hits, false => .truth
  | .hits, true => .number
  | .texts, false => .text
  | .texts, true => .list

/-- The class of the words that name a kind of leaf. -/
def RecordKind.wordClass : RecordKind → Help.WordClass
  | .hits => .command
  | .texts => .argument

namespace Value

theorem exists_count? (h : v.shape = RecordKind.hits.shape a) : ∃ n, v.count? = some n := by
  cases v with
  | bool | int => exact ⟨_, rfl⟩
  | str | list | null => cases a <;> cases h

theorem count?_eq_none (h : v.shape = RecordKind.texts.shape a) : v.count? = none := by
  cases v with
  | bool | int => cases a <;> cases h
  | str | list | null => rfl

theorem shape_addOrConcat (hv : v.shape = k.shape a) (hw : w.shape = k.shape b) :
    (v.addOrConcat w).shape = k.shape true := by
  unfold addOrConcat
  cases k with
  | hits =>
    obtain ⟨_, hv⟩ := exists_count? hv
    obtain ⟨_, hw⟩ := exists_count? hw
    rw [hv, hw]
    rfl
  | texts =>
    rw [count?_eq_none hv]
    rfl

theorem shape_merge (hv : v.shape = k.shape a) (hw : w.shape = k.shape b)
    (hkey : k = .texts → key.startsWith "-" = false) : (v.merge key w).shape = k.shape true := by
  unfold merge
  cases k with
  | texts =>
    rw [hkey rfl, Bool.false_and, if_neg Bool.false_ne_true]
    exact shape_addOrConcat hv hw
  | hits =>
    have hzero {v : Value} {a : Bool} (hv : v.shape = RecordKind.hits.shape a) :
        ∃ a', (if v.isTruthy then v else .int 0).shape = RecordKind.hits.shape a' := by
      split
      · exact ⟨a, hv⟩
      · exact ⟨true, rfl⟩
    have hnull : v.isNull = false := by
      cases v with
      | null => cases a <;> cases hv
      | bool | int | str | list => rfl
    split
    · rw [hnull, Bool.false_and, if_neg Bool.false_ne_true]
      obtain ⟨_, hv⟩ := hzero hv
      obtain ⟨_, hw⟩ := hzero hw
      exact shape_addOrConcat hv hw
    · exact shape_addOrConcat hv hw

end Value

theorem Reporter.shape_mergeNeutral (hv : v.shape = k.shape a) (hw : w.shape = k.shape b) :
    (mergeNeutral v w).shape = k.shape true := by
  unfold mergeNeutral
  cases k with
  | hits =>
    obtain ⟨_, hv⟩ := Value.exists_count? hv
    obtain ⟨_, hw⟩ := Value.exists_count? hw
    rw [hv, hw]
    rfl
  | texts =>
    rw [Value.count?_eq_none hv]
    rfl

/-- A value takes the shape that it has elsewhere. -/
theorem Grammar.shape_reshape (hv : v.shape = k.shape a) (hw : w.shape = k.shape b) :
    (reshape w v).shape = k.shape (a || b) := by
  cases k with
  | hits =>
    obtain ⟨_, hcount⟩ := Value.exists_count? hv
    cases w with
    | bool =>
      cases b with
      | false =>
        rw [Bool.or_false]
        exact hv
      | true => cases hw
    | int =>
      cases b with
      | false => cases hw
      | true =>
        rw [reshape, hcount, Bool.or_true]
        rfl
    | str | list | null => cases b <;> cases hw
  | texts =>
    cases w with
    | bool | int => cases b <;> cases hw
    | str | null =>
      cases b with
      | false =>
        rw [Bool.or_false]
        exact hv
      | true => cases hw
    | list =>
      cases b with
      | false => cases hw
      | true =>
        rw [Bool.or_true]
        cases v with
        | bool | int => cases a <;> cases hv
        | str | null | list => rfl

theorem Slot.shape_hits {s : Slot} (hs : RecordKind.hits.fits s = true) {inRepeat : Bool}
    (hsingle : inRepeat = false → s.isSingle = true) :
    (s.hits inRepeat).shape = RecordKind.hits.shape inRepeat := by
  cases inRepeat with
  | true => rfl
  | false =>
    cases s with
    | unset | flag => rfl
    | count => cases hsingle rfl
    | text | list => cases hs

theorem Reporter.shape_argument {slots : Slots} {leaf : Leaf} {inRepeat : Bool}
    (hs : RecordKind.texts.fits (slots.get leaf.slot) = true)
    (hsingle : inRepeat = false → (slots.get leaf.slot).isSingle = true) :
    (argument slots inRepeat leaf).shape = RecordKind.texts.shape inRepeat := by
  unfold argument
  cases inRepeat with
  | true => rfl
  | false =>
    cases hslot : slots.get leaf.slot with
    | unset | text => rfl
    | list =>
      have hs := hsingle rfl
      rw [hslot] at hs
      cases hs
    | flag | count =>
      rw [hslot] at hs
      cases hs

/-! ## Places of a name -/

namespace Pattern

/-- Where a leaf stands, if it is a command or an argument of a name. -/
def spotsAt (key : String) (x : Pattern × Bool) : List (Pattern × Bool) :=
  if x.1.positional?.isSome ∧ key ∈ x.1.leafNames then [x] else []

/-- Where commands and arguments of a name stand. -/
def spots (key : String) (inRepeat : Bool) (p : Pattern) : List (Pattern × Bool) :=
  (p.placed inRepeat).flatMap (spotsAt key)

/-- For each of them, whether it can be met again. -/
def places (key : String) (inRepeat : Bool) (p : Pattern) : List Bool :=
  (p.spots key inRepeat).map (·.2)

theorem mem_spots {p : Pattern} {inRepeat : Bool} {x : Pattern × Bool} :
    x ∈ p.spots key inRepeat ↔
      x ∈ p.placed inRepeat ∧ x.1.positional?.isSome ∧ key ∈ x.1.leafNames := by
  unfold spots
  rw [List.mem_flatMap]
  constructor
  · rintro ⟨y, hy, hx⟩
    unfold spotsAt at hx
    split at hx
    next hown =>
      obtain rfl := List.mem_singleton.mp hx
      exact ⟨hy, hown⟩
    next => cases hx
  · rintro ⟨hx, hown⟩
    exact ⟨x, hx, by simp [spotsAt, hown]⟩

theorem places_ne_nil {p q : Pattern} (hq : q.positional?.isSome) (hkey : key ∈ q.leafNames)
    (inRepeat : Bool) (h : q ∈ p.leaves) : p.places key inRepeat ≠ [] := by
  rw [← p.map_fst_placed inRepeat] at h
  obtain ⟨x, hx, rfl⟩ := List.mem_map.mp h
  exact List.ne_nil_of_mem (List.mem_map_of_mem (mem_spots.mpr ⟨hx, hq, hkey⟩))

mutual

/-- What cannot be met again lies in no repeating group. -/
theorem once_of_placed {q : Pattern} : ∀ {p : Pattern} {inRepeat : Bool}, p.Plain →
    (q, false) ∈ p.placed inRepeat → inRepeat = false ∧ p.Once q
  | .option _, _, _, h | .command _, _, _, h | .argument _, _, _, h | .shortcut _, _, _, h => by
    obtain ⟨rfl, rfl⟩ := Prod.mk.inj (List.mem_singleton.mp h)
    exact ⟨rfl, .refl⟩
  | .group _ _ _, _, hp, h => by
    obtain ⟨hrepeat, c, hc, honce⟩ := once_of_placedAll hp.children h
    obtain ⟨houter, rfl⟩ := Bool.or_eq_false_iff.mp hrepeat
    exact ⟨houter, .child hc honce⟩

theorem once_of_placedAll {q : Pattern} : ∀ {ps : List Pattern} {inRepeat : Bool},
    (∀ p ∈ ps, p.Plain) → (q, false) ∈ placedAll inRepeat ps →
      inRepeat = false ∧ ∃ c ∈ ps, c.Once q
  | p :: ps, _, hp, h => by
    obtain ⟨hp, hps⟩ := List.forall_mem_cons.mp hp
    rcases List.mem_append.mp h with h | h
    · obtain ⟨hrepeat, honce⟩ := once_of_placed hp h
      exact ⟨hrepeat, p, List.mem_cons_self, honce⟩
    · obtain ⟨hrepeat, c, hc, honce⟩ := once_of_placedAll hps h
      exact ⟨hrepeat, c, List.mem_cons_of_mem _ hc, honce⟩

end

end Pattern

/-- A name recurs that stands at several places, or at one that can be met again. -/
def Recurring (places : List Bool) : Prop := true ∈ places ∨ 1 < places.length

instance : DecidablePred Recurring := fun _ => inferInstanceAs (Decidable (_ ∨ _))

theorem recurring_append (hx : xs ≠ []) (hy : ys ≠ []) : Recurring (xs ++ ys) := by
  have := List.length_pos_iff.mpr hx
  have := List.length_pos_iff.mpr hy
  exact .inr (by rw [List.length_append]; omega)

theorem recurring_singleton : Recurring [a] ↔ a = true := by
  simp [Recurring, eq_comm]

/-- A value has the shape that some places of its name call for. -/
def Shapely (k : RecordKind) (xs : List Bool) (v : Value) : Prop :=
  xs ≠ [] ∧ v.shape = k.shape (Recurring xs)

theorem Shapely.append (hv : Shapely k xs v) (hw : Shapely k ys w) {u : Value}
    (hu : u.shape = k.shape true) : Shapely k (xs ++ ys) u := by
  refine ⟨by simp [hv.1], ?_⟩
  rw [hu, decide_eq_true (recurring_append hv.1 hw.1)]

theorem Shapely.singleton (hv : v.shape = k.shape a) : Shapely k [a] v := by
  refine ⟨List.cons_ne_nil _ _, ?_⟩
  simp [hv, recurring_singleton]

/-! ## Reports -/

namespace Reporter

variable {r : Reporter} {slots : Slots} {p : Pattern}

/-- A leaf goes by a name only if it records a kind of thing, and is no option. -/
def Bears (k : RecordKind) (key : String) : Pattern → Prop
  | .command leaf => key ∈ leaf.names.toList → k = .hits
  | .argument leaf => key ∈ leaf.names.toList → k = .texts
  | .option o => key ∉ o.names.toList
  | .group .. | .either _ | .shortcut _ => True

/-- The slots of all leaves fit, and those outside repeating groups are single. -/
structure Sound (slots : Slots) (p : Pattern) : Prop where
  fits : ∀ q ∈ p.leaves, ∀ c ∈ q.ownRecord?, c.kind.fits (slots.get c.slot) = true
  single : ∀ q, p.Once q → q.positional?.isSome → ∀ i, q.slot? = some i →
    (slots.get i).isSingle = true

theorem shows_spotsAt {ν : Type} {R : List (Pattern × Bool) → ν → Prop} {x : Pattern × Bool}
    {v : ν} (hx : x.1.positional?.isSome) (hv : key ∈ x.1.leafNames → R [x] v) :
    Shows R (.const x.1.leafNames v) key (Pattern.spotsAt key x) := by
  unfold Pattern.spotsAt
  by_cases hkey : key ∈ x.1.leafNames
  · rw [if_pos ⟨hx, hkey⟩]
    exact .const hkey (hv hkey)
  · rw [if_neg fun h => hkey h.2]
    exact .const_of_notMem hkey

theorem find?_byName {ν : Type} {value : OptionAtom → Bool → ν} {s : Shortcut} {inRepeat : Bool}
    (hr : ∀ x ∈ r.scope.registry.options, key ∉ x.1.names.toList) :
    (byName value (r.behind s inRepeat)).find? key = none := by
  by_contra h
  have hmem : key ∈ (byName value (r.behind s inRepeat)).keys :=
    OrderedMap.mem_keys_iff.mpr (Option.isSome_iff_ne_none.mpr h)
  obtain ⟨x, hx, hname⟩ := (mem_leafNames_or_declared (mem_keys_byName.mp hmem)).resolve_left nofun
  exact hr x hx hname

/-- What a usage that matched reports under a name of commands or arguments. -/
theorem shows_spots {R : List (Pattern × Bool) → Reported → Prop} {inRepeat : Bool}
    (hr : ∀ x ∈ r.scope.registry.options, key ∉ x.1.names.toList) (hp : p.Leafwise (Bears k key))
    (hcommand : ∀ leaf again, (.command leaf, again) ∈ p.spots key inRepeat →
      R [(.command leaf, again)] (some ((slots.get leaf.slot).hits again)))
    (hargument : ∀ leaf again, (.argument leaf, again) ∈ p.spots key inRepeat →
      R [(.argument leaf, again)] (some (argument slots again leaf)))
    (hmerge : ∀ xs ys a b, R xs a → R ys b → R (xs ++ ys) (Reported.merge key a b)) :
    Shows R (r.collect slots inRepeat p) key (p.spots key inRepeat) := by
  refine shows_of_leaves hmerge inRepeat ?_
  rintro ⟨q, again⟩ hx
  have hmem := Pattern.mem_leaves_of_placed hx
  cases q with
  | option o => exact .const_of_notMem (hp _ hmem)
  | command leaf =>
    apply shows_spotsAt rfl
    exact fun hkey => hcommand leaf again (Pattern.mem_spots.mpr ⟨hx, rfl, hkey⟩)
  | argument leaf =>
    apply shows_spotsAt rfl
    exact fun hkey => hargument leaf again (Pattern.mem_spots.mpr ⟨hx, rfl, hkey⟩)
  | shortcut s => exact Shows.nil_iff.mpr (find?_byName hr)
  | group | either => cases Pattern.isInner_of_mem_leaves hmem

/-- What a usage that did not match says under it. -/
theorem shows_spots_neutral {R : List (Pattern × Bool) → Value → Prop} {inRepeat : Bool}
    (hr : ∀ x ∈ r.scope.registry.options, key ∉ x.1.names.toList) (hp : p.Leafwise (Bears k key))
    (hplain : p.Plain)
    (hcommand : ∀ leaf again, key ∈ leaf.names.toList → k = .hits →
      R [(.command leaf, again)] (if again then .int 0 else .bool false))
    (hargument : ∀ leaf again, key ∈ leaf.names.toList → k = .texts →
      R [(.argument leaf, again)] (if again then .list [] else .null))
    (hmerge : ∀ xs ys a b, R xs a → R ys b → R (xs ++ ys) (mergeNeutral a b))
    (hlast : ∀ xs ys a b, (∀ y ∈ ys, y.2 = true) → R xs a → R ys b → R (xs ++ ys) b) :
    Shows R (r.neutral inRepeat p) key (p.spots key inRepeat) := by
  refine shows_neutral_of_leaves (L := fun qs => ∀ x ∈ qs, x.2 = true) hmerge ?_ (fun _ => id)
    inRepeat (.inl hplain) ?_
  · intro xs qs a b hagain
    apply hlast
    intro y hy
    obtain ⟨x, hx, hy⟩ := List.mem_flatMap.mp hy
    unfold Pattern.spotsAt at hy
    split at hy
    · exact List.mem_singleton.mp hy ▸ hagain x hx
    · cases hy
  · rintro ⟨q, again⟩ hx
    have hmem := Pattern.mem_leaves_of_placed hx
    cases q with
    | option o =>
      change Shows R (if r.appearedOnly then {} else .const o.names.toList _) key []
      split
      · exact .empty
      · exact .const_of_notMem (hp _ hmem)
    | command leaf => exact shows_spotsAt rfl fun hkey => hcommand leaf again hkey (hp _ hmem hkey)
    | argument leaf => exact shows_spotsAt rfl fun hkey => hargument leaf again hkey (hp _ hmem hkey)
    | shortcut s =>
      change Shows R (if r.appearedOnly then {} else byName neutralOption _) key []
      split
      · exact .empty
      · exact Shows.nil_iff.mpr (find?_byName hr)
    | group | either => cases Pattern.isInner_of_mem_leaves hmem

/-- What a usage that matched reports under a name has the shape that its places there call for. -/
theorem shapely_collect (hr : ∀ x ∈ r.scope.registry.options, key ∉ x.1.names.toList)
    (hkey : k = .texts → key.startsWith "-" = false) (hplain : p.Plain)
    (hp : p.Leafwise (Bears k key)) (hs : Sound slots p) :
    Shows (fun xs r => ∃ v, r = some v ∧ Shapely k (xs.map (·.2)) v) (r.collect slots false p) key
      (p.spots key false) := by
  have hsingle {q : Pattern} {again : Bool} {i : Nat} (hq : (q, again) ∈ p.spots key false)
      (hi : q.slot? = some i) (hagain : again = false) : (slots.get i).isSingle = true := by
    subst hagain
    obtain ⟨hplaced, hword, -⟩ := Pattern.mem_spots.mp hq
    exact hs.single q (Pattern.once_of_placed hplain hplaced).2 hword i hi
  apply shows_spots hr hp
  · intro leaf again hx
    obtain ⟨hplaced, -, hname⟩ := Pattern.mem_spots.mp hx
    have hmem := Pattern.mem_leaves_of_placed hplaced
    obtain rfl := hp _ hmem hname
    exact ⟨_, rfl, .singleton (Slot.shape_hits (hs.fits _ hmem _ rfl) (hsingle hx rfl))⟩
  · intro leaf again hx
    obtain ⟨hplaced, -, hname⟩ := Pattern.mem_spots.mp hx
    have hmem := Pattern.mem_leaves_of_placed hplaced
    obtain rfl := hp _ hmem hname
    exact ⟨_, rfl, .singleton (shape_argument (hs.fits _ hmem _ rfl) (hsingle hx rfl))⟩
  · rintro xs ys _ _ ⟨v, rfl, hv⟩ ⟨w, rfl, hw⟩
    rw [List.map_append]
    exact ⟨_, rfl, hv.append hw (Value.shape_merge hv.2 hw.2 hkey)⟩

/-- What another usage says under a name has the shape that its places there call for, too. -/
theorem shapely_neutral (hr : ∀ x ∈ r.scope.registry.options, key ∉ x.1.names.toList)
    (hplain : p.Plain) (hp : p.Leafwise (Bears k key)) :
    Shows (fun xs => Shapely k (xs.map (·.2))) (r.neutral false p) key (p.spots key false) := by
  apply shows_spots_neutral hr hp hplain
  · rintro leaf again - rfl
    cases again <;> exact .singleton rfl
  · rintro leaf again - rfl
    cases again <;> exact .singleton rfl
  · intro xs ys v w hv hw
    rw [List.map_append]
    exact hv.append hw (shape_mergeNeutral hv.2 hw.2)
  · intro xs ys v w hagain hv hw
    rw [List.map_append]
    apply hv.append hw
    -- The later value stands for places that can all be met again.
    obtain ⟨y, hy⟩ := List.exists_mem_of_ne_nil ys fun hnil => hw.1 (by rw [hnil, List.map_nil])
    have hrecurring : Recurring (ys.map (·.2)) := .inl (hagain y hy ▸ List.mem_map_of_mem hy)
    rw [hw.2, decide_eq_true hrecurring]

end Reporter

/-! ## Results -/

namespace Grammar

variable {g : Grammar} {config : Config} {doc : String} {raw : List String} {m : Mapping}

/-- Whether some places count as one that can be met again; nothing if there are none. -/
def recurrence (xs : List Bool) : List Bool := if xs = [] then [] else [decide (Recurring xs)]

theorem mem_recurrence : true ∈ recurrence xs ↔ Recurring xs := by
  unfold recurrence
  split
  next h => simp [h, Recurring]
  next => simp

/-- The name can be met again in some usage. -/
def Recurs (g : Grammar) (key : String) : Prop := ∃ u ∈ g.usages, Recurring (u.places key false)

instance : Decidable (g.Recurs key) := inferInstanceAs (Decidable (∃ _ ∈ _, _))

/-- A value has the shape that one of some usages calls for. -/
def Shaped (k : RecordKind) (xs : List Bool) (v : Value) : Prop := v.shape = k.shape (true ∈ xs)

theorem shows_recurrence {ps : List (Pattern × Bool)}
    (h : Shows (fun xs => Shapely k (xs.map (·.2))) m key ps) :
    Shows (Shaped k) m key (recurrence (ps.map (·.2))) := by
  apply (Shows.map_iff.mpr h).collapse
  rintro v ⟨-, hshape⟩
  simp [Shaped, hshape]

/-- The usages that did not match come in one after the other. -/
theorem shows_others {R : List μ → Value → Prop} {us : List Pattern} {f : Pattern → List μ}
    {xs : List μ}
    (hreshape : ∀ u ∈ us, ∀ xs v w, R xs v → R (f u) w → R (xs ++ f u) (reshape w v))
    (hus : ∀ u ∈ us, Shows R (g.reporter.neutral false u) key (f u)) (hm : Shows R m key xs) :
    Shows R (us.foldl (fun m u => addNeutral m (g.reporter.neutral false u)) m) key
      (xs ++ us.flatMap f) := by
  induction us generalizing m xs with
  | nil => simpa using hm
  | cons u us ih =>
    obtain ⟨hu, hus⟩ := List.forall_mem_cons.mp hus
    obtain ⟨hru, hrus⟩ := List.forall_mem_cons.mp hreshape
    rw [List.flatMap_cons, ← List.append_assoc]
    exact ih hrus hus (hm.merge (f := fun _ old v => reshape v old) (hru xs) hu)

theorem find?_declared {slots : Slots} {xs : List Mention} (h : ∀ x ∈ xs, key ∉ x.1.names.toList) :
    (xs.foldl (fun m (o, repeats) => g.addDeclared slots m o repeats) m).find? key = m.find? key := by
  induction xs generalizing m with
  | nil => rfl
  | cons x xs ih =>
    obtain ⟨hx, hxs⟩ := List.forall_mem_cons.mp h
    rw [List.foldl_cons, ih hxs, find?_addDeclared_of_notMem hx]

/-- The usages are the one that matched and the others. -/
theorem exists_usage_iff {i : Nat} {u : Pattern} {P : Pattern → Prop} (hu : g.usages[i]? = some u) :
    (∃ u ∈ g.usages, P u) ↔ P u ∨ ∃ u ∈ g.usages.eraseIdx i, P u := by
  obtain ⟨hi, rfl⟩ := List.getElem?_eq_some_iff.mp hu
  simp [← (List.getElem_cons_eraseIdx_perm hi).mem_iff]

/-- In a result, a name has the shape that the usages call for. -/
theorem shape_assemble {i : Nat} {u : Pattern} {slots : Slots} {dashes : Bool} (hdash : key ≠ "--")
    (hkey : k = .texts → key.startsWith "-" = false) (hoption : ∀ o ∈ g.options, key ∉ o.names.toList)
    (hplain : ∀ u ∈ g.usages, u.Plain) (hbears : ∀ u ∈ g.usages, u.Leafwise (Reporter.Bears k key))
    (hu : g.usages[i]? = some u) (hs : Reporter.Sound slots u)
    (hplace : ∃ u ∈ g.usages, u.places key false ≠ []) :
    ∃ v, (g.assemble i slots dashes).find? key = some v ∧ v.shape = k.shape (g.Recurs key) := by
  have hr : ∀ x ∈ g.registry.options, key ∉ x.1.names.toList :=
    fun _ hx => hoption _ (mem_options_of_registry hx)
  have hmem := List.mem_of_getElem? hu
  have hmatched := shows_recurrence (shows_reported
    (Reporter.shapely_collect (r := g.reporter) hr hkey (hplain u hmem) (hbears u hmem) hs))
  have hneutral : ∀ u ∈ g.usages.eraseIdx i,
      Shows (Shaped k) (g.reporter.neutral false u) key (recurrence (u.places key false)) := by
    intro u hu
    have hu := List.mem_of_mem_eraseIdx hu
    exact shows_recurrence
      (Reporter.shapely_neutral (r := g.reporter) hr (hplain u hu) (hbears u hu))
  have hreshape (xs ys : List Bool) (v w : Value) (hv : Shaped k xs v) (hw : Shaped k ys w) :
      Shaped k (xs ++ ys) (reshape w v) := by
    rw [Shaped, shape_reshape hv hw]
    simp
  have hothers := shows_others (fun _ _ xs => hreshape xs _) hneutral hmatched
  have hne : recurrence (u.places key false) ++
      (g.usages.eraseIdx i).flatMap (fun u => recurrence (u.places key false)) ≠ [] := by
    rcases (exists_usage_iff hu).mp hplace with h | ⟨u', hu', h⟩
    · simp [recurrence, h]
    · simp only [ne_eq, List.append_eq_nil_iff, List.flatMap_eq_nil_iff, not_and, not_forall]
      exact fun _ => ⟨u', hu', by simp [recurrence, h]⟩
  obtain ⟨v, hv, hshape⟩ := (Shows.iff_of_ne hne).mp hothers
  refine ⟨v, ?_, ?_⟩
  · unfold assemble
    rw [OrderedMap.find?_insert, if_neg hdash, find?_declared hr, hu]
    exact hv
  · rw [hshape]
    congr 1
    rw [decide_eq_decide, Recurs, exists_usage_iff hu, List.mem_append, List.mem_flatMap]
    simp only [mem_recurrence]

/-- A word of one class names no leaf of the other one. -/
theorem bears_of_classed (hclass : ∀ u ∈ g.usages, u.Leafwise Help.Classed)
    (hoption : ∀ o ∈ g.options, key ∉ o.names.toList) (hk : Help.classOf key.toList = k.wordClass) :
    ∀ u ∈ g.usages, u.Leafwise (Reporter.Bears k key) := by
  intro u hu q hq
  have hown := hclass u hu q hq
  cases q with
  | option o => exact hoption o (mem_options_of_usage hu hq)
  | command leaf =>
    intro hname
    rw [(hown.command hname).2] at hk
    cases k with
    | hits => rfl
    | texts => cases hk
  | argument leaf =>
    intro hname
    rw [hown key hname] at hk
    cases k with
    | hits => cases hk
    | texts => rfl
  | group | either | shortcut => trivial

/-- After the match of a usage, the slots of its leaves fit. -/
theorem fits_of_run {argv : Argv} {u : Pattern} {n : Nat} {log : List Move} {t : Attempt}
    (hd : Pattern.Distinct g.scope g.usages) (hu : u ∈ g.usages)
    (run : Run g.scope n false u ⟨.blank g.slotCount, argv⟩ log true t) :
    ∀ q ∈ u.leaves, ∀ c ∈ q.ownRecord?, c.kind.fits (t.slots.get c.slot) = true := by
  intro q hq c hown
  have hty : Typed g.Owns t.slots :=
    (Typed.closed (apart_of_distinct hd)).run (fun q hq => owns_of_reaches hu hq) run (Typed.blank _)
  have hslot : q.slot? = some c.slot := by simp [Pattern.slot?, Option.mem_def.mp hown]
  refine hty q ?_ c hown
  exact owns_of_reaches hu (Pattern.reaches_of_mem_atoms (Pattern.mem_atoms_of_mem_leaves hq hslot))

/-- Under the name of a command stands a number if the name can be met again in some usage,
and a truth value otherwise; under that of an argument a list, and otherwise a text or
nothing. This does not depend on the arguments. -/
theorem matchArgs_shape (hg : compile config doc = .ok g) (hdash : key ≠ "--")
    (hoption : ∀ o ∈ g.options, key ∉ o.names.toList) (hm : g.matchArgs raw = .ok m) :
    (∀ u ∈ g.usages, ∀ leaf, .command leaf ∈ u.leaves → key ∈ leaf.names.toList →
      ∃ v, m.find? key = some v ∧ v.shape = if g.Recurs key then .number else .truth) ∧
    (∀ u ∈ g.usages, ∀ leaf, .argument leaf ∈ u.leaves → key ∈ leaf.names.toList →
      ∃ v, m.find? key = some v ∧ v.shape = if g.Recurs key then .list else .text) := by
  obtain ⟨argv, i, t, -, ha, -, rfl⟩ := exists_of_matchArgs hm
  have hd := distinct_of_compile hg
  rcases run_of_matchAlternative ha with ⟨-, hb, -⟩ | ⟨u, n, log, hu, run⟩
  · cases hb
  have hmem := List.mem_of_getElem? hu
  have hs : Reporter.Sound t.slots u := by
    refine ⟨fits_of_run hd hmem run, fun q hq hword j hj => ?_⟩
    refine StaysSingle.of_run (hd.singleton hmem) hq hword hj run ?_
    rw [Slots.get_blank]
    rfl
  have hclass := classed_of_compile hg
  have hshape {k : RecordKind} (hk : Help.classOf key.toList = k.wordClass)
      (hplace : ∃ u ∈ g.usages, u.places key false ≠ []) :
      ∃ v, (g.assemble i t.slots t.argv.checkDash.dashes).find? key = some v ∧
        v.shape = k.shape (g.Recurs key) := by
    refine shape_assemble hdash ?_ hoption (plain_of_compile hg) (bears_of_classed hclass hoption hk)
      hu hs hplace
    rintro rfl
    exact Help.not_startsWith_of_classOf hk
  constructor
  · intro u hu leaf hleaf hname
    obtain ⟨v, hv, h⟩ := hshape (k := .hits) ((hclass u hu _ hleaf).command hname).2
      ⟨u, hu, Pattern.places_ne_nil (q := .command leaf) rfl hname false hleaf⟩
    refine ⟨v, hv, h.trans ?_⟩
    by_cases hrecurs : g.Recurs key <;> simp [hrecurs, RecordKind.shape]
  · intro u hu leaf hleaf hname
    obtain ⟨v, hv, h⟩ := hshape (k := .texts) (hclass u hu _ hleaf key hname)
      ⟨u, hu, Pattern.places_ne_nil (q := .argument leaf) rfl hname false hleaf⟩
    refine ⟨v, hv, h.trans ?_⟩
    by_cases hrecurs : g.Recurs key <;> simp [hrecurs, RecordKind.shape]

/-- The command of the first usage is counted because the second one repeats it. -/
theorem shape_of_repeated_command : ∃ g m,
    compile {} "Usage:\n  prog go <x>\n  prog (go <y>)..." = .ok g ∧ g.matchArgs ["go", "1"] = .ok m ∧
      ∃ v, m.find? "go" = some v ∧ v.shape = .number := by
  obtain ⟨g, hg, hoptions, husages, m, hm, -⟩ : ∃ g,
      compile {} "Usage:\n  prog go <x>\n  prog (go <y>)..." = .ok g ∧ g.options = [] ∧
        g.usages = [.required [.command ⟨.singleton "go", 0⟩, .argument ⟨.singleton "<x>", 1⟩],
          .group .required [.command ⟨.singleton "go", 2⟩, .argument ⟨.singleton "<y>", 3⟩] true] ∧
        ∃ m, g.matchArgs ["go", "1"] = .ok m ∧ True := by decide +kernel
  obtain ⟨hcommand, -⟩ := matchArgs_shape hg (show "go" ≠ "--" by decide) (by simp [hoptions]) hm
  obtain ⟨v, hv, h⟩ := hcommand _ (husages ▸ List.mem_cons_self) _ List.mem_cons_self (by decide)
  have hrecurs : g.Recurs "go" := by
    rw [Recurs, husages]
    exact ⟨_, List.mem_cons_of_mem _ List.mem_cons_self, by decide⟩
  exact ⟨g, m, hg, hm, v, hv, h.trans (if_pos hrecurs)⟩

end Grammar

end Synopsis
