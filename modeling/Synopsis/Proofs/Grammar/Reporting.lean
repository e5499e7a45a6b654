import Synopsis.Proofs.Grammar.Shown
import Synopsis.Proofs.Help.Leaves
import Synopsis.Proofs.Help.Registry

/-! # What a report says about an option

Under a name of an option, the report of a usage merges what it says for each mention of
the option. The usages that did not match and the declarations are merged into it, and
may change it or not.
-/

namespace Synopsis

variable {μ ν : Type} {key : String} {names : Names} {A : OptionAtom → Prop}

/-- A mention of an option: a leaf, or a declared option that a shortcut stands for, and
whether it can be met again. -/
abbrev Mention := OptionAtom × Bool

/-! ## Leaves -/

/-- An option goes by all of some names, and has a property, or by none of them. -/
def Apt (A : OptionAtom → Prop) (names : Names) (o : OptionAtom) : Prop :=
  o.names = names ∧ A o ∨ ∀ key ∈ names.toList, key ∉ o.names.toList

/-- Among the leaves, only options go by some names. -/
def AptLeaf (A : OptionAtom → Prop) (names : Names) : Pattern → Prop
  | .option o => Apt A names o
  | .command leaf | .argument leaf => ∀ key ∈ names.toList, key ∉ leaf.names.toList
  | _ => True

/-- The same for all declared options. -/
structure AptRegistry (r : Registry) (A : OptionAtom → Prop) (names : Names) : Prop where
  proper : r.Proper
  apt : ∀ x ∈ r.options, Apt A names x.1

theorem Apt.of_mem {o : OptionAtom} (h : Apt A names o) (hkey : key ∈ names.toList)
    (hname : key ∈ o.names.toList) : o.names = names ∧ A o :=
  h.resolve_right fun hnone => hnone key hkey hname

namespace Reporter

variable {r : Reporter}

mutual

/-- All mentions of the options of some names. -/
def mentions (r : Reporter) (names : Names) (inRepeat : Bool) : Pattern → List Mention
  | .option o => if o.names = names then [(o, inRepeat)] else []
  | .command _ | .argument _ => []
  | .group _ ps repeats => mentionsAll r names (inRepeat || repeats) ps
  | .either ps => mentionsAll r names inRepeat ps
  | .shortcut s => (r.behind s inRepeat).filter (·.1.names = names)

def mentionsAll (r : Reporter) (names : Names) (inRepeat : Bool) : List Pattern → List Mention
  | [] => []
  | p :: ps => mentions r names inRepeat p ++ mentionsAll r names inRepeat ps

end

theorem mentionsAll_eq_flatMap {inRepeat : Bool} (ps : List Pattern) :
    r.mentionsAll names inRepeat ps = ps.flatMap (r.mentions names inRepeat) := by
  induction ps with
  | nil => rfl
  | cons p ps ih => rw [mentionsAll, List.flatMap_cons, ih]

theorem mem_mentionsAll {inRepeat : Bool} {ps : List Pattern} {x : Mention} :
    x ∈ r.mentionsAll names inRepeat ps ↔ ∃ p ∈ ps, x ∈ r.mentions names inRepeat p := by
  rw [mentionsAll_eq_flatMap, List.mem_flatMap]

mutual

/-- The leaves mention options, each in its place. -/
theorem mentions_eq_flatMap : ∀ (p : Pattern) (inRepeat : Bool),
    r.mentions names inRepeat p =
      (p.placed inRepeat).flatMap fun x => r.mentions names x.2 x.1
  | .option _, _ | .command _, _ | .argument _, _ | .shortcut _, _ => by
    rw [Pattern.placed, List.flatMap_singleton]
  | .group _ ps repeats, inRepeat => mentionsAll_eq_placed ps (inRepeat || repeats)
  | .either ps, inRepeat => mentionsAll_eq_placed ps inRepeat

theorem mentionsAll_eq_placed : ∀ (ps : List Pattern) (inRepeat : Bool),
    r.mentionsAll names inRepeat ps =
      (Pattern.placedAll inRepeat ps).flatMap fun x => r.mentions names x.2 x.1
  | [], _ => rfl
  | p :: ps, inRepeat => by
    rw [mentionsAll, Pattern.placedAll, List.flatMap_append, mentions_eq_flatMap,
      mentionsAll_eq_placed]

end

theorem options_mentions (p : Pattern) (inRepeat : Bool) :
    (r.mentions names inRepeat p).map (·.1) =
      p.leaves.flatMap fun q => (r.mentions names false q).map (·.1) := by
  rw [mentions_eq_flatMap, List.map_flatMap, ← p.map_fst_placed inRepeat, List.flatMap_map]
  refine List.flatMap_congr fun x hx => ?_
  have hmem := Pattern.mem_leaves_of_placed hx
  obtain ⟨q, again⟩ := x
  cases q with
  | option o => by_cases hn : o.names = names <;> simp [mentions, hn]
  | command | argument => rfl
  | shortcut s => simp [mentions, behind, List.filter_map, Function.comp_def]
  | group | either => cases Pattern.isInner_of_mem_leaves hmem

/-- The declared options that a shortcut stands for, in order. -/
theorem behind_sublist (r : Reporter) (s : Shortcut) :
    ((r.scope.visible s).filterMap Pattern.entryOption?).Sublist r.scope.registry.options :=
  (List.filter_sublist.trans
    (List.filter_sublist.flatMap (f := OptionGroup.entries))).filterMap Pattern.entryOption?

theorem mem_behind {s : Shortcut} {inRepeat : Bool} {x : Mention} (h : x ∈ r.behind s inRepeat) :
    ∃ repeats, (x.1, repeats) ∈ r.scope.registry.options ∧ x.2 = (inRepeat || repeats) := by
  obtain ⟨⟨o, repeats⟩, ho, rfl⟩ := List.mem_map.mp h
  exact ⟨repeats, (behind_sublist r s).subset ho, rfl⟩

/-- In a repeating group, everything can be met again. -/
theorem again_of_mentions {p : Pattern} {x : Mention} (h : x ∈ r.mentions names true p) :
    x.2 = true := by
  rw [mentions_eq_flatMap, List.mem_flatMap] at h
  obtain ⟨⟨q, again⟩, hq, hx⟩ := h
  obtain rfl : again = true := Pattern.again_of_placed hq
  cases q with
  | option o =>
    by_cases hn : o.names = names
    · rw [mentions, if_pos hn] at hx
      rw [List.mem_singleton.mp hx]
    · rw [mentions, if_neg hn] at hx
      cases hx
  | command | argument => cases hx
  | shortcut s =>
    obtain ⟨_, -, hagain⟩ := mem_behind (List.mem_filter.mp hx).1
    rw [hagain, Bool.true_or]
  | group | either => cases Pattern.isInner_of_mem_leaves (Pattern.mem_leaves_of_placed hq)

/-- A shortcut stands for at most one option of the names. -/
theorem mentions_shortcut (hr : r.scope.registry.Proper) (hkey : key ∈ names.toList) (s : Shortcut)
    (inRepeat : Bool) : r.mentions names inRepeat (.shortcut s) = [] ∨
      ∃ x ∈ r.behind s inRepeat, x.1.names = names ∧
        r.mentions names inRepeat (.shortcut s) = [x] := by
  have hfilter : r.mentions names inRepeat (.shortcut s) =
      (((r.scope.visible s).filterMap Pattern.entryOption?).filter (·.1.names = names)).map
        fun x => (x.1, inRepeat || x.2) := by
    rw [mentions, behind, List.filter_map]
    rfl
  cases hm : r.mentions names inRepeat (.shortcut s) with
  | nil => exact .inl rfl
  | cons x xs =>
    have hx : x ∈ r.mentions names inRepeat (.shortcut s) := hm ▸ List.mem_cons_self
    rw [mentions, List.mem_filter, decide_eq_true_iff] at hx
    refine .inr ⟨x, hx.1, hx.2, ?_⟩
    obtain ⟨repeats, hdeclared, -⟩ := mem_behind hx.1
    have hsole := hr.filter_names hdeclared (hx.2 ▸ hkey)
    rw [hx.2] at hsole
    have hlength := ((behind_sublist r s).filter (·.1.names = names)).length_le
    rw [hsole, ← List.length_map (f := fun x : Mention => (x.1, inRepeat || x.2)), ← hfilter, hm,
      List.length_cons, List.length_singleton] at hlength
    rw [List.eq_nil_of_length_eq_zero (Nat.le_zero.mp (Nat.le_of_succ_le_succ hlength))]

/-- What a shortcut reports under a name is what it says for its one option of that name. -/
theorem shows_byName {R : List Mention → ν → Prop} {value : OptionAtom → Bool → ν}
    (hkey : key ∈ names.toList) (hr : AptRegistry r.scope.registry A names)
    (hvalue : ∀ x : Mention, x.1.names = names → A x.1 → R [x] (value x.1 x.2)) (s : Shortcut)
    (inRepeat : Bool) :
    Shows R (byName value (r.behind s inRepeat)) key (r.mentions names inRepeat (.shortcut s)) := by
  have hentry {e : String × ν} (he : e ∈ (r.behind s inRepeat).flatMap fun x =>
      x.1.names.toList.map (·, value x.1 x.2)) (hk : e.1 = key) :
      ∃ x ∈ r.behind s inRepeat, (x.1.names = names ∧ A x.1) ∧ e.2 = value x.1 x.2 := by
    obtain ⟨x, hx, he⟩ := List.mem_flatMap.mp he
    obtain ⟨name, hname, rfl⟩ := List.mem_map.mp he
    obtain ⟨repeats, hdeclared, -⟩ := mem_behind hx
    exact ⟨x, hx, (hr.apt _ hdeclared).of_mem hkey (hk ▸ hname), rfl⟩
  rcases mentions_shortcut hr.proper hkey s inRepeat with hnone | ⟨x, hx, hn, hsole⟩
  · rw [hnone]
    refine Shows.nil_iff.mpr ?_
    refine (OrderedMap.find?_insertAll_of_notMem fun hk => ?_).trans (OrderedMap.find?_empty key)
    obtain ⟨e, he, hk⟩ := List.mem_map.mp hk
    obtain ⟨x, hx, ⟨hn, -⟩, -⟩ := hentry he hk
    rw [mentions, List.filter_eq_nil_iff] at hnone
    exact hnone x hx (decide_eq_true hn)
  · rw [hsole]
    have hown : key ∈ x.1.names.toList := hn ▸ hkey
    -- Every entry under the key comes from this option.
    have hsame : ∀ e ∈ (r.behind s inRepeat).flatMap fun x =>
        x.1.names.toList.map (·, value x.1 x.2), e.1 = key → e.2 = value x.1 x.2 := by
      intro e he hk
      obtain ⟨y, hy, ⟨hn', -⟩, hvalue⟩ := hentry he hk
      have hy : y ∈ r.mentions names inRepeat (.shortcut s) :=
        List.mem_filter.mpr ⟨hy, decide_eq_true hn'⟩
      rw [hsole, List.mem_singleton] at hy
      rw [hvalue, hy]
    obtain ⟨repeats, hdeclared, -⟩ := mem_behind hx
    refine (Shows.iff_of_ne (by simp)).mpr ⟨value x.1 x.2, ?_, ?_⟩
    · rw [byName, OrderedMap.ofList, OrderedMap.find?_insertAll hsame, if_pos]
      exact List.mem_map.mpr ⟨_, List.mem_flatMap.mpr ⟨_, hx, List.mem_map.mpr ⟨key, hown, rfl⟩⟩, rfl⟩
    · exact hvalue x hn ((hr.apt _ hdeclared).of_mem hkey hown).2

theorem shows_option {R : List Mention → ν → Prop} {value : ν} {o : OptionAtom} {inRepeat : Bool}
    (hkey : key ∈ names.toList) (ho : Apt A names o)
    (hvalue : o.names = names → A o → R [(o, inRepeat)] value) :
    Shows R (.const o.names.toList value) key (r.mentions names inRepeat (.option o)) := by
  by_cases hn : o.names = names
  · rw [mentions, if_pos hn]
    have hown : key ∈ o.names.toList := hn ▸ hkey
    exact .const hown (hvalue hn (ho.of_mem hkey hown).2)
  · rw [mentions, if_neg hn]
    exact .const_of_notMem fun hown => hn (ho.of_mem hkey hown).1

/-! ## Usages that matched -/

theorem shows_collect {slots : Slots} {R : List Mention → Reported → Prop}
    (hkey : key ∈ names.toList) (hr : AptRegistry r.scope.registry A names)
    (hoption : ∀ x : Mention, x.1.names = names → A x.1 → R [x] (r.option slots x.2 x.1))
    (hmerge : ∀ xs ys a b, R xs a → R ys b → R (xs ++ ys) (Reported.merge key a b)) {p : Pattern}
    (inRepeat : Bool) (hp : p.Leafwise (AptLeaf A names)) :
    Shows R (r.collect slots inRepeat p) key (r.mentions names inRepeat p) := by
  rw [mentions_eq_flatMap]
  refine shows_of_leaves hmerge inRepeat fun x hx => ?_
  have hmem := Pattern.mem_leaves_of_placed hx
  have hapt := hp x.1 hmem
  obtain ⟨q, again⟩ := x
  cases q with
  | option o => exact shows_option hkey hapt (hoption (o, again))
  | command | argument => exact .const_of_notMem (hapt key hkey)
  | shortcut s => exact shows_byName hkey hr hoption s again
  | group | either => cases Pattern.isInner_of_mem_leaves hmem

/-! ## Usages that did not match -/

/-- The mentions that have a neutral value. -/
def neutralMentions (r : Reporter) (names : Names) (inRepeat : Bool) (ps : List Pattern) :
    List Mention :=
  if r.appearedOnly then [] else r.mentionsAll names inRepeat ps

theorem neutralMentions_singleton {inRepeat : Bool} {p : Pattern} :
    r.neutralMentions names inRepeat [p] =
      if r.appearedOnly then [] else r.mentions names inRepeat p := by
  rw [neutralMentions, mentionsAll, mentionsAll, List.append_nil]

theorem neutralMentions_eq_flatMap {inRepeat : Bool} {p : Pattern} :
    r.neutralMentions names inRepeat [p] =
      (p.placed inRepeat).flatMap fun x => r.neutralMentions names x.2 [x.1] := by
  simp only [neutralMentions_singleton]
  split
  · simp
  · exact mentions_eq_flatMap p inRepeat

theorem shows_unlessAppeared {R : List Mention → Value → Prop} {m : OrderedMap String Value}
    {inRepeat : Bool} {p : Pattern} (h : Shows R m key (r.mentions names inRepeat p)) :
    Shows R (if r.appearedOnly then {} else m) key (r.neutralMentions names inRepeat [p]) := by
  rw [neutralMentions_singleton]
  split
  · exact .empty
  · exact h

section Neutral

variable {R : List Mention → Value → Prop} {p : Pattern} (hkey : key ∈ names.toList)
  (hr : AptRegistry r.scope.registry A names)
  (hoption : ∀ x : Mention, x.1.names = names → A x.1 → R [x] (neutralOption x.1 x.2))
include hkey hr hoption

theorem shows_neutral_leaf {inRepeat : Bool} (hp : AptLeaf A names p) (hleaf : p.isInner = false) :
    Shows R (r.neutral inRepeat p) key (r.neutralMentions names inRepeat [p]) := by
  cases p with
  | option o => exact shows_unlessAppeared (shows_option hkey hp (hoption (o, inRepeat)))
  | command | argument =>
    rw [neutralMentions_singleton, mentions, ite_self]
    exact .const_of_notMem (hp key hkey)
  | shortcut s => exact shows_unlessAppeared (shows_byName hkey hr hoption s inRepeat)
  | group | either => cases hleaf

variable (hmerge : ∀ xs ys a b, R xs a → R ys b → R (xs ++ ys) (mergeNeutral a b))
  (inRepeat : Bool) (hp : p.Leafwise (AptLeaf A names))
include hmerge hp

theorem shows_neutral (hlast : ∀ xs ys a b, R xs a → R ys b → R (xs ++ ys) b) :
    Shows R (r.neutral inRepeat p) key (r.neutralMentions names inRepeat [p]) := by
  rw [neutralMentions_eq_flatMap]
  refine shows_neutral_of_leaves (L := fun _ => True) hmerge (fun _ _ _ _ _ => hlast _ _ _ _)
    (fun _ _ => trivial) inRepeat (.inr fun _ => trivial) fun x hx => ?_
  have hmem := Pattern.mem_leaves_of_placed hx
  exact shows_neutral_leaf hkey hr hoption (hp _ hmem) (Pattern.isInner_of_mem_leaves hmem)

/-- Without alternations, only mentions that can be met again replace others. -/
theorem shows_neutral_of_plain (hplain : p.Plain)
    (hlast : ∀ xs ys a b, (∀ y ∈ ys, y.2 = true) → R xs a → R ys b → R (xs ++ ys) b) :
    Shows R (r.neutral inRepeat p) key (r.neutralMentions names inRepeat [p]) := by
  rw [neutralMentions_eq_flatMap]
  refine shows_neutral_of_leaves (L := fun qs => ∀ x ∈ qs, x.2 = true) hmerge ?_ (fun _ => id)
    inRepeat (.inl hplain) fun x hx => ?_
  · intro xs qs a b hagain
    apply hlast
    intro y hy
    obtain ⟨x, hx, hy⟩ := List.mem_flatMap.mp hy
    rw [neutralMentions_singleton, hagain x hx] at hy
    split at hy
    · cases hy
    · exact again_of_mentions hy
  · have hmem := Pattern.mem_leaves_of_placed hx
    exact shows_neutral_leaf hkey hr hoption (hp _ hmem) (Pattern.isInner_of_mem_leaves hmem)

end Neutral

end Reporter

/-! ## Results -/

namespace Grammar

variable {g : Grammar} {i : Nat} {P Q : Value → Prop} {m n : Mapping}

/-- Only what is reported gets into the result. -/
theorem shows_reported {R : List μ → Value → Prop} {m : OrderedMap String Reported}
    {xs : List μ} (h : Shows (fun xs r => ∃ v, r = some v ∧ R xs v) m key xs) :
    Shows R (.ofList (m.entries.filterMap fun (key, v) => v.map (key, ·))) key xs := by
  have hmem {v : Value} (hv : (key, v) ∈ m.entries.filterMap fun (key, v) => v.map (key, ·)) :
      m.find? key = some (some v) := by
    obtain ⟨⟨k, w⟩, he, hw⟩ := List.mem_filterMap.mp hv
    obtain ⟨w, rfl, hpair⟩ := Option.map_eq_some_iff.mp hw
    obtain ⟨rfl, rfl⟩ := Prod.mk.inj hpair
    exact OrderedMap.find?_eq_some_iff.mpr he
  by_cases hx : xs = []
  · subst hx
    have hnone := Shows.nil_iff.mp h
    refine Shows.nil_iff.mpr ((OrderedMap.find?_insertAll_of_notMem fun hk => ?_).trans
      (OrderedMap.find?_empty key))
    obtain ⟨⟨k, v⟩, he, rfl⟩ := List.mem_map.mp hk
    rw [hmem he] at hnone
    cases hnone
  · obtain ⟨_, hv, v, rfl, hr⟩ := (Shows.iff_of_ne hx).mp h
    refine (Shows.iff_of_ne hx).mpr ⟨v, ?_, hr⟩
    have hsame : ∀ e ∈ m.entries.filterMap fun (key, v) => v.map (key, ·), e.1 = key → e.2 = v := by
      rintro ⟨k, w⟩ he rfl
      exact (Option.some.inj (Option.some.inj (hv.symm.trans (hmem he)))).symm
    rw [OrderedMap.ofList, OrderedMap.find?_insertAll hsame, if_pos]
    refine List.mem_map.mpr ⟨(key, v), List.mem_filterMap.mpr ?_, rfl⟩
    exact ⟨_, OrderedMap.find?_eq_some_iff.mp hv, rfl⟩

/-- Under all of some names stands a value with a property. -/
def Tells (P : Value → Prop) (m : Mapping) (names : Names) : Prop :=
  ∀ key ∈ names.toList, ∃ v, m.find? key = some v ∧ P v

/-- Such a value stands there, or nothing does if that is allowed. -/
def Allows (P : Value → Prop) (absent : Prop) (m : Mapping) (names : Names) : Prop :=
  Tells P m names ∨ absent ∧ ∀ key ∈ names.toList, m.find? key = none

variable {absent : Prop}

theorem Tells.imp (h : Tells P m names) (hPQ : ∀ v, P v → Q v) : Tells Q m names :=
  fun key hkey => (h key hkey).imp fun v => And.imp_right (hPQ v)

theorem tells_of_shows {R : List μ → Value → Prop} {xs : List μ} (hx : xs ≠ [])
    (h : ∀ key ∈ names.toList, Shows R m key xs) (hP : ∀ v, R xs v → P v) : Tells P m names :=
  fun key hkey => ((Shows.iff_of_ne hx).mp (h key hkey)).imp fun v => And.imp_right (hP v)

theorem allows_of_shows {R : List μ → Value → Prop} {xs : List μ}
    (h : ∀ key ∈ names.toList, Shows R m key xs) (hP : ∀ v, R xs v → P v)
    (ha : xs = [] → absent) : Allows P absent m names := by
  by_cases hx : xs = []
  · exact .inr ⟨ha hx, fun key hkey => Shows.nil_iff.mp (hx ▸ h key hkey)⟩
  · exact .inl (tells_of_shows hx h hP)

/-! ### Other usages -/

/-- A usage that did not match reshapes what is there, and fills in what is not. -/
theorem allows_addNeutral {R : List μ → Value → Prop} {xs : List μ}
    (hm : Allows P absent m names) (hn : ∀ key ∈ names.toList, Shows R n key xs)
    (hreshape : ∀ v w, P v → R xs w → P (reshape w v)) (hfill : absent → ∀ w, R xs w → P w) :
    Allows P absent (addNeutral m n) names ∧
      (Tells P m names ∨ xs ≠ [] → Tells P (addNeutral m n) names) := by
  have hfind (key : String) : (addNeutral m n).find? key =
      (n.find? key).elim (m.find? key) fun w =>
        some ((m.find? key).elim w fun v => reshape w v) :=
    OrderedMap.find?_foldl_insertWith (f := fun _ old v => reshape v old)
  by_cases hx : xs = []
  · have hsame (key : String) (hkey : key ∈ names.toList) :
        (addNeutral m n).find? key = m.find? key := by
      rw [hfind, Shows.nil_iff.mp (hx ▸ hn key hkey), Option.elim_none]
    have htells (h : Tells P m names) : Tells P (addNeutral m n) names :=
      fun key hkey => hsame key hkey ▸ h key hkey
    exact ⟨hm.imp htells (And.imp_right fun h key hkey => (hsame key hkey).trans (h key hkey)),
      fun h => htells (h.resolve_right (absurd hx))⟩
  · have htells : Tells P (addNeutral m n) names := by
      intro key hkey
      obtain ⟨w, hw, hr⟩ := (Shows.iff_of_ne hx).mp (hn key hkey)
      rw [hfind, hw, Option.elim_some]
      rcases hm with hm | ⟨ha, hnone⟩
      · obtain ⟨v, hv, hp⟩ := hm key hkey
        exact ⟨_, rfl, by rw [hv]; exact hreshape v w hp hr⟩
      · exact ⟨_, rfl, by rw [hnone key hkey]; exact hfill ha w hr⟩
    exact ⟨.inl htells, fun _ => htells⟩

/-- So do all usages that did not match. -/
theorem allows_others {R : List Mention → Value → Prop} (hr : AptRegistry g.registry A names)
    (hoption : ∀ x : Mention, x.1.names = names → A x.1 → R [x] (Reporter.neutralOption x.1 x.2))
    (hmerge : ∀ xs ys a b, R xs a → R ys b → R (xs ++ ys) (Reporter.mergeNeutral a b))
    (hlast : ∀ xs ys a b, R xs a → R ys b → R (xs ++ ys) b) {us : List Pattern}
    (hus : ∀ u ∈ us, u.Leafwise (AptLeaf A names))
    (hreshape : ∀ u ∈ us, ∀ v w, P v → R (g.reporter.neutralMentions names false [u]) w →
      P (reshape w v))
    (hfill : absent → ∀ xs w, R xs w → P w) (hm : Allows P absent m names) :
    Allows P absent (us.foldl (fun m u => addNeutral m (g.reporter.neutral false u)) m) names ∧
      ((Tells P m names ∨ ∃ u ∈ us, g.reporter.neutralMentions names false [u] ≠ []) →
        Tells P (us.foldl (fun m u => addNeutral m (g.reporter.neutral false u)) m) names) := by
  induction us generalizing m with
  | nil => exact ⟨hm, fun h => h.resolve_right (by simp)⟩
  | cons u us ih =>
    obtain ⟨hu, hus⟩ := List.forall_mem_cons.mp hus
    obtain ⟨hru, hrus⟩ := List.forall_mem_cons.mp hreshape
    obtain ⟨hallows, htells⟩ := allows_addNeutral hm
      (fun key hkey => Reporter.shows_neutral hkey hr hoption hmerge false hu hlast) hru
      fun ha => hfill ha _
    obtain ⟨hrest, hpresent⟩ := ih hus hrus hallows
    refine ⟨hrest, fun h => hpresent ?_⟩
    rcases h with h | ⟨u', hu', hne⟩
    · exact .inl (htells (.inl h))
    · rcases List.mem_cons.mp hu' with rfl | hu'
      · exact .inl (htells (.inr hne))
      · exact .inr ⟨u', hu', hne⟩

/-! ### Declarations -/

theorem find?_union_const {keys : List String} {v : Value} :
    (m.union (.const keys v)).find? key = if key ∈ keys then some v else m.find? key := by
  rw [OrderedMap.find?_union, OrderedMap.find?_const]
  split <;> simp

section Declared

variable {slots : Slots}

/-- What is said for a declared option, whether it is reported or not. -/
def Declares (g : Grammar) (slots : Slots) (P Q : Value → Prop) (absent : Prop) (x : Mention) : Prop :=
  (∀ v, P v → Q (declaredReported x.1 x.2 v)) ∧
    (absent → g.config.appearedOnly = false ∧ Q (declaredUnreported x.1 x.2 (slots.get x.1.slot)))

/-- A declaration leaves the names of others alone. -/
theorem find?_addDeclared_of_notMem {o : OptionAtom} {repeats : Bool} (hkey : key ∉ o.names.toList) :
    (g.addDeclared slots m o repeats).find? key = m.find? key := by
  unfold addDeclared
  split
  · rw [find?_union_const, if_neg hkey]
  · split
    · rfl
    · rw [find?_union_const, if_neg hkey]

/-- A declaration of the names has its say under all of them; others leave them alone. -/
theorem allows_addDeclared (hQ : ∀ v, Q v → P v) {x : Mention} (hx : Apt A names x.1)
    (hd : x.1.names = names → Declares g slots P Q absent x) (hm : Allows P absent m names) :
    Allows P absent (g.addDeclared slots m x.1 x.2) names ∧
      (x.1.names = names ∨ Tells Q m names → Tells Q (g.addDeclared slots m x.1 x.2) names) ∧
      (Tells P m names → Tells P (g.addDeclared slots m x.1 x.2) names) := by
  by_cases hn : x.1.names = names
  · have htells : Tells Q (g.addDeclared slots m x.1 x.2) names := by
      intro key hkey
      obtain ⟨hreported, hunreported⟩ := hd hn
      unfold addDeclared
      cases hf : x.1.names.toList.findSome? m.find? with
      | some v =>
        obtain ⟨key', hkey', hv⟩ := List.exists_of_findSome?_eq_some hf
        refine ⟨_, by rw [find?_union_const, if_pos (hn ▸ hkey)], hreported v ?_⟩
        rcases hm with hm | ⟨-, hnone⟩
        · obtain ⟨v', hv', hp⟩ := hm key' (hn ▸ hkey')
          rw [hv] at hv'
          exact Option.some.inj hv' ▸ hp
        · rw [hnone key' (hn ▸ hkey')] at hv
          cases hv
      | none =>
        have ha : absent := by
          rcases hm with hm | ⟨ha, -⟩
          · obtain ⟨v, hv, -⟩ := hm key hkey
            rw [List.findSome?_eq_none_iff.mp hf key (hn ▸ hkey)] at hv
            cases hv
          · exact ha
        obtain ⟨happ, hq⟩ := hunreported ha
        dsimp only
        rw [happ, if_neg Bool.false_ne_true]
        exact ⟨_, by rw [find?_union_const, if_pos (hn ▸ hkey)], hq⟩
    have htells' := htells.imp hQ
    exact ⟨.inl htells', fun _ => htells, fun _ => htells'⟩
  · have hsame {key : String} (hkey : key ∈ names.toList) :
        (g.addDeclared slots m x.1 x.2).find? key = m.find? key :=
      find?_addDeclared_of_notMem fun hown => hn (hx.of_mem hkey hown).1
    have htells {P : Value → Prop} (h : Tells P m names) :
        Tells P (g.addDeclared slots m x.1 x.2) names :=
      fun key hkey => hsame hkey ▸ h key hkey
    exact ⟨hm.imp htells (And.imp_right fun h key hkey => (hsame hkey).trans (h key hkey)),
      fun h => htells (h.resolve_left hn), htells⟩

theorem allows_declared (hQ : ∀ v, Q v → P v) {xs : List Mention} (hx : ∀ x ∈ xs, Apt A names x.1)
    (hd : ∀ x ∈ xs, x.1.names = names → Declares g slots P Q absent x)
    (hm : Allows P absent m names) :
    ((∃ x ∈ xs, x.1.names = names) ∨ Tells Q m names →
      Tells Q (xs.foldl (fun m (o, repeats) => g.addDeclared slots m o repeats) m) names) ∧
    (Tells P m names →
      Tells P (xs.foldl (fun m (o, repeats) => g.addDeclared slots m o repeats) m) names) := by
  induction xs generalizing m with
  | nil => exact ⟨fun h => h.resolve_left (by simp), id⟩
  | cons x xs ih =>
    obtain ⟨hx, hxs⟩ := List.forall_mem_cons.mp hx
    obtain ⟨hdx, hdxs⟩ := List.forall_mem_cons.mp hd
    obtain ⟨hallows, hown, hkept⟩ := allows_addDeclared hQ hx hdx hm
    obtain ⟨hq, hp⟩ := ih hxs hdxs hallows
    refine ⟨fun h => hq ?_, fun h => hp (hkept h)⟩
    rcases h with ⟨y, hy, he⟩ | h
    · rcases List.mem_cons.mp hy with rfl | hy
      · exact .inr (hown (.inl he))
      · exact .inl ⟨y, hy, he⟩
    · exact .inr (hown (.inr h))

end Declared

/-- The end of the options has a name of its own. -/
theorem Tells.insert_dashes {w : Value} (h : Tells P m names) (hdash : "--" ∉ names.toList) :
    Tells P (m.insert "--" w) names := by
  intro key hkey
  rw [OrderedMap.find?_insert, if_neg (ne_of_mem_of_not_mem hkey hdash)]
  exact h key hkey

end Grammar

end Synopsis
