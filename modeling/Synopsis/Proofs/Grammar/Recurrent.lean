import Synopsis.Proofs.Grammar.Counting
import Synopsis.Proofs.Grammar.Shapes

/-! # Flags that can be met again

What stands under the names of a flag that can be met again is a number, with one
exception: a repeating group that was never entered leaves its flags as they were, and if
such a flag is mentioned nowhere else, it is reported as a truth value. Nothing else tells
a usage of which nothing was met from one that was not tried.
-/

namespace Synopsis

open Argv (occurrences)

variable {μ : Type} {key : String} {names : Names} {slots : Slots} {x : Mention}
  {xs ys : List Mention} {v w : Value}

/-! ## Numbers and truth values -/

/-- What stands for nothing. -/
def RecordKind.blank : RecordKind → (again : Bool) → Value
  | .hits, false => .bool false
  | .hits, true => .int 0
  | .texts, false => .null
  | .texts, true => .list []

/-- A number is told by how much it counts, a truth value as well. -/
theorem Value.eq_of_shape {n : ℕ} {b : Bool} (hv : v.count? = some (n : ℤ))
    (hs : v.shape = RecordKind.hits.shape b) : v = if b then .int n else .bool (n ≠ 0) := by
  rcases eq_of_count? hv with ⟨c, rfl, hc⟩ | rfl
  · cases b with
    | true => cases hs
    | false => cases c <;> simp_all
  · cases b with
    | true => rfl
    | false => cases hs

/-- A mention of a flag is reported as a number if its slot counts, or if it was met where
it can be met again. -/
def numbered (slots : Slots) (x : Mention) : Bool :=
  !(slots.get x.1.slot).isSingle || x.2 && (slots.get x.1.slot).isTruthy

/-- Mentions are reported as a number if one of them is, or if there are several. -/
def Numbered (slots : Slots) (xs : List Mention) : Prop :=
  1 < xs.length ∨ ∃ x ∈ xs, numbered slots x = true

instance : DecidablePred (Numbered slots) := fun _ => inferInstanceAs (Decidable (_ ∨ _))

theorem numbered_append (hx : xs ≠ []) (hy : ys ≠ []) : Numbered slots (xs ++ ys) := by
  have := List.length_pos_iff.mpr hx
  have := List.length_pos_iff.mpr hy
  left
  rw [List.length_append]
  omega

theorem numbered_singleton : Numbered slots [x] ↔ numbered slots x = true := by
  simp [Numbered]

/-- A value counts how often some mentions were met, as a number if they call for one. -/
structure Tallied (slots : Slots) (xs : List Mention) (v : Value) : Prop where
  ne_nil : xs ≠ []
  count?_eq : v.count? = some (metTogether slots xs : ℤ)
  shape_eq : v.shape = RecordKind.hits.shape (Numbered slots xs)

/-- A value stands for places of a name where nothing was met. -/
structure Blank (k : RecordKind) (xs : List Bool) (v : Value) : Prop where
  ne_nil : xs ≠ []
  eq : v = k.blank (Recurring xs)

namespace Blank

variable {k : RecordKind} {a b : Bool} {xs ys : List Bool} {u : Value}

theorem singleton (k : RecordKind) (b : Bool) : Blank k [b] (k.blank b) := by
  refine ⟨List.cons_ne_nil _ _, ?_⟩
  simp [recurring_singleton]

theorem merge (hv : Blank k xs v) (hw : Blank k ys w) (hkey : k = .texts → key.startsWith "-" = false) :
    Blank k (xs ++ ys) (v.merge key w) := by
  refine ⟨by simp [hv.ne_nil], ?_⟩
  rw [decide_eq_true (recurring_append hv.ne_nil hw.ne_nil), hv.eq, hw.eq, Value.merge]
  cases k with
  | hits =>
    cases decide (Recurring xs) <;> cases decide (Recurring ys) <;> cases key.startsWith "-" <;> rfl
  | texts =>
    rw [hkey rfl]
    cases decide (Recurring xs) <;> cases decide (Recurring ys) <;> rfl

theorem mergeNeutral (hv : Blank k xs v) (hw : Blank k ys w) :
    Blank k (xs ++ ys) (Reporter.mergeNeutral v w) := by
  refine ⟨by simp [hv.ne_nil], ?_⟩
  rw [decide_eq_true (recurring_append hv.ne_nil hw.ne_nil), hv.eq, hw.eq]
  cases k <;> cases decide (Recurring xs) <;> cases decide (Recurring ys) <;> rfl

/-- What stands for places that can all be met again stands for any others, too. -/
theorem last (hw : Blank k ys w) (hagain : ∀ y ∈ ys, y = true) : Blank k (xs ++ ys) w := by
  obtain ⟨y, hy⟩ := List.exists_mem_of_ne_nil ys hw.ne_nil
  have hrecurring : true ∈ ys := hagain y hy ▸ hy
  have hlast : Recurring ys := .inl hrecurring
  have hall : Recurring (xs ++ ys) := .inl (List.mem_append_right xs hrecurring)
  refine ⟨by simp [hw.ne_nil], ?_⟩
  rw [hw.eq, decide_eq_true hlast, decide_eq_true hall]

end Blank

/-- What the mentions of a usage count, and whether they call for a number. -/
def share (met : ℕ) (again : Prop) [Decidable again] (xs : List Mention) : List (ℕ × Bool) :=
  if xs = [] then [] else [(met, decide again)]

section Share

variable {met : ℕ} {again : Prop} [Decidable again]

theorem share_eq_nil_iff : share met again xs = [] ↔ xs = [] := by
  unfold share
  split <;> simp_all

theorem sum_share (h : xs = [] → met = 0) : ((share met again xs).map (·.1)).sum = met := by
  unfold share
  split
  next hnil => exact (h hnil).symm
  next => simp

theorem mem_share (h : xs = [] → ¬ again) : true ∈ (share met again xs).map (·.2) ↔ again := by
  unfold share
  split
  next hnil => simp [h hnil]
  next => simp

end Share

/-- What usages count, and which of them call for a number. -/
structure Adds (cs : List (ℕ × Bool)) (v : Value) : Prop where
  count?_eq : v.count? = some (((cs.map (·.1)).sum : ℕ) : ℤ)
  shape_eq : v.shape = RecordKind.hits.shape (true ∈ cs.map (·.2))

theorem Adds.reshape {cs ds : List (ℕ × Bool)} (hv : Adds cs v) (hw : Adds ds w)
    (hds : (ds.map (·.1)).sum = 0) : Adds (cs ++ ds) (Grammar.reshape w v) := by
  constructor
  · rw [Grammar.count?_reshape hw.count?_eq hv.count?_eq, List.map_append, List.sum_append, hds, add_zero]
  · rw [Grammar.shape_reshape hv.shape_eq hw.shape_eq, ← Bool.decide_or, List.map_append]
    simp only [List.mem_append]

namespace Reporter

variable {r : Reporter} {p : Pattern}

theorem tallied_option (happ : r.appearedOnly = false) (hx : IsFlag slots x.1) :
    ∃ v, r.option slots x.2 x.1 = some v ∧ Tallied slots [x] v := by
  obtain ⟨v, hv, hcount⟩ := count?_option happ hx
  refine ⟨v, hv, List.cons_ne_nil _ _, hcount, ?_⟩
  simp only [numbered_singleton, Bool.decide_eq_true]
  unfold Reporter.option at hv
  unfold numbered
  rw [happ, OptionOf.width_of_flag hx.1] at hv
  cases hslot : slots.get x.1.slot with
  | unset =>
    rw [hslot] at hv
    obtain rfl := Option.some.inj hv
    cases x.2 <;> rfl
  | flag b =>
    rw [hslot] at hv
    cases b <;> cases hagain : x.2 <;> rw [hagain] at hv <;> obtain rfl := Option.some.inj hv <;> rfl
  | count n =>
    have hint : v = .int n := by
      by_cases hn : n = 0 <;> simp_all [Slot.isTruthy]
    rw [hint]
    rfl
  | text | list =>
    have hfits := hx.2
    rw [hslot] at hfits
    cases hfits

theorem tallied_collect (happ : r.appearedOnly = false) (hkey : key ∈ names.toList)
    (hr : AptRegistry r.scope.registry (IsFlag slots) names)
    (hp : p.Leafwise (AptLeaf (IsFlag slots) names)) :
    Shows (fun xs r => ∃ v, r = some v ∧ Tallied slots xs v) (r.collect slots false p) key
      (r.mentions names false p) := by
  apply shows_collect hkey hr _ _ false hp
  · exact fun x _ => tallied_option happ
  · rintro xs ys _ _ ⟨v, rfl, hv⟩ ⟨w, rfl, hw⟩
    refine ⟨_, rfl, by simp [hv.ne_nil], ?_, ?_⟩
    · rw [metTogether_append, Int.natCast_add]
      exact Value.count?_merge key hv.count?_eq hw.count?_eq
    · rw [Value.shape_merge hv.shape_eq hw.shape_eq nofun,
        decide_eq_true (numbered_append hv.ne_nil hw.ne_nil)]

theorem blank_neutral (happ : r.appearedOnly = false) (hkey : key ∈ names.toList)
    (hr : AptRegistry r.scope.registry (IsFlag slots) names)
    (hp : p.Leafwise (AptLeaf (IsFlag slots) names)) (hplain : p.Plain) :
    Shows (fun xs => Blank .hits (xs.map (·.2))) (r.neutral false p) key
      (r.mentions names false p) := by
  have hmentions : r.neutralMentions names false [p] = r.mentions names false p := by
    rw [neutralMentions_singleton, happ, if_neg Bool.false_ne_true]
  rw [← hmentions]
  apply shows_neutral_of_plain hkey hr _ _ false hp hplain
  · intro xs ys v w hagain _ hw
    rw [List.map_append]
    exact hw.last (List.forall_mem_map.mpr hagain)
  · rintro ⟨o, again⟩ _ hx
    rw [neutralOption, OptionOf.width_of_flag hx.1]
    cases again <;> exact .singleton .hits _
  · intro xs ys v w hv hw
    rw [List.map_append]
    exact hv.mergeNeutral hw

theorem adds_collect (happ : r.appearedOnly = false) (hkey : key ∈ names.toList)
    (hr : AptRegistry r.scope.registry (IsFlag slots) names)
    (hp : p.Leafwise (AptLeaf (IsFlag slots) names)) :
    Shows (fun cs r => ∃ v, r = some v ∧ Adds cs v) (r.collect slots false p) key
      (share (metTogether slots (r.mentions names false p))
        (Numbered slots (r.mentions names false p)) (r.mentions names false p)) := by
  apply (tallied_collect happ hkey hr hp).collapse
  rintro _ ⟨v, rfl, hv⟩
  refine ⟨v, rfl, ?_, ?_⟩
  · simp [hv.count?_eq]
  · simp [hv.shape_eq]

theorem adds_neutral (happ : r.appearedOnly = false) (hkey : key ∈ names.toList)
    (hr : AptRegistry r.scope.registry (IsFlag slots) names)
    (hp : p.Leafwise (AptLeaf (IsFlag slots) names)) (hplain : p.Plain) :
    Shows Adds (r.neutral false p) key
      (share 0 (Recurring ((r.mentions names false p).map (·.2))) (r.mentions names false p)) := by
  apply (blank_neutral happ hkey hr hp hplain).collapse
  intro v hv
  rw [hv.eq]
  constructor <;> cases decide (Recurring ((r.mentions names false p).map (·.2))) <;> rfl

end Reporter

/-! ## Results -/

namespace Grammar

variable {g : Grammar} {config : Config} {doc : String} {raw : List String} {argv : Argv}
  {m : Mapping} {i : Nat} {o : OptionAtom} {u : Pattern} {t : Attempt} {name : String}

theorem declaredReported_flag {repeats : Bool} (hd : o.default = none) (hvalue : o.value = none) :
    declaredReported o repeats v = if repeats then v.count?.elim v .int else v := by
  unfold declaredReported
  rw [hd]
  cases v.isTruthy <;> simp [OptionOf.takesValue, hvalue]

/-- A value counts to a number, as a number or as a truth value. -/
def CountsAs (n : ℕ) (b : Bool) (v : Value) : Prop :=
  v.count? = some (n : ℤ) ∧ v.shape = RecordKind.hits.shape b

theorem CountsAs.declared {n : ℕ} {b repeats : Bool} (hv : CountsAs n b v) (hd : o.default = none)
    (hvalue : o.value = none) : CountsAs n (b || repeats) (declaredReported o repeats v) := by
  rw [declaredReported_flag hd hvalue]
  cases repeats with
  | true =>
    rw [if_pos rfl, hv.1, Bool.or_true]
    exact ⟨rfl, rfl⟩
  | false =>
    rw [if_neg Bool.false_ne_true, Bool.or_false]
    exact hv

/-- A declaration makes a number of what is there if it may be repeated. -/
theorem counts_declared {n : ℕ} {b : Bool} {xs : List Mention} (hkey : key ∈ names.toList)
    (hx : ∀ x ∈ xs, Apt (IsFlag slots) names x.1)
    (hd : ∀ x ∈ xs, x.1.names = names → x.1.default = none) (hm : Tells (CountsAs n b) m names) :
    Tells (CountsAs n (b || decide (∃ x ∈ xs, x.1.names = names ∧ x.2 = true)))
      (xs.foldl (fun m (o, repeats) => g.addDeclared slots m o repeats) m) names := by
  induction xs generalizing m b with
  | nil => simpa using hm
  | cons x xs ih =>
    obtain ⟨hx, hxs⟩ := List.forall_mem_cons.mp hx
    obtain ⟨hdx, hdxs⟩ := List.forall_mem_cons.mp hd
    have hstep : Tells (CountsAs n (b || decide (x.1.names = names ∧ x.2 = true)))
        (g.addDeclared slots m x.1 x.2) names := by
      intro name hname
      by_cases hn : x.1.names = names
      · obtain ⟨v, hv, hown⟩ := hm key hkey
        have hsome : (x.1.names.toList.findSome? m.find?).isSome :=
          List.findSome?_isSome_iff.mpr ⟨key, hn ▸ hkey, by rw [hv]; rfl⟩
        obtain ⟨w, hw⟩ := Option.isSome_iff_exists.mp hsome
        obtain ⟨other, hother, hfound⟩ := List.exists_of_findSome?_eq_some hw
        obtain ⟨w', hw', hcounts⟩ := hm other (hn ▸ hother)
        obtain rfl := Option.some.inj (hfound.symm.trans hw')
        refine ⟨declaredReported x.1 x.2 w, ?_, ?_⟩
        · unfold addDeclared
          rw [hw, find?_union_const, if_pos (hn ▸ hname)]
        · simpa [hn] using hcounts.declared (hdx hn) (hx.of_mem hkey (hn ▸ hkey)).2.1
      · rw [find?_addDeclared_of_notMem fun hown => hn (hx.of_mem hname hown).1]
        simpa [hn] using hm name hname
    have hrest := ih hxs hdxs hstep
    rw [Bool.or_assoc, ← Bool.decide_or] at hrest
    simpa only [List.foldl_cons, List.exists_mem_cons_iff] using hrest

/-- The mentions of a flag call for a number: those of the usage that matched, those of
another usage, or the declaration. -/
def CallsForNumber (g : Grammar) (i : Nat) (u : Pattern) (slots : Slots) (names : Names) : Prop :=
  (Numbered slots (g.reporter.mentions names false u) ∨
    ∃ u ∈ g.usages.eraseIdx i, Recurring ((g.reporter.mentions names false u).map (·.2))) ∨
    ∃ x ∈ g.registry.options, x.1.names = names ∧ x.2 = true

instance : Decidable (g.CallsForNumber i u slots names) := inferInstanceAs (Decidable (_ ∨ _))

section Assemble

variable {slots : Slots} {dashes : Bool} (happ : g.config.appearedOnly = false)
  (hu : g.usages[i]? = some u) (hplain : ∀ u ∈ g.usages, u.Plain)
  (hr : AptRegistry g.registry (IsFlag slots) names)
  (husages : ∀ u ∈ g.usages, u.Leafwise (AptLeaf (IsFlag slots) names))
include happ hu hplain hr husages

/-- What the usages say about a flag together. -/
theorem counts_usages (hmention : ∃ u ∈ g.usages, g.reporter.mentions names false u ≠ []) :
    Tells (CountsAs (metTogether slots (g.reporter.mentions names false u))
        (Numbered slots (g.reporter.mentions names false u) ∨
          ∃ u ∈ g.usages.eraseIdx i, Recurring ((g.reporter.mentions names false u).map (·.2))))
      ((g.usages.eraseIdx i).foldl (fun m u => addNeutral m (g.reporter.neutral false u))
        (.ofList ((g.reporter.collect slots false u).entries.filterMap fun (key, v) =>
          v.map (key, ·)))) names := by
  intro key hkey
  have hmem := List.mem_of_getElem? hu
  have hown := shows_reported (Reporter.adds_collect (r := g.reporter) happ hkey hr (husages u hmem))
  have hneutral (u : Pattern) (hu : u ∈ g.usages.eraseIdx i) :=
    have hu := List.mem_of_mem_eraseIdx hu
    Reporter.adds_neutral (r := g.reporter) happ hkey hr (husages u hu) (hplain u hu)
  have hothers := shows_others (fun u _ _ _ _ hv hw => hv.reshape hw (sum_share fun _ => rfl))
    hneutral hown
  rw [Shows.iff_of_ne] at hothers
  · obtain ⟨v, hv, hadds⟩ := hothers
    refine ⟨v, hv, ?_, ?_⟩
    · have hrest : (((g.usages.eraseIdx i).flatMap fun u =>
          share 0 (Recurring ((g.reporter.mentions names false u).map (·.2)))
            (g.reporter.mentions names false u)).map (·.1)).sum = 0 := by
        rw [List.map_flatMap, List.sum_eq_zero_iff]
        intro n hn
        obtain ⟨u, -, hn⟩ := List.mem_flatMap.mp hn
        exact List.sum_eq_zero_iff.mp (sum_share fun _ => rfl) n hn
      rw [hadds.count?_eq, List.map_append, List.sum_append, hrest, add_zero, sum_share]
      intro hnil
      rw [hnil]
      rfl
    · rw [hadds.shape_eq]
      congr 1
      rw [decide_eq_decide, List.map_append, List.mem_append, List.map_flatMap, List.mem_flatMap]
      refine or_congr ?_ (exists_congr fun u => and_congr_right fun _ => ?_)
      · exact mem_share fun hnil => by simp [hnil, Numbered]
      · exact mem_share fun hnil => by simp [hnil, Recurring]
  · rcases (exists_usage_iff hu).mp hmention with h | ⟨u', hu', h⟩
    · simp [share, h]
    · simp only [ne_eq, List.append_eq_nil_iff, List.flatMap_eq_nil_iff, share_eq_nil_iff]
      exact fun hnil => h (hnil.2 u' hu')

variable (dashes) in
/-- A result has a number under the names of a flag if its mentions call for one, and
otherwise a truth value. -/
theorem tells_number (hkey : key ∈ names.toList)
    (hmention : ∃ u ∈ g.usages, g.reporter.mentions names false u ≠ [])
    (hdefault : ∀ x ∈ g.registry.options, x.1.names = names → x.1.default = none)
    (hdash : "--" ∉ names.toList) {n : ℕ}
    (hn : metTogether slots (g.reporter.mentions names false u) = n) :
    Tells (· = if g.CallsForNumber i u slots names then .int n else .bool (n ≠ 0))
      (g.assemble i slots dashes) names := by
  have hcounts := hn ▸ counts_usages happ hu hplain hr husages hmention
  have hdeclared := counts_declared (g := g) hkey hr.apt hdefault hcounts
  unfold assemble
  rw [hu]
  refine (hdeclared.insert_dashes hdash).imp fun v hv => ?_
  rw [Value.eq_of_shape hv.1 hv.2, ← Bool.decide_or]
  simp only [decide_eq_true_eq]
  rfl

end Assemble

end Grammar

/-! ## Untouched usages -/

/-- Two reports that show one value each show the same. -/
theorem Shows.find?_eq {R : List μ → Value → Prop} {A : OrderedMap String Reported}
    {B : OrderedMap String Value} {xs : List μ}
    (hA : Shows (fun xs r => ∃ v, r = some v ∧ R xs v) A key xs) (hB : Shows R B key xs)
    (hR : ∀ v w, R xs v → R xs w → v = w) : A.find? key = (B.find? key).map some := by
  by_cases hx : xs = []
  · subst hx
    rw [nil_iff.mp hA, nil_iff.mp hB]
    rfl
  · obtain ⟨_, hv, v, rfl, hown⟩ := (iff_of_ne hx).mp hA
    obtain ⟨w, hw, hother⟩ := (iff_of_ne hx).mp hB
    rw [hv, hw, hR v w hown hother]
    rfl

namespace Reporter

variable {r : Reporter} {p : Pattern} {k : RecordKind} {size : ℕ}

theorem blank_collect (hr : ∀ x ∈ r.scope.registry.options, key ∉ x.1.names.toList)
    (hkey : k = .texts → key.startsWith "-" = false) (hp : p.Leafwise (Bears k key)) :
    Shows (fun xs r => ∃ v, r = some v ∧ Blank k (xs.map (·.2)) v)
      (r.collect (.blank size) false p) key (p.spots key false) := by
  apply shows_spots hr hp
  · intro leaf again hx
    obtain ⟨hplaced, -, hname⟩ := Pattern.mem_spots.mp hx
    obtain rfl := hp _ (Pattern.mem_leaves_of_placed hplaced) hname
    rw [Slots.get_blank]
    cases again <;> exact ⟨_, rfl, .singleton .hits _⟩
  · intro leaf again hx
    obtain ⟨hplaced, -, hname⟩ := Pattern.mem_spots.mp hx
    obtain rfl := hp _ (Pattern.mem_leaves_of_placed hplaced) hname
    unfold argument
    rw [Slots.get_blank]
    cases again <;> exact ⟨_, rfl, .singleton .texts _⟩
  · rintro xs ys _ _ ⟨v, rfl, hv⟩ ⟨w, rfl, hw⟩
    rw [List.map_append]
    exact ⟨_, rfl, hv.merge hw hkey⟩

theorem blank_neutral_spots (hr : ∀ x ∈ r.scope.registry.options, key ∉ x.1.names.toList)
    (hp : p.Leafwise (Bears k key)) (hplain : p.Plain) :
    Shows (fun xs => Blank k (xs.map (·.2))) (r.neutral false p) key (p.spots key false) := by
  apply shows_spots_neutral hr hp hplain
  · rintro leaf again - rfl
    cases again <;> exact .singleton .hits _
  · rintro leaf again - rfl
    cases again <;> exact .singleton .texts _
  · intro xs ys v w hv hw
    rw [List.map_append]
    exact hv.mergeNeutral hw
  · intro xs ys v w hagain _ hw
    rw [List.map_append]
    exact hw.last (List.forall_mem_map.mpr hagain)

/-- In a usage of which nothing was met, the mentions of a flag are reported as a number if
there are several of them. -/
theorem numbered_blank : Numbered (.blank size) xs ↔ 1 < xs.length := by
  simp [Numbered, numbered, Slots.get_blank, Slot.isSingle, Slot.isTruthy]

theorem metTogether_blank : metTogether (.blank size) xs = 0 := by
  simp [metTogether, metNumber, Slots.get_blank, Slot.count?]

/-- Commands and arguments are reported the same whether the usage matched without meeting
any of them or was not tried. -/
theorem find?_collect_blank (hr : ∀ x ∈ r.scope.registry.options, key ∉ x.1.names.toList)
    (hkey : k = .texts → key.startsWith "-" = false) (hp : p.Leafwise (Bears k key))
    (hplain : p.Plain) : (r.collect (.blank size) false p).find? key =
      ((r.neutral false p).find? key).map some :=
  (blank_collect hr hkey hp).find?_eq (blank_neutral_spots hr hp hplain)
    fun _ _ hv hw => hv.eq.trans hw.eq.symm

/-- Flags are, too, but for one that is mentioned once and can be met again. -/
theorem find?_collect_blank_flag (happ : r.appearedOnly = false) (hkey : key ∈ names.toList)
    (hr : AptRegistry r.scope.registry (IsFlag (.blank size)) names)
    (hp : p.Leafwise (AptLeaf (IsFlag (.blank size)) names)) (hplain : p.Plain) :
    (r.collect (.blank size) false p).find? key = ((r.neutral false p).find? key).map some ↔
      ∀ x, r.mentions names false p = [x] → x.2 = false := by
  have hcollect := tallied_collect happ hkey hr hp
  have hneutral := blank_neutral happ hkey hr hp hplain
  by_cases hx : r.mentions names false p = []
  · rw [hx, Shows.nil_iff] at hcollect hneutral
    simp [hx, hcollect, hneutral]
  · obtain ⟨_, hv, v, rfl, htallied⟩ := (Shows.iff_of_ne hx).mp hcollect
    obtain ⟨w, hw, hblank⟩ := (Shows.iff_of_ne hx).mp hneutral
    have hmet : v.count? = some ((0 : ℕ) : ℤ) := by
      rw [htallied.count?_eq, metTogether_blank]
    have hshape := htallied.shape_eq
    simp only [numbered_blank] at hshape
    rw [hv, hw, hblank.eq, Value.eq_of_shape hmet hshape]
    match r.mentions names false p, hx with
    | [x], _ =>
      obtain ⟨o, again⟩ := x
      cases again <;> simp [RecordKind.blank, recurring_singleton]
    | x :: y :: ys, _ => simp [RecordKind.blank, Recurring]

end Reporter

namespace Grammar

variable {g : Grammar} {config : Config} {doc : String} {raw : List String} {argv : Argv}
  {m : Mapping} {i : Nat} {o : OptionAtom} {u : Pattern} {t : Attempt} {name : String}
  {slots : Slots} {names : Names}

/-- The flag is mentioned once in the usage that matched, in a repeating group that was not
entered, and neither another usage nor a declaration calls for a number. -/
def Unentered (g : Grammar) (i : Nat) (u : Pattern) (slots : Slots) (names : Names) : Prop :=
  (∃ x, g.reporter.mentions names false u = [x] ∧ x.2 = true ∧
      (slots.get x.1.slot).isSingle = true ∧ (slots.get x.1.slot).isTruthy = false) ∧
    (∀ u ∈ g.usages.eraseIdx i, ¬ Recurring ((g.reporter.mentions names false u).map (·.2))) ∧
    ∀ x ∈ g.registry.options, x.1.names = names → x.2 = false

theorem unentered_iff (hu : g.usages[i]? = some u)
    (hagain : ∃ u ∈ g.usages, ∃ x ∈ g.reporter.mentions names false u, x.2 = true) :
    g.Unentered i u slots names ↔ ¬ g.CallsForNumber i u slots names := by
  unfold CallsForNumber
  rw [not_or, not_or]
  constructor
  · rintro ⟨⟨x, hx, hown, hsingle, hmet⟩, hothers, hdeclared⟩
    refine ⟨⟨?_, ?_⟩, ?_⟩
    · rw [hx, numbered_singleton]
      simp [numbered, hsingle, hmet]
    · rintro ⟨u, hu, h⟩
      exact hothers u hu h
    · rintro ⟨x, hx, hn, h⟩
      rw [hdeclared x hx hn] at h
      cases h
  · rintro ⟨⟨hown, hothers⟩, hdeclared⟩
    have hothers (u : Pattern) (hu : u ∈ g.usages.eraseIdx i) :
        ¬ Recurring ((g.reporter.mentions names false u).map (·.2)) := fun h => hothers ⟨u, hu, h⟩
    refine ⟨?_, hothers, fun x hx hn => ?_⟩
    · rcases (exists_usage_iff hu).mp hagain with ⟨x, hx, hmany⟩ | ⟨u', hu', x, hx, hmany⟩
      · rw [Numbered, not_or, not_lt] at hown
        obtain ⟨hlength, hnone⟩ := hown
        obtain ⟨y, hy⟩ := List.length_eq_one_iff.mp (hlength.antisymm (List.length_pos_of_mem hx))
        rw [hy, List.mem_singleton] at hx
        subst hx
        have hidle : numbered slots x = false := by
          rw [← Bool.not_eq_true]
          exact fun h => hnone ⟨x, hy ▸ List.mem_singleton_self x, h⟩
        refine ⟨x, hy, hmany, ?_⟩
        simpa [numbered, hmany] using hidle
      · exact absurd (.inl (hmany ▸ List.mem_map_of_mem hx)) (hothers u' hu')
    · rw [← Bool.not_eq_true]
      exact fun h => hdeclared ⟨x, hx, hn, h⟩

/-- What is no name of an option names commands only, or arguments only. -/
theorem exists_bears (hclass : ∀ u ∈ g.usages, u.Leafwise Help.Classed)
    (hoption : ∀ o ∈ g.options, key ∉ o.names.toList) :
    ∃ k : RecordKind, (k = .texts → key.startsWith "-" = false) ∧
      ∀ u ∈ g.usages, u.Leafwise (Reporter.Bears k key) := by
  by_cases hk : Help.classOf key.toList = .argument
  · exact ⟨.texts, fun _ => Help.not_startsWith_of_classOf hk,
      bears_of_classed (k := .texts) hclass hoption hk⟩
  · refine ⟨.hits, nofun, fun u hu q hq => ?_⟩
    cases q with
    | option o => exact hoption o (mem_options_of_usage hu hq)
    | command leaf => exact fun _ => rfl
    | argument leaf => exact fun hname => absurd (hclass u hu _ hq key hname) hk
    | group | either | shortcut => trivial

theorem metNumber_of_idle (hs : (slots.get o.slot).isSingle = true)
    (ht : (slots.get o.slot).isTruthy = false) : metNumber slots o = 0 := by
  unfold metNumber
  cases h : slots.get o.slot with
  | flag b => cases b <;> simp_all [Slot.isTruthy, Slot.count?]
  | unset | count | text | list => simp_all [Slot.isSingle, Slot.count?]

/-- Under the names of a flag that can be met again, a result has the number of times that
the flag was met, unless the usage that matched mentions it once, in a repeating group that
was never entered: then it has a truth value. That is also the one flag whose report tells a
usage of which nothing was met from one that was not tried. -/
theorem matchArgs_counts_recurrent (hg : compile config doc = .ok g)
    (happ : g.config.appearedOnly = false) (hv : g.PlainValues) (ho : o ∈ g.options)
    (hname : name ∈ o.names.toList) (hvalue : o.value = none)
    (hdefault : ∀ p ∈ g.options, p.names = o.names → p.default = none)
    (hdash : "--" ∉ o.names.toList)
    (hcommand : ∀ u ∈ g.usages, ∀ leaf, .command leaf ∈ u.leaves →
      ∀ name ∈ leaf.names.toList, name ∉ o.names.toList)
    (hagain : ∃ u ∈ g.usages, ∃ x ∈ g.reporter.mentions o.names false u, x.2 = true)
    (ht : g.tokenize raw = .ok argv) (hm : g.matchArgs raw = .ok m) :
    (∃ i u t, ∃ n : ℕ, g.usages[i]? = some u ∧
      g.matchAlternative i ⟨.blank g.slotCount, argv⟩ = .ok true t ∧
      n + g.registry.hits o.names t.slots =
        occurrences argv.style g.table.takes o.names argv.tokens +
          (g.reporter.shortcutsFor o.names u).length * g.registry.hits o.names t.slots ∧
      (n = occurrences argv.style g.table.takes o.names argv.tokens ↔
        (g.reporter.shortcutsFor o.names u).length ≤ 1 ∨ g.registry.hits o.names t.slots = 0) ∧
      (¬ g.Unentered i u t.slots o.names → Tells (· = .int n) m o.names) ∧
      (g.Unentered i u t.slots o.names → n = 0 ∧ Tells (· = .bool false) m o.names)) ∧
    ∀ u ∈ g.usages,
      (∀ key, (∀ p ∈ g.options, key ∉ p.names.toList) →
        (g.reporter.collect (.blank g.slotCount) false u).find? key =
          ((g.reporter.neutral false u).find? key).map some) ∧
      ∀ key ∈ o.names.toList, (g.reporter.collect (.blank g.slotCount) false u).find? key =
          ((g.reporter.neutral false u).find? key).map some ↔
        ∀ x, g.reporter.mentions o.names false u = [x] → x.2 = false := by
  have hc := coherent_of_compile hg
  have hd := distinct_of_compile hg
  have hplain := plain_of_compile hg
  have hflag {slots : Slots} (hty : Typed g.Owns slots) (p : OptionAtom) (hp : p ∈ g.options)
      (hn : p.names = o.names) : IsFlag slots p :=
    isFlag_of_typed hc hv ho hvalue hty hp hname hn
  constructor
  · obtain ⟨argv', i, t, ht', ha, hex, rfl⟩ := exists_of_matchArgs hm
    obtain rfl := Except.ok.inj (ht'.symm.trans ht)
    obtain ⟨source, registry, usages, hb, -⟩ := build_of_compile hg
    have htable : g.table = .ofList g.options := (eq_of_build hb).2.2.2.2.2
    rcases run_of_matchAlternative ha with ⟨-, hb, -⟩ | ⟨u, k, log, hu, run⟩
    · cases hb
    have hmem := List.mem_of_getElem? hu
    have hflags := hflag <| (Typed.closed (apart_of_distinct hd)).run
      (fun q hq => owns_of_reaches hmem hq) run (Typed.blank _)
    obtain ⟨hnumber, hiff, -⟩ := number_of_run hc hv.wordyValues hd
      (fun p hp name => hv.reckons hc htable hp) ho hname hdash ht hmem run hex
    have hmention : ∃ u ∈ g.usages, g.reporter.mentions o.names false u ≠ [] := by
      obtain ⟨u, hu, x, hx, -⟩ := hagain
      exact ⟨u, hu, List.ne_nil_of_mem hx⟩
    have htells := tells_number t.argv.checkDash.dashes happ hu hplain
      (hc.aptRegistry ho hflags) (hc.aptLeaf ho hflags hcommand) hname hmention
      (fun x hx hn => hdefault _ (mem_options_of_registry hx) hn) hdash rfl
    refine ⟨i, u, t, _, hu, ha, hnumber, hiff, fun h => ?_, fun h => ?_⟩
    · have hcalls := not_not.mp (mt (unentered_iff hu hagain).mpr h)
      simpa only [if_pos hcalls] using htells
    · have hcalls := (unentered_iff hu hagain).mp h
      obtain ⟨⟨x, hx, -, hsingle, hmet⟩, -⟩ := h
      have hzero : metTogether t.slots (g.reporter.mentions o.names false u) = 0 := by
        rw [hx]
        simp [metTogether, metNumber_of_idle hsingle hmet]
      refine ⟨hzero, ?_⟩
      simpa only [if_neg hcalls, hzero, ne_eq, not_true_eq_false, decide_false] using htells
  · intro u hu
    constructor
    · intro key hoption
      obtain ⟨k, hk, hbears⟩ := exists_bears (classed_of_compile hg) hoption
      exact Reporter.find?_collect_blank (fun _ hx => hoption _ (mem_options_of_registry hx)) hk
        (hbears u hu) (hplain u hu)
    · intro key hkey
      have hblank := hflag (Typed.blank g.slotCount)
      exact Reporter.find?_collect_blank_flag happ hkey (hc.aptRegistry ho hblank)
        (hc.aptLeaf ho hblank hcommand u hu) (hplain u hu)

/-- In `[-v]... <x>`, the group looks for a `-v` in vain, and so it has counted none. -/
theorem vain_search_counts_none : ∃ g m,
    compile {} "Usage: prog [-v]... <x>" = .ok g ∧ g.matchArgs ["1"] = .ok m ∧
      m.find? "-v" = some (.int 0) := by
  obtain ⟨g, hg, happ, hoptions, husages, hshort, ⟨m, hm, -⟩, argv, ht, hocc, t, ha, hcount⟩ : ∃ g,
      compile {} "Usage: prog [-v]... <x>" = .ok g ∧ g.config.appearedOnly = false ∧
        g.options = [⟨.singleton "-v", none, none, 0⟩] ∧
        g.usages = [.required [.group .optional [.option ⟨.singleton "-v", none, none, 0⟩] true,
          .argument ⟨.singleton "<x>", 1⟩]] ∧
        (∀ u ∈ g.usages, g.reporter.shortcutsFor (.singleton "-v") u = []) ∧
        (∃ m, g.matchArgs ["1"] = .ok m ∧ True) ∧
        ∃ argv, g.tokenize ["1"] = .ok argv ∧
          occurrences argv.style g.table.takes (.singleton "-v") argv.tokens = 0 ∧
          ∃ t, g.matchAlternative 0 ⟨.blank g.slotCount, argv⟩ = .ok true t ∧
            (t.slots.get 0).isSingle = false := by decide +kernel
  have hplain : g.PlainValues := by
    constructor <;> simp [hoptions]
  have hcommand : ∀ u ∈ g.usages, ∀ leaf, .command leaf ∉ u.leaves := by
    rw [husages, List.forall_mem_singleton]
    intro leaf hleaf
    change Pattern.command leaf ∈ [Pattern.option _, Pattern.argument _] at hleaf
    simp at hleaf
  obtain ⟨⟨i, u, t', n, hu, ha', -, hn, hint, -⟩, -⟩ := matchArgs_counts_recurrent
    (o := ⟨.singleton "-v", none, none, 0⟩) hg happ hplain (by simp [hoptions])
    (List.mem_singleton_self "-v") rfl (by simp [hoptions]) (by decide)
    (fun u hu leaf hleaf => absurd hleaf (hcommand u hu leaf))
    ⟨_, husages ▸ List.mem_cons_self, _, List.mem_cons_self, rfl⟩ ht hm
  obtain rfl : i = 0 := by
    simpa [husages] using (List.getElem?_eq_some_iff.mp hu).1
  obtain ⟨-, rfl⟩ := EStateM.Result.ok.inj (ha.symm.trans ha')
  obtain rfl : n = 0 := (hn.mpr (.inl (by simp [hshort u (List.mem_of_getElem? hu)]))).trans hocc
  have hentered : ¬ g.Unentered 0 u t.slots (.singleton "-v") := by
    rintro ⟨⟨x, hx, -, hsingle, -⟩, -⟩
    rw [husages] at hu
    obtain rfl := Option.some.inj hu
    obtain rfl := (List.cons.inj hx).1
    rw [hcount] at hsingle
    cases hsingle
  obtain ⟨v, hv, rfl⟩ := hint hentered "-v" (by decide)
  exact ⟨g, m, hg, hm, hv⟩

/-- Without any arguments, the group of `[-v]...` is never entered, and `-v` is reported as
a truth value. -/
theorem unentered_group_reports_truth : ∃ g argv m o,
    compile {} "Usage: prog [-v]..." = .ok g ∧ g.config.appearedOnly = false ∧ g.options = [o] ∧
      o.value = none ∧ o.default = none ∧ o.names = .singleton "-v" ∧
      g.usages = [.group .optional [.option o] true] ∧ g.tokenize [] = .ok argv ∧
      occurrences argv.style g.table.takes o.names argv.tokens = 0 ∧
      g.matchArgs [] = .ok m ∧ m.find? "-v" = some (.bool false) ∧
      ∃ u ∈ g.usages, (g.reporter.collect (.blank g.slotCount) false u).find? "-v" ≠
        ((g.reporter.neutral false u).find? "-v").map some := by
  obtain ⟨g, hg, happ, hoptions, husages, hcollect, ⟨argv, ht, hocc⟩, m, hm, hfind⟩ : ∃ g,
      compile {} "Usage: prog [-v]..." = .ok g ∧ g.config.appearedOnly = false ∧
        g.options = [⟨.singleton "-v", none, none, 0⟩] ∧
        g.usages = [.group .optional [.option ⟨.singleton "-v", none, none, 0⟩] true] ∧
        (∃ u ∈ g.usages, (g.reporter.collect (.blank g.slotCount) false u).find? "-v" ≠
          ((g.reporter.neutral false u).find? "-v").map some) ∧
        (∃ argv, g.tokenize [] = .ok argv ∧
          occurrences argv.style g.table.takes (.singleton "-v") argv.tokens = 0) ∧
        ∃ m, g.matchArgs [] = .ok m ∧ m.find? "-v" = some (.bool false) := by decide +kernel
  exact ⟨g, argv, m, _, hg, happ, hoptions, rfl, rfl, rfl, husages, ht, hocc, hm, hfind, hcollect⟩

end Grammar

end Synopsis
