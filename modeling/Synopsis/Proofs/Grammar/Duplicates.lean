import Mathlib.Data.List.Chain
import Mathlib.Data.List.ReduceOption
import Synopsis.Proofs.Grammar.Agreement
import Synopsis.Proofs.Grammar.Appeared
import Synopsis.Proofs.Grammar.Counting

/-! # Options that are mentioned several times

The mentions of an option of one value are merged into the list of the values that were
given, in whatever way they are grouped, and those of a flag into the number of its hits.
But there must be a value to begin the list: mentions without one may come to zero
together, and then an empty value beside them counts as none.
-/

namespace Synopsis

/-- What mentions without values are merged into, which depends on their grouping. -/
def Unfilled (n : ℕ) (v : Value) : Prop :=
  v = .null ∧ n = 1 ∨ v = .list [] ∧ 2 ≤ n ∨ v = .int 0 ∧ 3 ≤ n

/-- What mentions of an option are merged into, each of them with a value or without. -/
inductive Reads : List (Option String) → Value → Prop
  | one (text : String) : Reads [some text] (.str text)
  | list {gs : List (Option String)} (hlen : 2 ≤ gs.length) (hgiven : gs.reduceOption ≠ []) :
      Reads gs (.list gs.reduceOption)
  | nothing {n : ℕ} {v : Value} (h : Unfilled n v) : Reads (List.replicate n none) v

/-- Of two neighbours, an empty value is not next to one that is missing. -/
def Compatible (a b : Option String) : Prop :=
  (a = some "" → b ≠ none) ∧ (a = none → b ≠ some "")

instance : DecidableRel Compatible := fun _ _ => inferInstanceAs (Decidable (_ ∧ _))

/-- At least one value is given, and none that is empty stands next to one that is missing.
Two mentions may also go without values. -/
def Listable (gs : List (Option String)) : Prop :=
  gs.reduceOption ≠ [] ∧ gs.IsChain Compatible ∨ gs = [none, none]

instance : DecidablePred Listable := fun _ => inferInstanceAs (Decidable (_ ∨ _))

variable {key : String} {gs hs ks : List (Option String)} {v w u : Value}

theorem Listable.isChain (h : Listable gs) : gs.IsChain Compatible := by
  rcases h with ⟨-, hchain⟩ | rfl
  · exact hchain
  · decide

/-- An empty value alone does not stand behind mentions without values. -/
theorem ne_empty_behind {n : ℕ} (hn : 0 < n)
    (h : (List.replicate n none ++ hs).IsChain Compatible) : hs ≠ [some ""] := by
  rintro rfl
  have hlast : none ∈ (List.replicate n (none : Option String)).getLast? := by
    rw [List.getLast?_replicate, if_neg (Nat.ne_of_gt hn)]
    rfl
  exact ((List.isChain_append.mp h).2.2 none hlast (some "") rfl).2 rfl rfl

theorem ne_empty_before {n : ℕ} (hn : 0 < n)
    (h : (gs ++ List.replicate n none).IsChain Compatible) : gs ≠ [some ""] := by
  rintro rfl
  have hhead : none ∈ (List.replicate n (none : Option String)).head? := by
    rw [List.head?_replicate, if_neg (Nat.ne_of_gt hn)]
    rfl
  exact ((List.isChain_append.mp h).2.2 (some "") rfl none hhead).1 rfl rfl

/-! ## Values -/

namespace Value

theorem merge_eq_concat (hv : v.isCountLike = false) (hw : w.isCountLike = false) :
    v.merge key w = .list (v.texts ++ w.texts) := by
  have hcount : v.count? = none := by
    cases v with
    | bool | int => cases hv
    | str | list | null => rfl
  rw [merge, hv, hw, Bool.or_false, Bool.and_false, if_neg Bool.false_ne_true, addOrConcat, hcount]
  rfl

/-- Beside texts, what holds no texts counts as zero. -/
theorem merge_eq_list (hv : v.isTruthy = true ∨ v.texts = []) (hw : w.isTruthy = true ∨ w.texts = [])
    (h : v.isTruthy = true ∧ v.count? = none ∨ w.isTruthy = true ∧ w.count? = none) :
    v.merge key w = .list (v.texts ++ w.texts) := by
  have hconcat {v w : Value} (h : v.count? = none ∨ w.count? = none) :
      v.addOrConcat w = .list (v.texts ++ w.texts) := by
    rw [addOrConcat]
    rcases h with h | h
    · rw [h]
      rfl
    · rw [h]
      cases v.count? <;> rfl
  have hnull {v : Value} (hv : v.isTruthy = true) : v.isNull = false := by
    cases v <;> first | rfl | cases hv
  have htexts {v : Value} (hv : v.isTruthy = true ∨ v.texts = []) :
      (if v.isTruthy then v else .int 0).texts = v.texts := by
    split
    · rfl
    · next hfalse => exact (hv.resolve_left hfalse).symm
  rw [merge]
  split
  · have hboth : (v.isNull && w.isNull) = false := by
      rcases h with ⟨h, -⟩ | ⟨h, -⟩ <;> simp [hnull h]
    rw [hboth, if_neg Bool.false_ne_true, hconcat, htexts hv, htexts hw]
    rcases h with ⟨ht, hc⟩ | ⟨ht, hc⟩
    · exact .inl (by rwa [if_pos ht])
    · exact .inr (by rwa [if_pos ht])
  · exact hconcat (h.imp And.right And.right)

end Value

theorem Unfilled.merge {m n : ℕ} (hv : Unfilled m v) (hw : Unfilled n w) :
    Unfilled (m + n) (v.merge key w) := by
  have hzero (hlen : 3 ≤ m + n) (he : v.merge key w = .list [] ∨ v.merge key w = .int 0) :
      Unfilled (m + n) (v.merge key w) :=
    .inr (he.imp (⟨·, by omega⟩) (⟨·, hlen⟩))
  rcases hv with ⟨rfl, rfl⟩ | ⟨rfl, hm⟩ | ⟨rfl, hm⟩ <;>
    rcases hw with ⟨rfl, rfl⟩ | ⟨rfl, hn⟩ | ⟨rfl, hn⟩
  · refine .inr (.inl ⟨?_, by omega⟩)
    rw [Value.merge]
    cases key.startsWith "-" <;> rfl
  all_goals
    apply hzero (by omega)
    rw [Value.merge]
    cases key.startsWith "-"
    · first | exact .inl rfl | exact .inr rfl
    · first | exact .inl rfl | exact .inr rfl

namespace Reads

theorem texts_eq (h : Reads gs v) : v.texts = gs.reduceOption := by
  cases h with
  | one | list => rfl
  | nothing h =>
    rw [List.reduceOption_replicate_none]
    rcases h with ⟨rfl, -⟩ | ⟨rfl, -⟩ | ⟨rfl, -⟩ <;> rfl

theorem length_pos (h : Reads gs v) : 0 < gs.length := by
  cases h with
  | one => exact Nat.one_pos
  | list hlen => omega
  | nothing h =>
    rw [List.length_replicate]
    unfold Unfilled at h
    omega

section Given

variable (h : Reads gs v) (hgiven : gs.reduceOption ≠ [])
include h hgiven

/-- Where there is a value, and another mention, there is a list. -/
theorem eq_list (hlen : 2 ≤ gs.length) : v = .list gs.reduceOption := by
  cases h with
  | one => exact absurd hlen (Nat.not_succ_le_self 1)
  | list => rfl
  | nothing => exact absurd List.reduceOption_replicate_none hgiven

theorem isCountLike_eq : v.isCountLike = false := by
  cases h with
  | one | list => rfl
  | nothing => exact absurd List.reduceOption_replicate_none hgiven

/-- Only an empty text alone is as good as nothing. -/
theorem isTruthy_eq (hempty : gs ≠ [some ""]) : v.isTruthy = true ∧ v.count? = none := by
  cases h with
  | one text =>
    have htext : text ≠ "" := fun he => hempty (he ▸ rfl)
    exact ⟨by simpa [Value.isTruthy] using htext, rfl⟩
  | list => exact ⟨by simpa [Value.isTruthy] using hgiven, rfl⟩
  | nothing => exact absurd List.reduceOption_replicate_none hgiven

end Given

theorem exists_unfilled (h : Reads gs v) (hnone : gs.reduceOption = []) :
    ∃ n, gs = List.replicate n none ∧ Unfilled n v := by
  cases h with
  | one => cases hnone
  | list _ hgiven => exact absurd hnone hgiven
  | nothing h => exact ⟨_, rfl, h⟩

theorem merge (key : String) (hv : Reads gs v) (hw : Reads hs w)
    (hchain : (gs ++ hs).IsChain Compatible) :
    Reads (gs ++ hs) (v.merge key w) := by
  have hlen : 2 ≤ (gs ++ hs).length := by
    have := hv.length_pos
    have := hw.length_pos
    rw [List.length_append]
    omega
  have hlist (hgiven : gs.reduceOption ≠ [] ∨ hs.reduceOption ≠ [])
      (he : v.merge key w = .list (v.texts ++ w.texts)) : Reads (gs ++ hs) (v.merge key w) := by
    rw [he, hv.texts_eq, hw.texts_eq, ← List.reduceOption_append]
    refine .list hlen ?_
    rw [List.reduceOption_append]
    simpa [-not_and, not_and_or] using hgiven
  by_cases hgs : gs.reduceOption = []
  · obtain ⟨m, rfl, hm⟩ := hv.exists_unfilled hgs
    by_cases hhs : hs.reduceOption = []
    · obtain ⟨n, rfl, hn⟩ := hw.exists_unfilled hhs
      rw [List.replicate_append_replicate]
      exact .nothing (hm.merge hn)
    · have hpos := hv.length_pos
      rw [List.length_replicate] at hpos
      have hthere := hw.isTruthy_eq hhs (ne_empty_behind hpos hchain)
      have hnothing : v.texts = [] := hv.texts_eq.trans hgs
      exact hlist (.inr hhs) (Value.merge_eq_list (.inr hnothing) (.inl hthere.1) (.inr hthere))
  · by_cases hhs : hs.reduceOption = []
    · obtain ⟨n, rfl, hn⟩ := hw.exists_unfilled hhs
      have hpos := hw.length_pos
      rw [List.length_replicate] at hpos
      have hthere := hv.isTruthy_eq hgs (ne_empty_before hpos hchain)
      have hnothing : w.texts = [] := hw.texts_eq.trans hhs
      exact hlist (.inl hgs) (Value.merge_eq_list (.inl hthere.1) (.inr hnothing) (.inl hthere))
    · exact hlist (.inl hgs)
        (Value.merge_eq_concat (hv.isCountLike_eq hgs) (hw.isCountLike_eq hhs))

theorem eq_of_listable (h : Reads gs v) (hlen : 2 ≤ gs.length) (hgs : Listable gs) :
    v = .list gs.reduceOption := by
  rcases hgs with ⟨hgiven, -⟩ | rfl
  · exact h.eq_list hgiven hlen
  · obtain ⟨n, hn, ⟨-, rfl⟩ | ⟨rfl, -⟩ | ⟨-, hlen⟩⟩ := h.exists_unfilled rfl
    · cases hn
    · rfl
    · have := congrArg List.length hn
      rw [List.length_replicate] at this
      simp at this
      omega

/-- How three reports of one option are grouped makes no difference. -/
theorem merge_assoc (key : String) (hv : Reads gs v) (hw : Reads hs w) (hu : Reads ks u)
    (hgiven : (gs ++ hs ++ ks).reduceOption ≠ []) (hchain : (gs ++ hs ++ ks).IsChain Compatible) :
    (v.merge key w).merge key u = v.merge key (w.merge key u) := by
  have hlen : 2 ≤ (gs ++ hs ++ ks).length := by
    have := hv.length_pos
    have := hw.length_pos
    rw [List.length_append, List.length_append]
    omega
  have hleft := (hv.merge key hw hchain.left_of_append).merge key hu hchain
  have hright : Reads (gs ++ hs ++ ks) (v.merge key (w.merge key u)) := by
    rw [List.append_assoc] at hchain ⊢
    exact hv.merge key (hw.merge key hu hchain.right_of_append) hchain
  exact (hleft.eq_list hgiven hlen).trans (hright.eq_list hgiven hlen).symm

end Reads

/-! ## Reports -/

section Reports

variable {names : Names} {slots : Slots} {A : OptionAtom → Prop} {r : Reporter} {p : Pattern}
  {P : List Mention → Value → Prop} {o : OptionAtom} {x : Mention} {xs ys : List Mention}
  {a b : Reported}

/-- The value that a mention was given. -/
def given (slots : Slots) (x : Mention) : Option String :=
  if (slots.get x.1.slot).isTruthy then (x.1.value.elim [] (Pattern.texts slots)).head? else none

/-- Some mentions report nothing, or they report a value that is right for them. -/
def ComesTo (P : List Mention → Value → Prop) (xs : List Mention) (a : Reported) : Prop :=
  xs = [] ∧ a = none ∨ xs ≠ [] ∧ ∃ v, a = some v ∧ P xs v

theorem ComesTo.merge (hP : ∀ xs ys v w, P xs v → P ys w → P (xs ++ ys) (v.merge key w))
    (ha : ComesTo P xs a) (hb : ComesTo P ys b) : ComesTo P (xs ++ ys) (Reported.merge key a b) := by
  rcases ha with ⟨rfl, rfl⟩ | ⟨hx, v, rfl, hv⟩
  · exact hb
  · rcases hb with ⟨rfl, rfl⟩ | ⟨hy, w, rfl, hw⟩
    · rw [List.append_nil]
      exact .inr ⟨hx, v, rfl, hv⟩
    · exact .inr ⟨by simp [hx], _, rfl, hP _ _ _ _ hv hw⟩

/-- A value reads what mentions were given that are not met again. -/
def ReadsMentions (slots : Slots) (xs : List Mention) (v : Value) : Prop :=
  (∀ x ∈ xs, x.2 = false) → (xs.map (given slots)).IsChain Compatible →
    Reads (xs.map (given slots)) v

/-- A value counts how often mentions were met that are not met again, as a number if there
are several. -/
def CountsMentions (slots : Slots) (xs : List Mention) (v : Value) : Prop :=
  (∀ x ∈ xs, x.2 = false ∧ CountsHits slots x.1) →
    v.count? = some (metTogether slots xs : Int) ∧
      (2 ≤ xs.length → v = .int (metTogether slots xs))

theorem ReadsMentions.merge (hv : ReadsMentions slots xs v) (hw : ReadsMentions slots ys w) :
    ReadsMentions slots (xs ++ ys) (v.merge key w) := by
  intro honce hchain
  obtain ⟨hx, hy⟩ := List.forall_mem_append.mp honce
  rw [List.map_append] at hchain ⊢
  exact (hv hx hchain.left_of_append).merge key (hw hy hchain.right_of_append) hchain

theorem CountsMentions.merge (hv : CountsMentions slots xs v) (hw : CountsMentions slots ys w) :
    CountsMentions slots (xs ++ ys) (v.merge key w) := by
  intro h
  obtain ⟨hx, hy⟩ := List.forall_mem_append.mp h
  have hmerge := Value.merge_of_count? key (hv hx).1 (hw hy).1
  rw [metTogether_append, Int.natCast_add, hmerge]
  exact ⟨rfl, fun _ => rfl⟩

namespace Reporter

/-- An option is reported unless it is left out for not having appeared. -/
def reports (r : Reporter) (slots : Slots) (o : OptionAtom) : Bool :=
  !r.appearedOnly || (slots.get o.slot).isTruthy

/-- The mentions that are reported. -/
def reporting (r : Reporter) (slots : Slots) (xs : List Mention) : List Mention :=
  xs.filter fun x => r.reports slots x.1

theorem option_eq_none {inRepeat : Bool} (h : r.reports slots o = false) :
    r.option slots inRepeat o = none := by
  obtain ⟨happ, hset⟩ := Bool.or_eq_false_iff.mp h
  rw [Bool.not_eq_false'] at happ
  rw [option, hset, happ]
  rfl

/-- The mentions of an option that are reported are merged. -/
theorem find?_collect_mentions (hkey : key ∈ names.toList)
    (hr : AptRegistry r.scope.registry A names) (hp : p.Leafwise (AptLeaf A names))
    (hoption : ∀ x : Mention, A x.1 → r.reports slots x.1 = true →
      ∃ v, r.option slots x.2 x.1 = some v ∧ P [x] v)
    (hmerge : ∀ xs ys v w, P xs v → P ys w → P (xs ++ ys) (v.merge key w))
    (hne : r.reporting slots (r.mentions names false p) ≠ []) :
    ∃ v, (r.collect slots false p).find? key = some (some v) ∧
      P (r.reporting slots (r.mentions names false p)) v := by
  have hshows : Shows (fun xs => ComesTo P (r.reporting slots xs)) (r.collect slots false p) key
      (r.mentions names false p) := by
    apply shows_collect hkey hr _ _ false hp
    · intro x _ hx
      cases hreports : r.reports slots x.1 with
      | false =>
        rw [reporting, List.filter_cons_of_neg (by simp [hreports])]
        exact .inl ⟨rfl, option_eq_none hreports⟩
      | true =>
        rw [reporting, List.filter_cons_of_pos (by simp [hreports])]
        exact .inr ⟨List.cons_ne_nil _ _, hoption x hx hreports⟩
    · intro xs ys a b ha hb
      rw [reporting, List.filter_append]
      exact ha.merge hmerge hb
  have hmention : r.mentions names false p ≠ [] := by
    intro hnil
    rw [hnil] at hne
    exact hne rfl
  obtain ⟨a, ha, ⟨hnil, -⟩ | ⟨-, v, rfl, hv⟩⟩ := (Shows.iff_of_ne hmention).mp hshows
  · exact absurd hnil hne
  · exact ⟨v, ha, hv⟩

section Option

variable (h : r.reports slots o = true)
include h

theorem exists_option (inRepeat : Bool) : ∃ v, r.option slots inRepeat o = some v := by
  rw [reports, Bool.or_eq_true, Bool.not_eq_true'] at h
  rw [option]
  split
  · split <;> exact ⟨_, rfl⟩
  · next hset =>
    rw [h.resolve_right hset, if_neg Bool.false_ne_true]
    split <;> exact ⟨_, rfl⟩

theorem reads_option (hwidth : o.width false = .one) (inRepeat : Bool) :
    ∃ v, r.option slots inRepeat o = some v ∧ ReadsMentions slots [(o, inRepeat)] v := by
  obtain ⟨v, hv⟩ := exists_option h inRepeat
  refine ⟨v, hv, fun honce _ => ?_⟩
  obtain rfl : inRepeat = false := honce _ (List.mem_singleton_self _)
  have hvalue : r.option slots false o = some ((given slots (o, false)).elim .null .str) := by
    rw [option, given, hwidth]
    by_cases hset : (slots.get o.slot).isTruthy = true
    · rw [if_pos hset, if_pos hset]
    · rw [reports, Bool.or_eq_true, Bool.not_eq_true'] at h
      rw [if_neg hset, if_neg hset, h.resolve_right hset]
      rfl
  obtain rfl := Option.some.inj (hv.symm.trans hvalue)
  rw [List.map_singleton]
  cases given slots (o, false) with
  | none => exact .nothing (n := 1) (.inl ⟨rfl, rfl⟩)
  | some text => exact .one text

theorem counts_option (hwidth : o.width false = .flag) (inRepeat : Bool) :
    ∃ v, r.option slots inRepeat o = some v ∧ CountsMentions slots [(o, inRepeat)] v := by
  obtain ⟨v, hv⟩ := exists_option h inRepeat
  refine ⟨v, hv, fun hx => ⟨?_, fun hlen => absurd hlen (Nat.not_succ_le_self 1)⟩⟩
  obtain ⟨rfl, hslot⟩ := hx _ (List.mem_singleton_self _)
  have htogether : metTogether slots [(o, false)] = (slots.get o.slot).count?.getD 0 := by
    simp [metTogether, metNumber]
  rw [htogether]
  rw [reports, Bool.or_eq_true, Bool.not_eq_true'] at h
  rw [option, hwidth] at hv
  unfold CountsHits at hslot
  dsimp only at hv hslot
  cases hs : slots.get o.slot with
  | unset =>
    rw [hs] at h hv
    rw [h.resolve_right Bool.false_ne_true] at hv
    obtain rfl := Option.some.inj hv
    rfl
  | flag b =>
    rw [hs] at h hv
    cases b with
    | true =>
      obtain rfl := Option.some.inj hv
      rfl
    | false =>
      rw [h.resolve_right Bool.false_ne_true] at hv
      obtain rfl := Option.some.inj hv
      rfl
  | count n =>
    rw [hs] at h hv
    by_cases hn : (Slot.count n).isTruthy = true
    · rw [if_pos hn] at hv
      obtain rfl := Option.some.inj hv
      rfl
    · rw [if_neg hn, h.resolve_right hn] at hv
      obtain rfl := Option.some.inj hv
      rfl
  | text | list =>
    rw [hs] at hslot
    cases hslot

end Option

section Mentions

variable (hkey : key ∈ names.toList) (honce : ∀ x ∈ r.mentions names false p, x.2 = false)
  (hxs : xs = r.reporting slots (r.mentions names false p)) (hseveral : 2 ≤ xs.length)
include hkey honce hxs hseveral

theorem find?_collect_listed (hr : AptRegistry r.scope.registry (·.width false = .one) names)
    (hp : p.Leafwise (AptLeaf (·.width false = .one) names)) (hgiven : Listable (xs.map (given slots))) :
    (r.collect slots false p).find? key =
      some (some (.list (xs.map (given slots)).reduceOption)) := by
  have hne : xs ≠ [] := List.ne_nil_of_length_pos (by omega)
  rw [hxs] at hne
  obtain ⟨v, hv, hreads⟩ := find?_collect_mentions hkey hr hp
    (fun x hx h => reads_option h hx x.2) (fun _ _ _ _ => .merge) hne
  rw [← hxs] at hreads
  have hx : ∀ x ∈ xs, x.2 = false := fun x hx => honce x (List.mem_filter.mp (hxs ▸ hx)).1
  rw [hv, (hreads hx hgiven.isChain).eq_of_listable (by rwa [List.length_map]) hgiven]

theorem find?_collect_counted (hr : AptRegistry r.scope.registry (·.width false = .flag) names)
    (hp : p.Leafwise (AptLeaf (·.width false = .flag) names)) (hslots : ∀ x ∈ xs, CountsHits slots x.1) :
    (r.collect slots false p).find? key = some (some (.int (metTogether slots xs))) := by
  have hne : xs ≠ [] := List.ne_nil_of_length_pos (by omega)
  rw [hxs] at hne
  obtain ⟨v, hv, hcounts⟩ := find?_collect_mentions hkey hr hp
    (fun x hx h => counts_option h hx x.2) (fun _ _ _ _ => .merge) hne
  rw [← hxs] at hcounts
  have hx : ∀ x ∈ xs, x.2 = false := fun x hx => honce x (List.mem_filter.mp (hxs ▸ hx)).1
  rw [hv, (hcounts fun x hmem => ⟨hx x hmem, hslots x hmem⟩).2 hseveral]

end Mentions

end Reporter

end Reports

/-! ## Grammars -/

namespace Grammar

variable {g : Grammar} {config : Config} {doc : String} {o p : OptionAtom} {u : Pattern}
  {slots : Slots} {xs : List Mention}

theorem Agree.width_eq (h : Agree o p) : o.width false = p.width false := by
  have harity : o.value.elim Arity.flag Pattern.arity = p.value.elim Arity.flag Pattern.arity :=
    h.valueArity_eq
  rw [OptionOf.width, OptionOf.width]
  generalize o.value = v, p.value = w at harity
  cases v with
  | none =>
    cases w with
    | none => rfl
    | some w =>
      dsimp only
      rw [show w.arity = Arity.flag from harity.symm]
      rfl
  | some v =>
    cases w with
    | none =>
      dsimp only
      rw [show v.arity = Arity.flag from harity]
      rfl
    | some w =>
      dsimp only
      rw [show v.arity = w.arity from harity]

/-- Several mentions of an option of one value, outside of repeating groups, are merged into
the list of the values that were given, from left to right, as long as the values begin a
list. Mentions of a flag add up. -/
theorem mentions_are_merged (hg : compile config doc = .ok g) (ho : o ∈ g.options)
    (hu : u ∈ g.usages) (honce : ∀ x ∈ g.reporter.mentions o.names false u, x.2 = false)
    (hcommand : ∀ leaf, .command leaf ∈ u.leaves → ∀ name ∈ leaf.names.toList, name ∉ o.names.toList)
    (hxs : xs = g.reporter.reporting slots (g.reporter.mentions o.names false u))
    (hseveral : 2 ≤ xs.length) :
    (o.width false = .one → Listable (xs.map (given slots)) → ∀ key ∈ o.names.toList,
      (g.reporter.collect slots false u).find? key =
        some (some (.list (xs.map (given slots)).reduceOption))) ∧
    (o.width false = .flag → (∀ x ∈ xs, CountsHits slots x.1) → ∀ key ∈ o.names.toList,
      (g.reporter.collect slots false u).find? key = some (some (.int (metTogether slots xs)))) ∧
    ∀ key gs hs ks v w u, Reads gs v → Reads hs w → Reads ks u →
      (gs ++ hs ++ ks).reduceOption ≠ [] → (gs ++ hs ++ ks).IsChain Compatible →
        (v.merge key w).merge key u = v.merge key (w.merge key u) := by
  have hc := coherent_of_compile hg
  have hwidth {key : String} {w : Width} (hkey : key ∈ o.names.toList) (hw : o.width false = w)
      (p : OptionAtom) (hp : p ∈ g.options) (hn : p.names = o.names) : p.width false = w :=
    (hc.agree p hp o ho key (hn ▸ hkey) hkey).width_eq.trans hw
  refine ⟨fun hone hgiven key hkey => ?_, fun hflag hslots key hkey => ?_, ?_⟩
  · have hA := hwidth hkey hone
    exact Reporter.find?_collect_listed hkey honce hxs hseveral (hc.aptRegistry ho hA)
      (hc.aptLeaf_of_usage ho hA hu hcommand) hgiven
  · have hA := hwidth hkey hflag
    exact Reporter.find?_collect_counted hkey honce hxs hseveral (hc.aptRegistry ho hA)
      (hc.aptLeaf_of_usage ho hA hu hcommand) hslots
  · exact fun key gs hs ks v w u hv hw hu => hv.merge_assoc key hw hu

/-- Of three mentions of `-o` in two groups, two are given values. -/
theorem two_of_three_are_given : ∃ g argv t u,
    compile {} "Usage: prog ([-o<x>] [-o<x>]) [-o<x>]" = .ok g ∧ g.usages = [u] ∧
      g.tokenize ["-o1", "-o2"] = .ok argv ∧
      g.matchAlternative 0 ⟨.blank g.slotCount, argv⟩ = .ok true t ∧
      (g.reporter.mentions (.singleton "-o") false u).map (given t.slots) =
        [some "1", some "2", none] ∧
      (g.reporter.collect t.slots false u).find? "-o" = some (some (.list ["1", "2"])) := by
  let o (n : ℕ) : OptionAtom :=
    ⟨.singleton "-o", some (.required [.argument ⟨.singleton "<x>", n + 1⟩]), none, n⟩
  let u : Pattern := .required [.required [.optional [.option (o 0)], .optional [.option (o 2)]],
    .optional [.option (o 4)]]
  obtain ⟨g, hg, hu, hmentions, argv, ht, t, ha, hgiven, hxs⟩ : ∃ g,
      compile {} "Usage: prog ([-o<x>] [-o<x>]) [-o<x>]" = .ok g ∧ g.usages = [u] ∧
        g.reporter.mentions (.singleton "-o") false u = [(o 0, false), (o 2, false), (o 4, false)] ∧
        ∃ argv, g.tokenize ["-o1", "-o2"] = .ok argv ∧
          ∃ t, g.matchAlternative 0 ⟨.blank g.slotCount, argv⟩ = .ok true t ∧
            [(o 0, false), (o 2, false), (o 4, false)].map (given t.slots) =
              [some "1", some "2", none] ∧
            g.reporter.reporting t.slots [(o 0, false), (o 2, false), (o 4, false)] =
              [(o 0, false), (o 2, false), (o 4, false)] := by decide +kernel
  have hmem : u ∈ g.usages := hu ▸ List.mem_singleton_self u
  have hleaves : u.leaves = [.option (o 0), .option (o 2), .option (o 4)] := rfl
  have ho : o 0 ∈ g.options := mem_options_of_usage hmem (by simp [hleaves])
  rw [← hmentions] at hxs
  obtain ⟨hlist, -⟩ := mentions_are_merged hg ho hmem (by simp [o, hmentions]) (by simp [hleaves])
    (hmentions.symm.trans hxs.symm) (by decide)
  have hentry := hlist (by decide) (hgiven ▸ by decide) "-o" (by decide)
  rw [hgiven] at hentry
  exact ⟨g, argv, t, u, hg, hu, ht, ha, hmentions ▸ hgiven, hentry⟩

/-- Three mentions of `-o` without values come to zero, and so does an empty value beside a
mention without one. Two mentions without values make a list. -/
theorem values_need_a_beginning :
    (∃ g, compile {} "Usage: prog [-o<x>] [-o<x>] [-o<x>]" = .ok g ∧
      ∃ m, g.matchArgs [] = .ok m ∧ m.find? "-o" = some (.int 0)) ∧
    (∃ g, compile {} "Usage: prog [-o<x>] [-o<x>]" = .ok g ∧
      (∃ m, g.matchArgs ["-o", ""] = .ok m ∧ m.find? "-o" = some (.int 0)) ∧
      ∃ m, g.matchArgs [] = .ok m ∧ m.find? "-o" = some (.list [])) ∧
    ((Value.merge "-o" .null .null).merge "-o" .null).merge "-o" .null ≠
      (Value.merge "-o" .null .null).merge "-o" (Value.merge "-o" .null .null) := by
  decide +kernel

end Grammar

end Synopsis
