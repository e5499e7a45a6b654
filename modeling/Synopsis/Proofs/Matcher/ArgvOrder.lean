import Synopsis.Proofs.Matcher.Deliveries

/-! # Values in the order of the arguments

An option takes the first flag that begins with one of its names. If no stack hides the option
behind another one, then all its flags are there from the start, and are taken from left to
right, each with the values behind it.
-/

namespace Synopsis

open Pattern (Reaches slots)

variable {scope : Scope} {o : OptionAtom} {w p : Pattern} {again b : Bool} {style : OptionStyle}
  {names other : Names} {x y : Token} {attached : Option String} {name : String} {i k m n : ℕ}
  {js ks : List ℕ} {xs ys l : Tagged} {a c : Argv} {s t : Attempt} {log : List Move}
  {left : List Token}

/-! ## Stacks -/

/-- No option of some names stands behind another one in a stack. -/
def Token.Exposed (style : OptionStyle) (names : Names) (x : Token) : Prop :=
  x.kind = .flag → style.readsWhole x.text = false →
    style.attached = true ∧ x.BeginsWith style names ∨
      ∀ c ∈ x.text.toList.drop 2, c ≠ '-' ∧ names.contains (String.ofList ['-', c]) = false

-- The characters are those of the list: there are too many for a search among all of them.
instance : Decidable (x.Exposed style names) :=
  have (p : Char → Prop) [DecidablePred p] : Decidable (∀ c ∈ x.text.toList.drop 2, p c) :=
    List.decidableBAll p _
  inferInstanceAs (Decidable (_ → _ → _ ∨ _))

theorem Argv.eq_of_spelledBy? {name' : String} {attached' : Option String} {text : String}
    (h : spelledBy? style names text = some (name, attached))
    (h' : spelledBy? style other text = some (name', attached')) : name = name' := by
  simp only [spelledBy?, Option.ite_none_right_eq_some] at h h'
  exact (Prod.mk.inj (Option.some.inj h.2)).1.symm.trans (Prod.mk.inj (Option.some.inj h'.2)).1

/-- What stays of a stack shows no option that was not there before. -/
theorem OptionOf.Stays.exposed (h : OptionOf.Stays style x attached left) (hd : Dashed x.text)
    (hx : Argv.spelledBy? style other x.text = some (name, attached)) (hk : x.kind = .flag)
    (he : x.Exposed style names) (ha : style.attached = true → ¬ x.BeginsWith style names) :
    ∀ y ∈ left, y.Exposed style names ∧ ¬ y.BeginsWith style names := by
  cases h with
  | none => exact nofun
  | @stack rest hw =>
    obtain ⟨c, cs, htext, hne, -, rfl⟩ := (Argv.spelled_of_spelledBy? hd hx).stack_of_some hw
    obtain ⟨e, es, rfl⟩ := List.exists_cons_of_ne_nil hne
    have hfree : ∀ d ∈ e :: es, d ≠ '-' ∧ names.contains (String.ofList ['-', d]) = false := by
      have hdrop := (he hk hw).resolve_left fun h => ha h.1 h.2
      rwa [htext] at hdrop
    obtain ⟨⟨hdash, hfirst⟩, hrest⟩ := List.forall_mem_cons.mp hfree
    rw [OptionOf.restOfStack_ofList]
    intro y hy
    obtain rfl := List.mem_singleton.mp hy
    have hread : style.readsWhole (String.ofList ('-' :: e :: es)) = false := by
      apply Argv.readsWhole_eq_false String.toList_ofList ?_ hdash
      rw [OptionStyle.readsWhole, Bool.or_eq_false_iff, Bool.not_eq_false'] at hw
      exact hw.2
    constructor
    · refine fun _ _ => .inr ?_
      rw [String.toList_ofList]
      exact hrest
    · rintro ⟨-, hspelled⟩
      rw [Argv.spelledBy?_of_short String.toList_ofList hread, hfirst] at hspelled
      cases hspelled

/-- All flags of an option are in sight, and none stands before a place. -/
def Guarded (style : OptionStyle) (names : Names) (k : ℕ) (l : Tagged) : Prop :=
  ∀ e ∈ l, e.1.Exposed style names ∧ (e.1.BeginsWith style names → k ≤ e.2)

namespace Guarded

theorem subset (h : Guarded style names k l) (hs : xs ⊆ l) : Guarded style names k xs :=
  fun e he => h e (hs he)

theorem append (hx : Guarded style names k xs) (hy : Guarded style names k ys) :
    Guarded style names k (xs ++ ys) := List.forall_mem_append.mpr ⟨hx, hy⟩

theorem of_not_beginsWith (h : ∀ y ∈ left, y.Exposed style names ∧ ¬ y.BeginsWith style names) :
    Guarded style names k (left.map (·, m)) := by
  intro e he
  obtain ⟨y, hy, rfl⟩ := List.mem_map.mp he
  exact ⟨(h y hy).1, fun hn => absurd hn (h y hy).2⟩

end Guarded

/-- Other options bring no flag of an option to light. -/
structure Veils (style : OptionStyle) (names : Names) (a : Argv) (log : List Move) (c : Argv) :
    Prop extends Replays a log c where
  guarded : a.style = style → Tokenized a.tokens → ∀ (k : ℕ) (l : Tagged),
    l.map (·.1) = a.tokens → Guarded style names k l → Guarded style names k (Move.replay log l)

namespace Veils

variable {d : Argv} {log' : List Move}

theorem still (ht : c.tokens = a.tokens) (hs : c.style = a.style) : Veils style names a [] c where
  toReplays := .still ht hs
  guarded _ _ _ _ _ h := h

theorem trans (h : Veils style names a log c) (h' : Veils style names c log' d) :
    Veils style names a (log ++ log') d where
  toReplays := h.toReplays.trans h'.toReplays
  guarded hstyle htok k l hl hguard := by
    rw [Move.replay_append]
    exact h'.guarded (h.style_eq.trans hstyle) (h.tokenized htok) k _ (h.replayed htok l hl)
      (h.guarded hstyle htok k l hl hguard)

theorem spends {value : Pattern → Step} {us : List Token} {S S' : Slots}
    (ho : ∀ name ∈ o.names.toList, names.contains name = false)
    (hv : ∀ v s log t, o.value = some v → value v s log true t → Veils style names s.argv log t.argv)
    (hx : Argv.spelledBy? style o.names x.text = some (name, attached)) (hk : x.kind = .flag)
    (htok : Tokenized (x :: ys.map (·.1))) (hguard : Guarded style names k (xs ++ (x, m) :: ys))
    (h : o.Spends value style (xs.map (·.1)) x attached (ys.map (·.1)) S log us S') :
    Guarded style names k (Move.replay log (xs ++ (x, m) :: ys)) := by
  have hfront : Guarded style names k xs := hguard.subset (List.subset_append_left _ _)
  have hback : Guarded style names k ys :=
    hguard.subset fun e he => List.mem_append_right _ (List.mem_cons_of_mem _ he)
  have hstays {left : List Token} (hleft : OptionOf.Stays style x attached left) :
      Guarded style names k (left.map (·, m)) := by
    refine .of_not_beginsWith (hleft.exposed (htok.flags x List.mem_cons_self hk) hx hk
      (hguard (x, m) (by simp)).1 fun _ hn => ?_)
    obtain ⟨⟨name', _⟩, hspelled⟩ := Option.isSome_iff_exists.mp hn.2
    have hmem := Argv.mem_of_spelledBy? hspelled
    rw [← Argv.eq_of_spelledBy? hx hspelled, ← OrderedSet.contains_iff,
      ho _ (Argv.mem_of_spelledBy? hx)] at hmem
    cases hmem
  cases h with
  | flag _ hleft =>
    rw [List.length_map, Move.replay_cons, hleft.spend hx]
    exact (hfront.append (hstays hleft)).append hback
  | attached =>
    rw [List.length_map, Move.replay_flag]
    exact hfront.append hback
  | @separate p left given kept u log' hov hleft _ hg run =>
    obtain ⟨kept, given, rfl, -, rfl, rfl⟩ := Tagged.exists_given hg
    have hgiven : Tokenized (given.map (·.1)) := by
      refine htok.sublist (List.Sublist.cons _ ?_)
      exact (List.sublist_append_right kept given).map _
    have hrun := (hv _ _ _ _ hov run).guarded rfl hgiven k given rfl
      (hback.subset (List.subset_append_right _ _))
    simp only [List.length_append, List.length_map]
    rw [hleft.replay hx]
    exact ((hfront.append (hstays hleft)).append
      (hback.subset (List.subset_append_left _ _))).append hrun

theorem closed (scope : Scope) (style : OptionStyle) (names : Names) :
    Closed scope (fun q => ∀ p, q = .option p → ∀ name ∈ p.names.toList, names.contains name = false)
      fun s log t => Veils style names s.argv log t.argv where
  refl _ := still rfl rfl
  trans := trans
  marks _ _ _ := still rfl rfl
  take hp hw ho hpl ht ha := by
    refine ⟨(Replays.closed scope).take trivial hw ho hpl ht ha, fun _ _ k l _ hguard => ?_⟩
    exact hguard.subset (List.eraseIdx_sublist _ _).subset
  option ho hw hf hv hrun hc := by
    have hreplays := (Replays.closed scope).option trivial hw hf
      (fun v s log t hov run => (hv v s log t hov run).toReplays) hrun hc
    refine ⟨hreplays, fun hstyle htok k l hl hguard => ?_⟩
    obtain ⟨zs, x, zs', htokens, -, hk, hspelled, hspends⟩ := OptionOf.spends_of_completes htok hf hc
    rw [htokens] at htok hl
    obtain ⟨xs, m, ys, rfl, rfl, rfl⟩ := Tagged.exists_of_map_eq hl
    rw [hstyle] at hspelled hspends
    exact spends (ho _ rfl) hv hspelled hk (htok.sublist (List.sublist_append_right _ _)) hguard hspends
  lend _ h := still (by rw [h.argv_eq]) (by rw [h.argv_eq])
  repeats _ ho hu hp _ := by
    have passes := hp.chain (C := Veils style names) (fun _ => still rfl rfl)
      (fun _ _ _ _ _ => trans) ho hu
    exact passes

end Veils

/-! ## Places -/

/-- Places that go up from one place to another. -/
structure Climbs (k : ℕ) (ks : List ℕ) (m : ℕ) : Prop where
  le : k ≤ m
  within : ∀ i ∈ ks, k ≤ i ∧ i < m
  ascending : ks.Pairwise (· < ·)

namespace Climbs

theorem refl (k : ℕ) : Climbs k [] k := ⟨le_rfl, nofun, .nil⟩

theorem trans (h : Climbs k ks m) (h' : Climbs m js n) : Climbs k (ks ++ js) n where
  le := h.le.trans h'.le
  within := List.forall_mem_append.mpr
    ⟨fun i hi => ⟨(h.within i hi).1, (h.within i hi).2.trans_le h'.le⟩,
      fun j hj => ⟨h.le.trans (h'.within j hj).1, (h'.within j hj).2⟩⟩
  ascending := List.pairwise_append.mpr ⟨h.ascending, h'.ascending,
    fun i hi j hj => (h.within i hi).2.trans_le (h'.within j hj).1⟩

/-- Behind places that go up, there is one from which on the others stand. -/
theorem exists_of_pairwise (h : (i :: ks ++ js).Pairwise (· < ·)) (hi : k ≤ i) :
    ∃ m, Climbs k ks m ∧ ∀ j ∈ js, m ≤ j := by
  obtain ⟨hks, -, hjs⟩ := List.pairwise_append.mp h
  obtain ⟨init, m, hm⟩ := (List.eq_nil_or_concat' (i :: ks)).resolve_left (List.cons_ne_nil i ks)
  have hle : ∀ j ∈ i :: ks, j ≤ m := by
    rw [hm] at hks ⊢
    have hlast := (List.pairwise_append.mp hks).2.2
    intro j hj
    rcases List.mem_append.mp hj with hj | hj
    · exact (hlast j hj m (List.mem_singleton_self m)).le
    · exact (List.mem_singleton.mp hj).le
  have hmem : m ∈ i :: ks := by simp [hm]
  obtain ⟨hfirst, hks⟩ := List.pairwise_cons.mp hks
  refine ⟨m + 1, ⟨?_, fun j hj => ⟨?_, ?_⟩, hks⟩, fun j hj => hjs m hmem j hj⟩
  · exact (hi.trans (hle i List.mem_cons_self)).trans m.le_succ
  · exact hi.trans (hfirst j hj).le
  · exact Nat.lt_succ_of_le (hle j (List.mem_cons_of_mem _ hj))

end Climbs

/-- From where on the flags of an option stand. An option that is met only once has none left. -/
structure Bound (style : OptionStyle) (again : Bool) (o : OptionAtom) (k : ℕ) (S : Slots)
    (l : Tagged) : Prop where
  guarded (ha : again = true) : Guarded style o.names k l
  once (ha : again = false) : (S.get o.slot).isTruthy = true ∨ k = 0

/-- What an option gets has places that go up. -/
structure Ascends (style : OptionStyle) (again : Bool) (o : OptionAtom) (s : Attempt)
    (log : List Move) (t : Attempt) : Prop extends Replays s.argv log t.argv where
  ascends : s.argv.style = style → Tokenized s.argv.tokens → ∀ (k : ℕ) (l : Tagged),
    l.map (·.1) = s.argv.tokens → (l.map (·.2)).Pairwise (· < ·) → Bound style again o k s.slots l →
      ∃ m, Climbs k ((o.receipts style log l).map (·.2)) m ∧
        Bound style again o m t.slots (Move.replay log l)

namespace Ascends

variable {u : Attempt} {log' : List Move}

theorem trans (h : Ascends style again o s log t) (h' : Ascends style again o t log' u) :
    Ascends style again o s (log ++ log') u where
  toReplays := h.toReplays.trans h'.toReplays
  ascends hstyle htok k l hl hsorted hk := by
    obtain ⟨m, hclimbs, hm⟩ := h.ascends hstyle htok k l hl hsorted hk
    obtain ⟨n, hclimbs', hn⟩ := h'.ascends (h.style_eq.trans hstyle) (h.tokenized htok) m _
      (h.replayed htok l hl) (hsorted.sublist (Move.sublist_replay log l)) hm
    refine ⟨n, ?_, Move.replay_append ▸ hn⟩
    rw [OptionOf.receipts_append, List.map_append]
    exact hclimbs.trans hclimbs'

/-- An option that is met again has no need of its slots. -/
theorem with_slots (h : Ascends style again o s log t) (ha : again = true) (S S' : Slots) :
    Ascends style again o ⟨S, s.argv⟩ log ⟨S', t.argv⟩ where
  toReplays := h.toReplays
  ascends hstyle htok k l hl hsorted hk := by
    have hnever : again ≠ false := by simp [ha]
    obtain ⟨m, hclimbs, hm⟩ := h.ascends hstyle htok k l hl hsorted
      ⟨hk.guarded, fun hfalse => absurd hfalse hnever⟩
    exact ⟨m, hclimbs, hm.guarded, fun hfalse => absurd hfalse hnever⟩

/-- Where nothing happens to the slots of the option, its flags stay where they are. -/
theorem of_veils (hr : Veils style o.names s.argv log t.argv)
    (h : ∀ i ∈ slots [.option o], Untouched i s log t) : Ascends style again o s log t where
  toReplays := hr.toReplays
  ascends hstyle htok k l hl _ hk := by
    have hslot : o.slot ∈ slots [.option o] := OptionOf.slots_eq o ▸ List.mem_cons_self
    refine ⟨k, ?_, fun ha => hr.guarded hstyle htok k l hl (hk.guarded ha), fun ha => ?_⟩
    · rw [OptionOf.receipts_eq_nil fun m hm hi => (h _ hi).moves m hm rfl]
      exact .refl k
    · rw [(h _ hslot).get_eq]
      exact hk.once ha

/-- What is left behind the flag that an option takes. -/
theorem of_serves {rest : Tagged} {got : List (String × ℕ)} (hk : x.kind = .flag) (hd : Dashed x.text)
    (hsorted : ((xs ++ (x, i) :: ys).map (·.2)).Pairwise (· < ·)) (hki : k ≤ i)
    (h : Serves style o.names x i ys got rest) :
    ∃ m, Climbs k (got.map (·.2)) m ∧ (Guarded style o.names k (xs ++ (x, i) :: ys) →
      (∀ e ∈ xs, ¬ e.1.BeginsWith style o.names) → Guarded style o.names m (xs ++ rest)) := by
  rw [List.map_append, List.map_cons] at hsorted
  have hbehind := (List.pairwise_append.mp hsorted).2.1
  have hfront {m : ℕ} (hguard : Guarded style o.names k (xs ++ (x, i) :: ys))
      (hxs : ∀ e ∈ xs, ¬ e.1.BeginsWith style o.names) : Guarded style o.names m xs :=
    fun e he => ⟨(hguard e (List.mem_append_left _ he)).1, fun hn => absurd hn (hxs e he)⟩
  have hback {m : ℕ} {zs : Tagged} (hguard : Guarded style o.names k (xs ++ (x, i) :: ys))
      (hzs : zs ⊆ ys) (hm : ∀ j ∈ zs.map (·.2), m ≤ j) : Guarded style o.names m zs :=
    fun e he => ⟨(hguard e (by simp [hzs he])).1, fun _ => hm _ (List.mem_map_of_mem he)⟩
  cases h with
  | @attached name text =>
    obtain ⟨hfirst, -⟩ := List.pairwise_cons.mp hbehind
    refine ⟨i + 1, ⟨Nat.le_succ_of_le hki, ?_, List.pairwise_singleton _ _⟩, fun hguard hxs => ?_⟩
    · exact List.forall_mem_singleton.mpr ⟨hki, Nat.lt_succ_self i⟩
    · exact (hfront hguard hxs).append (hback hguard (List.Subset.refl _) hfirst)
  | @separate name attached left given after hx hleft hattached hys =>
    subst hys
    rw [List.map_append, ← List.cons_append] at hbehind
    obtain ⟨m, hclimbs, hm⟩ := Climbs.exists_of_pairwise hbehind hki
    have hplaces : (Tagged.texts given).map (·.2) = given.map (·.2) := by
      simp [Tagged.texts, Function.comp_def]
    refine ⟨m, hplaces ▸ hclimbs, fun hguard hxs => ?_⟩
    have hleft' : ∀ y ∈ left, y.Exposed style o.names ∧ ¬ y.BeginsWith style o.names := by
      cases hleft with
      | none => exact List.forall_mem_nil _
      | stack hw =>
        refine OptionOf.Stays.exposed (.stack hw) hd hx hk (hguard (x, i) (by simp)).1 fun ha => ?_
        rw [hattached.resolve_left (Option.some_ne_none _)] at ha
        cases ha
    exact (hfront hguard hxs).append ((Guarded.of_not_beginsWith hleft').append
      (hback hguard (List.subset_append_right _ _) hm))

theorem option (hw : o.value = some w) (hwords : w.Worded) (hd : (slots [.option o]).Nodup)
    (run : o.Runs (Run scope n false) false s log b t) (hr : Replays s.argv log t.argv) :
    Ascends style again o s log t where
  toReplays := hr
  ascends hstyle htok k l hlist hsorted hk := by
    subst hstyle
    cases run.gets hw hwords hd htok hlist with
    | nothing hlog ht =>
      subst hlog ht
      exact ⟨k, .refl k, hk⟩
    | @values xs ys rest x i hs ht hl hxs hx hrest hserves =>
      have hmem : x ∈ s.argv.tokens := by simp [← hlist, hl]
      have hki : k ≤ i := by
        cases ha : again with
        | true => exact (hk.guarded ha (x, i) (by simp [hl])).2 hx
        | false =>
          rw [(hk.once ha).resolve_left (by simp [hs])]
          exact Nat.zero_le i
      rw [hl] at hsorted
      obtain ⟨m, hclimbs, hguard⟩ := of_serves hx.1 (htok.flags x hmem hx.1) hsorted hki hserves
      refine ⟨m, hclimbs, fun ha => ?_, fun _ => .inl ht⟩
      rw [hrest]
      exact hguard (hl ▸ hk.guarded ha) hxs

theorem carries (hw : o.value = some w) (hwords : w.Worded) (hd : (slots [.option o]).Nodup)
    (scope : Scope) (style : OptionStyle) :
    Carries scope (o.Part scope) (o.Line scope again) (Ascends style again o) where
  still hst ht hs := by
    refine of_veils (.still ht hst.style_eq) fun i _ => ⟨?_, nofun⟩
    rw [hs]
  trans h h' := h.trans h'
  part {_ n _ _ _ _} hp run := by
    rcases hp with hp | rfl
    · refine of_veils ?_ fun i hi => Elsewhere.untouched hp run hi
      exact (Veils.closed scope style o.names).run (fun q hq => (hp q hq).names_apart) run
    · cases n with
      | zero => exact run.elim
      | succ n => exact option hw hwords hd run run.replays
  lend hline h :=
    of_veils (.still (by rw [h.argv_eq]) (by rw [h.argv_eq])) fun _ hi => hline.untouched h hi
  repeats hline _ ho hu hp _ := by
    have ha : again = true := hline.again_eq rfl
    have passes := hp.chain (C := fun a log c => Ascends style again o ⟨.blank 0, a⟩ log ⟨.blank 0, c⟩)
      (fun _ => of_veils (.still rfl rfl) fun _ _ => ⟨rfl, nofun⟩)
      (fun _ _ _ _ _ h h' => h.trans h') (fun s log b t run => (ho s log b t run).with_slots ha _ _) hu
    exact passes.with_slots ha _ _

end Ascends

end Synopsis
