import Synopsis.Proofs.Matcher.Ahead
import Synopsis.Proofs.Matcher.Grants

/-! # Supplying what is asked for

Options that stand on a line, in brackets or behind shortcuts if at all, supply what a
stream asks for one by one. A scan of the line goes on until nothing more is asked for, or
stops at a request that cannot be supplied. So what it comes to can be told from the requests.
-/

namespace Synopsis

open Pattern (Reaches slots)

variable {scope : Scope} {σ : OptionStyle} {auto : Bool} {O : OptionAtom → Prop} {s t u : Attempt}
  {o : OptionAtom} {n n' : Nat} {ls : List Token} {w : Pattern} {leaf : Leaf} {table : Slots}

/-! ## Steps to the end -/

theorem Attempt.Moves.level_of_level (h : s.Moves t) (h' : t.Moves u) (hu : Level s u) : Level s t := by
  refine h.resolve_right fun hless => ?_
  have hle := h'.size_le
  rw [hu.size_eq] at hle
  exact absurd hless (Nat.not_lt.mpr hle)

/-- A step keeps a property of attempts, and where it changes nothing, there is nothing left to do. -/
def Exhausts {α : Type} (J : Attempt → Prop) (stop : Stop → Attempt → Prop) (Q : Attempt → Prop)
    (m : MatchM α) : Prop :=
  ∀ s, J s → m.Yields s (fun _ t => J t ∧ s.Moves t ∧ (Level s t → Q s)) stop

section Exhausts

variable {run : Pattern → MatchM Bool} {line : List Pattern} {J : Attempt → Prop}
  {stop : Stop → Attempt → Prop} {Q : Pattern → Attempt → Prop}
  (hQ : ∀ c s t, Level s t → Q c s → Q c t) (hempty : ∀ c s, s.argv.isEmpty = true → Q c s)
include hQ hempty

theorem exhausts_matchEntries (hrun : ∀ c ∈ line, Exhausts J stop (Q c) (run c)) :
    Exhausts J stop (fun s => ∀ c ∈ line, Q c s) (matchEntries run line) := by
  induction line with
  | nil => exact fun s hs => ⟨hs, .inl (.refl s), fun _ => List.forall_mem_nil _⟩
  | cons c line ih =>
    obtain ⟨hc, hline⟩ := List.forall_mem_cons.mp hrun
    intro s hs
    simp only [matchEntries, MatchM.yields_bind, MatchM.yields_argv]
    split
    next he => exact ⟨hs, .inl (.refl s), fun _ c _ => hempty c s he⟩
    next =>
      refine MatchM.yields_bind.mpr ((hc s hs).imp ?_)
      rintro _ t ⟨ht, hmoves, hstill⟩
      refine (ih hline t ht).imp ?_
      rintro _ u ⟨hu, hmoves', hstill'⟩
      refine ⟨hu, hmoves.trans hmoves', fun hlevel => ?_⟩
      have hst := hmoves.level_of_level hmoves' hlevel
      exact List.forall_mem_cons.mpr ⟨hstill hst, fun c hc =>
        hQ c t s hst.symm (hstill' (hst.symm.trans hlevel) c hc)⟩

variable (hJ : ∀ s place last, J s → J (s.aimed place last))
include hJ

theorem exhausts_scanPass {xs : List Scanned} {place : Nat} {last : Option Nat}
    (hrun : ∀ x ∈ xs, Exhausts J stop (Q x.pattern) (run x.pattern)) (hs : J s) :
    (scanPass run place last xs).Yields s (fun r t => J t ∧ s.Moves t ∧
      (Level s t → ∀ x ∈ xs, Q x.pattern s) ∧ r.2.map (·.pattern) = xs.map (·.pattern)) stop := by
  induction xs generalizing place last s with
  | nil => exact ⟨hs, .inl (.refl s), fun _ => List.forall_mem_nil _, rfl⟩
  | cons x xs ih =>
    obtain ⟨hx, hxs⟩ := List.forall_mem_cons.mp hrun
    simp only [scanPass, MatchM.yields_bind, MatchM.yields_argv]
    split
    next he => exact ⟨hs, .inl (.refl s), fun _ x _ => hempty x.pattern s he, rfl⟩
    next =>
      simp only [MatchM.yields_bind, MatchM.yields_setArgv]
      have haimed := Level.aimed s place last
      refine (hx (s.aimed place last) (hJ s place last hs)).imp ?_
      rintro b t ⟨ht, hmoves, hstill⟩
      have hst : s.Moves t := Attempt.Moves.trans (.inl haimed) hmoves
      -- Whether the first pattern matched or not, the others go on from there.
      have others {b : Bool} {r : Option Nat × List Scanned} {u : Attempt} (hu : J u ∧ t.Moves u ∧
          (Level t u → ∀ x ∈ xs, Q x.pattern t) ∧ r.2.map (·.pattern) = xs.map (·.pattern)) :
          J u ∧ s.Moves u ∧ (Level s u → ∀ y ∈ x :: xs, Q y.pattern s) ∧
            (⟨x.pattern, b⟩ :: r.2 : List Scanned).map (·.pattern) = (x :: xs).map (·.pattern) := by
        obtain ⟨hu, hmoves', hstill', hpatterns⟩ := hu
        refine ⟨hu, hst.trans hmoves', fun hlevel => ?_, congrArg (x.pattern :: ·) hpatterns⟩
        have hlevel' := hst.level_of_level hmoves' hlevel
        refine List.forall_mem_cons.mpr ⟨?_, fun y hy => ?_⟩
        · exact hQ _ _ s haimed.symm (hstill (haimed.symm.trans hlevel'))
        · exact hQ _ t s hlevel'.symm (hstill' (hlevel'.symm.trans hlevel) y hy)
      cases b with
      | true | false =>
        exact MatchM.yields_bind.mpr ((ih hxs ht).imp fun _ _ hu => others hu)

/-- At the end of a scan, there is nothing left to do for any pattern of the line. -/
theorem yields_scanLine_exhausted (hrun : ∀ c ∈ line, Exhausts J stop (Q c) (run c)) (hs : J s) :
    (scanLine run line).Yields s (fun _ t => J t ∧ s.Moves t ∧ ∀ c ∈ line, Q c t) stop := by
  simp only [scanLine, MatchM.yields_bind, MatchM.yields_argv]
  have hstart := Scanned.map_pattern_start line
  have hn : s.argv.size < s.argv.size + 1 := Nat.lt_succ_self _
  generalize line.map Scanned.start = xs at hstart
  generalize s.argv.size + 1 = n at hn
  generalize none = last
  induction n generalizing last xs s with
  | zero => exact absurd hn (Nat.not_lt_zero _)
  | succ n ih =>
    simp only [scanPasses, MatchM.yields_bind, MatchM.yields_argv]
    split
    next he => exact ⟨hs, .inl (.refl s), fun c _ => hempty c s he⟩
    next =>
      have hxs : ∀ x ∈ xs, Exhausts J stop (Q x.pattern) (run x.pattern) := fun x hx =>
        hrun _ (hstart ▸ List.mem_map_of_mem hx)
      refine MatchM.yields_bind.mpr ((exhausts_scanPass hQ hempty hJ hxs hs).imp ?_)
      rintro r t ⟨ht, hmoves, hstill, hpatterns⟩
      simp only [MatchM.yields_bind, MatchM.yields_argv]
      split
      next htokens =>
        have hlevel := hmoves.of_still htokens
        refine ⟨ht, hmoves, fun c hc => hQ c s t hlevel ?_⟩
        obtain ⟨x, hx, rfl⟩ := List.mem_map.mp (hstart ▸ hc)
        exact hstill hlevel x hx
      next htokens =>
        have hless : t.argv.size < s.argv.size := hmoves.resolve_left fun hl => htokens hl.tokens_eq
        have hnext : t.argv.size < n := by omega
        refine (ih ht _ (hpatterns.trans hstart) hnext _).imp ?_
        rintro _ u ⟨hu, hmoves', hq⟩
        exact ⟨hu, hmoves.trans hmoves', hq⟩

end Exhausts

/-! ## Lines of options -/

theorem SoleArgument.not_reaches_option (h : SoleArgument w leaf) : ¬ Reaches scope w (.option o) := by
  induction h with
  | argument => exact nofun
  | group _ ih =>
    intro hreach
    cases hreach with
    | child hc hreach =>
      obtain rfl := List.mem_singleton.mp hc
      exact ih hreach

theorem OptionOf.Missed.level (h : o.Missed s) (hst : Level s t) : o.Missed t := by
  unfold Missed at h ⊢
  rwa [hst.get_eq, hst.tokens_eq, Argv.findOption?_congr hst.style hst.autoDashes]

/-- Only one element stands in front of another one. -/
theorem eq_of_pair_infix {α : Type} {l : List α} {a b c : α} (h : l.Nodup) (ha : [a, c] <:+: l)
    (hb : [b, c] <:+: l) : a = b := by
  obtain ⟨xs, ys, rfl⟩ := ha
  obtain ⟨xs', ys', he⟩ := hb
  have hc : (xs ++ [a, c] ++ ys)[xs.length + 1]? = some c := by simp
  have hc' : (xs ++ [a, c] ++ ys)[xs'.length + 1]? = some c := by simp [← he]
  have hlength : xs.length + 1 = xs'.length + 1 :=
    (List.getElem?_inj (by simp) h).mp (hc.trans hc'.symm)
  have ha : (xs ++ [a, c] ++ ys)[xs.length]? = some a := by simp
  have hb : (xs ++ [a, c] ++ ys)[xs'.length]? = some b := by simp [← he]
  rw [Nat.succ.inj hlength] at ha
  exact Option.some.inj (ha.symm.trans hb)

theorem SoleArgument.atoms_eq (h : SoleArgument w leaf) : w.atoms = [.argument leaf] := by
  induction h with
  | argument => rfl
  | group _ ih => simpa [Pattern.atoms] using ih

/-- An option that some pattern of a line reaches. -/
def Offers (scope : Scope) (os : List Pattern) (o : OptionAtom) : Prop :=
  ∃ c ∈ os, Reaches scope c (.option o)

namespace Offers

variable {os line : List Pattern} {c : Pattern}
  (hvalue : ∀ o, Offers scope os o → ∀ v ∈ o.value, ∃ leaf, SoleArgument v leaf)
include hvalue

/-- An option in reach is a leaf of the pattern or of a declaration, and its names look like options. -/
theorem leaf_of_reaches (h : c.Loose scope) (hc : ∀ o, Reaches scope c (.option o) → Offers scope os o)
    (ho : Reaches scope c (.option o)) : (∀ name ∈ o.names.toList, looksLikeOption name = true) ∧
      (.option o ∈ c.leaves ∨ ∃ e ∈ scope.registry.entries, .option o ∈ e.leaves) := by
  induction h with
  | option hnames =>
    cases ho with
    | refl => exact ⟨hnames, .inl (List.mem_singleton_self _)⟩
    | value hv ho =>
      obtain ⟨leaf, hsole⟩ := hvalue _ (hc _ .refl) _ hv
      exact absurd ho hsole.not_reaches_option
  | optional _ ih =>
    cases ho with
    | child hmem ho =>
      obtain ⟨hnames, hleaf⟩ := ih _ hmem (fun o ho => hc o (.child hmem ho)) ho
      exact ⟨hnames, hleaf.imp_left fun h => Pattern.mem_leaves_group.mpr ⟨_, hmem, h⟩⟩
  | shortcut _ ih =>
    cases ho with
    | entry hmem ho =>
      obtain ⟨hnames, hleaf⟩ := ih _ hmem (fun o ho => hc o (.entry hmem ho)) ho
      exact ⟨hnames, hleaf.elim (fun h => .inr ⟨_, Pattern.mem_entries_of_visible hmem, h⟩) .inr⟩

/-- The leaves of an option are the option and the argument of its value. -/
theorem atoms_of_mem {q : Pattern} (ho : Offers scope os o) (hq : q ∈ (Pattern.option o).atoms) :
    q = .option o ∨ (∃ leaf, q = .argument leaf) ∧ (Pattern.option o).atoms = [.option o, q] := by
  rw [Pattern.atoms_option] at hq ⊢
  rcases List.mem_cons.mp hq with rfl | hq
  · exact .inl rfl
  · cases hv : o.value with
    | none =>
      rw [hv] at hq
      cases hq
    | some v =>
      obtain ⟨leaf, hsole⟩ := hvalue o ho v hv
      rw [hv, Option.elim_some, hsole.atoms_eq] at hq
      obtain rfl := List.mem_singleton.mp hq
      exact .inr ⟨⟨leaf, rfl⟩, congrArg (_ :: ·) hsole.atoms_eq⟩

/-- Where leaves have slots of their own, options with single arguments share none. -/
theorem offer (hd : Pattern.Distinct scope line) (hsub : ∀ c ∈ os, c ∈ line)
    (hloose : ∀ c ∈ os, c.Loose scope)
    (hapart : ∀ o p, Offers scope os o → Offers scope os p →
      ∀ name ∈ o.names.toList, name ∈ p.names.toList → o = p) : Offer (Offers scope os) where
  looks o ho := by
    obtain ⟨c, hc, hreach⟩ := ho
    exact (leaf_of_reaches hvalue (hloose c hc) (fun p hp => ⟨c, hc, hp⟩) hreach).1
  apart := hapart
  value := hvalue
  nodup o ho := by
    obtain ⟨c, hc, hreach⟩ := ho
    exact hd.slots_nodup_of_reaches (hsub c hc) hreach
  disjoint o p ho hp hne i hi hi' := by
    have atoms {o : OptionAtom} (ho : Offers scope os o) := ho.imp fun c ⟨hc, hreach⟩ =>
      Pattern.Distinct.atoms_infix_of_reaches (hsub c hc) hreach
    obtain ⟨-, hpart⟩ := atoms ho
    obtain ⟨-, hpart'⟩ := atoms hp
    simp only [Pattern.mem_slots, List.mem_singleton, exists_eq_left] at hi hi'
    obtain ⟨q, hq, hqi⟩ := hi
    obtain ⟨q', hq', hqi'⟩ := hi'
    obtain rfl := Pattern.eq_of_slot?_eq hd (hpart.subset hq) (hpart'.subset hq') hqi hqi'
    refine hne (Pattern.option.inj ?_)
    rcases atoms_of_mem hvalue ho hq with rfl | ⟨⟨leaf, rfl⟩, hatoms⟩
    · exact (atoms_of_mem hvalue hp hq').resolve_right fun ⟨⟨_, h⟩, _⟩ => by cases h
    · rcases atoms_of_mem hvalue hp hq' with h | ⟨-, hatoms'⟩
      · cases h
      · have hslots := hpart.filterMap Pattern.slot?
        have hslots' := hpart'.filterMap Pattern.slot?
        rw [hatoms] at hslots
        rw [hatoms'] at hslots'
        have heq : o.slot = p.slot := eq_of_pair_infix hd hslots hslots'
        exact Pattern.eq_of_slot?_eq hd (hpart.subset (Pattern.mem_atoms_self rfl))
          (hpart'.subset (Pattern.mem_atoms_self rfl)) rfl (congrArg some heq.symm)

end Offers

/-- No option in reach is left to be taken. -/
def Pattern.Missed (scope : Scope) (c : Pattern) (s : Attempt) : Prop :=
  ∀ o, Reaches scope c (.option o) → o.Missed s

theorem Pattern.Missed.level {c : Pattern} (hst : Level s t) (h : c.Missed scope s) : c.Missed scope t :=
  fun o ho => (h o ho).level hst

theorem Pattern.missed_of_isEmpty {c : Pattern} (he : s.argv.isEmpty = true) : c.Missed scope s := by
  intro o _
  refine .inr ?_
  rw [List.isEmpty_iff.mp he]
  rfl

theorem Sound.level (h : Sound σ auto O s) (hst : Level s t) : Sound σ auto O t where
  style := hst.style.trans h.style
  autoDashes := hst.autoDashes.trans h.autoDashes
  chained := hst.tokens_eq ▸ h.chained
  empty o ho hmet i hi hne := by
    rw [hst.get_eq] at hmet ⊢
    exact h.empty o ho hmet i hi hne

theorem LeadsTo.level {rs : List Request} (h : LeadsTo σ auto O table ls s rs) (hst : Level s t) :
    LeadsTo σ auto O table ls t rs where
  asks := hst.tokens_eq ▸ h.asks
  nodup := h.nodup
  free r hr := by
    rw [hst.get_eq]
    exact h.free r hr
  recorded r hr i hi := by
    rw [hst.get_eq]
    exact h.recorded r hr i hi
  kept i hi := by
    rw [hst.get_eq]
    exact h.kept i hi

/-- A sound attempt, which leads to some slots and tokens just if something holds. -/
structure Leading (σ : OptionStyle) (auto : Bool) (O : OptionAtom → Prop) (table : Slots)
    (ls : List Token) (A : Prop) (s : Attempt) : Prop where
  sound : Sound σ auto O s
  iff : (∃ rs, LeadsTo σ auto O table ls s rs) ↔ A

section Options

variable {A : Prop} {c : Pattern} {os : List Pattern} (hO : Offer O)
  (hattached : ∀ o, O o → o.value.isSome = true → σ.attached = true)

theorem Leading.level (h : Leading σ auto O table ls A s) (hst : Level s t) :
    Leading σ auto O table ls A t where
  sound := h.sound.level hst
  iff := by
    rw [← h.iff]
    exact exists_congr fun rs => ⟨fun hl => hl.level hst.symm, fun hl => hl.level hst⟩

include hO hattached

theorem yields_option (ho : O o) (hn : ((Pattern.option o).recorded? scope (n + 1)).isSome)
    (hs : Leading σ auto O table ls A s) : (o.run (matchPattern scope n false) false).Yields s
      (fun _ t => Leading σ auto O table ls A t ∧ (Level s t → o.Missed s)) fun _ _ => ¬ A := by
  have hrun := OptionOf.yields_run (s := s) hO ho hn (by rw [hs.sound.style]; exact hattached o ho)
    (hs.sound.empty o ho)
  rw [hs.sound.style, hs.sound.autoDashes] at hrun
  refine hrun.mono ?_ ?_
  · rintro _ t (⟨rfl, hmissed⟩ | ⟨front, x, rest, r, us, h⟩)
    · exact ⟨hs, fun _ => hmissed⟩
    · refine ⟨⟨h.sound hO ho hs.sound, ?_⟩, fun hst => ?_⟩
      · rw [← hs.iff]
        exact ⟨fun ⟨_, hl⟩ => h.of_leadsTo hO ho hs.sound hl, fun ⟨_, hl⟩ => h.leadsTo hO ho hl⟩
      · have hmet := h.isTruthy
        rw [hst.get_eq, h.free] at hmet
        cases hmet
  · rintro e t ⟨front, x, rest, htokens, hf, hno⟩ hA
    obtain ⟨rs, hl⟩ := hs.iff.mpr hA
    have hasks := hl.asks
    rw [htokens] at hasks
    obtain ⟨r, us, -, -, hr, hsupplies, -⟩ := hasks.supply hO ho hf hl.nodup
    exact hno r us hr hsupplies

/-- Options and shortcuts go on as long as something is asked for, or stop where that is not supplied. -/
theorem exhausts_matchPattern (h : c.Loose scope) (hc : ∀ o, Reaches scope c (.option o) → O o)
    (hn : Suffices scope n c) (hrec : (c.recorded? scope n).isSome) :
    Exhausts (Leading σ auto O table ls A) (fun _ _ => ¬ A) (c.Missed scope)
      (matchPattern scope n false c) := by
  induction h generalizing n with
  | @option o hnames =>
    cases n with
    | zero => exact hn.elim
    | succ n =>
      intro s hs
      have hgathers : Gathers ∅ (matchPattern scope (n + 1) false (.option o)) :=
        gathers_matchPattern (.option hnames) (fun _ _ _ _ => Set.notMem_empty _) hn
      refine ((yields_option hO hattached (hc o .refl) hrec hs).and (hgathers.moves s)).mono ?_
        fun _ _ h => h.1
      rintro b t ⟨⟨ht, hstill⟩, hst⟩
      refine ⟨ht, hst, fun hlevel p hp => ?_⟩
      cases hp with
      | refl => exact hstill hlevel
      | value hv hp =>
        obtain ⟨leaf, hsole⟩ := hO.value o (hc o .refl) _ hv
        exact absurd hp hsole.not_reaches_option
  | @optional line _ ih =>
    cases n with
    | zero => exact hn.elim
    | succ n =>
      have hrun : ∀ c ∈ line, Exhausts (Leading σ auto O table ls A) (fun _ _ => ¬ A)
          (c.Missed scope) (matchPattern scope n false c) := fun c hmem =>
        ih c hmem (fun o ho => hc o (.child hmem ho)) (hn c hmem)
          (Pattern.isSome_recorded?_of_mem hmem hrec)
      intro s hs
      have hscan := yields_scanLine_exhausted (Q := (·.Missed scope)) (fun _ _ _ => Pattern.Missed.level)
        (fun _ _ => Pattern.missed_of_isEmpty) (fun s place last hs => hs.level (Level.aimed s place last))
        hrun hs
      refine MatchM.yields_bind.mpr (hscan.imp ?_)
      rintro xs t ⟨ht, hst, hmissed⟩
      refine ⟨ht, hst, fun hlevel o ho => ?_⟩
      cases ho with
      | child hmem ho => exact (hmissed _ hmem o ho).level hlevel.symm
  | @shortcut sc _ ih =>
    cases n with
    | zero => exact hn.elim
    | succ n =>
      have hrun : ∀ e ∈ scope.visible sc, Exhausts (Leading σ auto O table ls A)
          (fun _ _ => ¬ A) (e.Missed scope) (matchPattern scope n false e) := fun e hmem =>
        ih e hmem (fun o ho => hc o (.entry hmem ho)) (hn e hmem)
          (Pattern.isSome_recorded?_of_mem hmem hrec)
      intro s hs
      have hentries := exhausts_matchEntries (Q := (·.Missed scope)) (fun _ _ _ => Pattern.Missed.level)
        (fun _ _ => Pattern.missed_of_isEmpty) hrun s hs
      refine MatchM.yields_bind.mpr (hentries.imp ?_)
      rintro _ t ⟨ht, hst, hmissed⟩
      refine ⟨ht, hst, fun hlevel o ho => ?_⟩
      cases ho with
      | entry hmem ho => exact hmissed hlevel _ hmem o ho

omit hO hattached in
/-- Where no option is left to be taken, nothing is asked for. -/
theorem LeadsTo.eq_nil {rs : List Request} (h : LeadsTo σ auto (Offers scope os) table ls s rs)
    (hs : Sound σ auto (Offers scope os) s) (hmissed : ∀ c ∈ os, c.Missed scope s) : rs = [] := by
  cases rs with
  | nil => rfl
  | cons r rs =>
    obtain ⟨c, hc, hreach⟩ := h.asks.offered r List.mem_cons_self
    have hspots := h.asks.spots
    rcases hmissed c hc _ hreach with hmet | hnone
    · rw [h.free r List.mem_cons_self] at hmet
      cases hmet
    · rw [← hs.style, ← hs.autoDashes] at hspots
      exact absurd hspots (Argv.not_spots_of_findOption? hnone)

end Options

/-- Attempts whose streams ask for the same come to the same, if one of them leaves nothing that is asked
for. The bounds of the recursion do not matter. -/
theorem scanLine_supplied {os : List Pattern} {xs : List Scanned} (hO : Offer (Offers scope os))
    (hattached : ∀ o, Offers scope os o → o.value.isSome = true → σ.attached = true)
    (hloose : ∀ c ∈ os, c.Loose scope)
    (hn : ∀ c ∈ os, Suffices scope n c ∧ (c.recorded? scope n).isSome)
    (hn' : ∀ c ∈ os, Suffices scope n' c ∧ (c.recorded? scope n').isSome)
    (hs : Sound σ auto (Offers scope os) s) (ht : Sound σ auto (Offers scope os) t)
    (hget : ∀ i, t.slots.get i = s.slots.get i)
    (hasks : ∀ rs ls, Asks σ auto (Offers scope os) s.argv.tokens rs ls →
      Asks σ auto (Offers scope os) t.argv.tokens rs ls)
    (hscan : scanLine (matchPattern scope n false) os s = .ok xs u)
    (hleft : Asks σ u.argv.autoDashes (Offers scope os) u.argv.tokens [] u.argv.tokens) :
    ∃ ys v, scanLine (matchPattern scope n' false) os t = .ok ys v ∧ Level u v := by
  have scans {A : Prop} {k : Nat} {s : Attempt}
      (hk : ∀ c ∈ os, Suffices scope k c ∧ (c.recorded? scope k).isSome)
      (hs : Leading σ auto (Offers scope os) u.slots u.argv.tokens A s) :=
    yields_scanLine_exhausted (Q := (·.Missed scope)) (fun _ _ _ => Pattern.Missed.level)
      (fun _ _ => Pattern.missed_of_isEmpty) (fun s place last hs => hs.level (Level.aimed s place last))
      (fun c hc =>
        exhausts_matchPattern hO hattached (hloose c hc) (fun o ho => ⟨c, hc, ho⟩) (hk c hc).1 (hk c hc).2)
      hs
  -- The first attempt has come to where it leads to.
  obtain ⟨hu, -, -⟩ := (scans hn ⟨hs, .rfl⟩).of_ok hscan
  rw [hu.sound.autoDashes] at hleft
  obtain ⟨rs, hl⟩ := hu.iff.mp
    ⟨[], hleft, .nil, List.forall_mem_nil _, List.forall_mem_nil _, fun _ _ => rfl⟩
  have hl' : LeadsTo σ auto (Offers scope os) u.slots u.argv.tokens t rs :=
    { asks := hasks _ _ hl.asks
      nodup := hl.nodup
      free := fun r hr => by rw [hget]; exact hl.free r hr
      recorded := fun r hr i hi => by rw [hget]; exact hl.recorded r hr i hi
      kept := fun i hi => by rw [hget]; exact hl.kept i hi }
  -- So does the other one, which does not stop before.
  obtain ⟨ys, v, hv, hlead, -, hmissed⟩ := ((scans hn' ⟨ht, iff_true_intro ⟨rs, hl'⟩⟩).mono
    (fun _ _ h => h) fun _ _ h => h trivial).exists_ok
  obtain ⟨rs', hend⟩ := hlead.iff.mpr trivial
  obtain rfl := hend.eq_nil hlead.sound hmissed
  refine ⟨ys, v, hv, hend.asks.eq_of_nil.symm, ?_, ?_, False.elim, False.elim, fun i _ => ?_⟩
  · exact hlead.sound.style.trans hu.sound.style.symm
  · exact hlead.sound.autoDashes.trans hu.sound.autoDashes.symm
  · exact (hend.kept i (List.forall_mem_nil _)).symm

/-! ## Usages -/

section Usages

variable {ps : List Positional} {os : List Pattern}

/-- What a pass over positionals uses up has asked for nothing. -/
theorem asks_nil_of_isExhausted (h : (advance ps s).2.argv.isExhausted = true) :
    Asks σ s.argv.autoDashes O s.argv.tokens [] s.argv.tokens := by
  by_cases hend : (advance ps s).2.AtDashes
  · obtain ⟨front, d, rest, hfront, htokens, hd⟩ := exists_front_of_atDashes hend
    have hauto : s.argv.autoDashes = true := advance_rules.2.symm.trans hend.1
    rw [htokens]
    exact .of_plain hfront (.ended (by rw [hauto, hd]; rfl))
  · obtain ⟨front, hfront, htokens, -⟩ := advance_behind (P := Set.univ) (fun _ _ => Set.mem_univ _) hend
    have hnil : (advance ps s).2.argv.tokens = [] := by
      by_contra hne
      obtain ⟨d, rest, hd⟩ := List.exists_cons_of_ne_nil hne
      rw [Argv.isExhausted, hd] at h
      cases rest with
      | nil =>
        rw [Bool.and_eq_true] at h
        exact hend ⟨h.1, d, [], hd, h.2⟩
      | cons => cases h
    rw [htokens, hnil]
    exact .of_plain hfront .nil

/-- The line of such a usage makes no loans. -/
theorem Mixed.exists_scanLine (h : Mixed scope n ps os)
    (hmatch : matchPattern scope (n + 1) false (.required (os ++ ps.map (·.pattern))) s = .ok true u) :
    ∃ xs, scanLine (matchPattern scope n false) (os ++ ps.map (·.pattern)) s = .ok xs u ∧
      xs.all (·.matched) = true := by
  have hline : matchLine (matchPattern scope n false) (os ++ ps.map (·.pattern)) s = .ok true u := hmatch
  rcases MatchM.restoring_eq_ok.mp hline with ⟨-, hline⟩ | ⟨hb, -⟩
  · obtain ⟨xs, v, hscan, hline⟩ := MatchM.bind_eq_ok.mp hline
    split at hline
    next hall =>
      obtain ⟨-, rfl⟩ := MatchM.pure_eq_ok.mp hline
      exact ⟨xs, hscan, hall⟩
    next =>
      rw [Lending.lend_of_not_repeating fun c hc => h.not_repeating (List.perm_append_comm.mem_iff.mp hc)]
        at hline
      cases hline
  · cases hb

/-- A usage of options in front of commands and arguments takes all of a stream if it takes all of
one that asks for the same, and records the same. -/
theorem Mixed.matchPattern_supplied (h : Mixed scope n ps os) (h' : Mixed scope n' ps os)
    (hO : Offer (Offers scope os))
    (hattached : ∀ o, Offers scope os o → o.value.isSome = true → σ.attached = true)
    (hrec : ∀ c ∈ os, (c.recorded? scope n).isSome) (hrec' : ∀ c ∈ os, (c.recorded? scope n').isSome)
    (hs : Sound σ auto (Offers scope os) s) (ht : Sound σ auto (Offers scope os) t)
    (hfree : ∀ i, s.slots.get i = .unset) (hfree' : ∀ i, t.slots.get i = .unset)
    (hasks : ∀ rs ls, Asks σ auto (Offers scope os) s.argv.tokens rs ls →
      Asks σ auto (Offers scope os) t.argv.tokens rs ls)
    (hmatch : matchPattern scope (n + 1) false (.required (os ++ ps.map (·.pattern))) s = .ok true u)
    (hex : u.argv.isExhausted = true) :
    ∃ v, matchPattern scope (n' + 1) false (.required (os ++ ps.map (·.pattern))) t = .ok true v ∧
      Level u v := by
  have settles {k : Nat} {s : Attempt} (h : Mixed scope k ps os) (hfree : ∀ i, s.slots.get i = .unset) :=
    settles_scanLine (s := s) (h.told.perm List.perm_append_comm) h.continues_options_first
      (fun c hc => (h.told.told c (List.perm_append_comm.mem_iff.mp hc)).ofSlots_eq hfree)
      fun p _ => by cases p <;> simp [Positional.isFilled, hfree, Slot.isTruthy, Slot.hasText]
  obtain ⟨xs, hscan, hall⟩ := h.exists_scanLine hmatch
  obtain ⟨rest, w, hsettle, hwu, rfl⟩ := (Meets.symm (settles h hfree)).ok_iff hscan
  -- The first scan of the options leaves nothing that is asked for.
  cases hoptions : scanLine (matchPattern scope n false) os s with
  | error e v =>
    rw [settle_of_error hoptions] at hsettle
    cases hsettle
  | ok ys v =>
    rw [settle_of_ok hoptions] at hsettle
    obtain ⟨rfl, rfl⟩ := EStateM.Result.ok.inj hsettle
    have hexhausted : (advance ps v).2.argv.isExhausted = true := by
      rw [Argv.isExhausted, ← hwu.tokens_eq, ← hwu.autoDashes]
      exact hex
    obtain ⟨ys', v', hoptions', hlevel⟩ := scanLine_supplied hO hattached h.loose
      (fun c hc => ⟨h.suffices_options c hc, hrec c hc⟩)
      (fun c hc => ⟨h'.suffices_options c hc, hrec' c hc⟩)
      hs ht (fun i => (hfree' i).trans (hfree i).symm) hasks hoptions (asks_nil_of_isExhausted hexhausted)
    obtain ⟨xs, t', hscan', hw', rfl⟩ := (settles h' hfree').ok_iff (settle_of_ok hoptions')
    have hut : Level u t' := (Level.symm hwu).trans ((advance_congr ps hlevel).2.trans hw')
    refine ⟨t', MatchM.restoring_eq_ok.mpr (.inl ⟨rfl, ?_⟩), hut⟩
    rw [MatchM.bind_apply_of_ok hscan', hut.map_ofSlots, hall]
    rfl

end Usages

end Synopsis
