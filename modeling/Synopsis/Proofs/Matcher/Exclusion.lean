import Synopsis.Proofs.Matcher.Origins

/-! # One branch at a time

An alternation answers by one of its branches, as if the others were not there. Only a
branch by which it has answered fills its slots.
-/

namespace Synopsis

open Pattern (Reaches Distinct slots)

/-! ## Ways to a leaf -/

/-- Nothing is declared, so that shortcuts lead nowhere. -/
def Scope.bare : Scope := ⟨{}, false⟩

namespace Pattern

/-- A way from a pattern to another that does not lead through `e`. -/
inductive Bypasses (scope : Scope) (e : Pattern) : Pattern → Pattern → Prop
  | refl {p : Pattern} (hp : p ≠ e) : Bypasses scope e p p
  | step {p c q : Pattern} (hp : p ≠ e) (hs : Steps scope p c) (h : Bypasses scope e c q) :
      Bypasses scope e p q

variable {scope : Scope} {e p c c' q r u : Pattern} {i : Nat} {branches : List Pattern}

theorem Steps.reaches (hs : Steps scope p c) (h : Reaches scope c q) : Reaches scope p q := by
  cases hs with
  | value hv => exact .value hv h
  | child hc => exact .child hc h
  | branch hc => exact .branch hc h
  | entry hc => exact .entry hc h

/-- A step does not need what is declared, or leads to it. -/
theorem Steps.bare_or (hs : Steps scope p c) : Steps .bare p c ∨ c ∈ scope.registry.entries := by
  cases hs with
  | value hv => exact .inl (.value hv)
  | child hc => exact .inl (.child hc)
  | branch hc => exact .inl (.branch hc)
  | entry hc => exact .inr (mem_entries_of_visible hc)

theorem Reaches.bare_or (h : Reaches scope p q) :
    Reaches .bare p q ∨ ∃ r ∈ scope.registry.entries, Reaches .bare r q := by
  induction h with
  | refl => exact .inl .refl
  | value hv _ ih => exact ih.imp_left (.value hv)
  | child hc _ ih => exact ih.imp_left (.child hc)
  | branch hc _ ih => exact ih.imp_left (.branch hc)
  | entry hc _ ih => exact .inr (ih.elim (fun h => ⟨_, mem_entries_of_visible hc, h⟩) id)

theorem Bypasses.reaches (h : Bypasses scope e p q) : Reaches scope p q := by
  induction h with
  | refl => exact .refl
  | step _ hs _ ih => exact hs.reaches ih

theorem Bypasses.bare_or (h : Bypasses scope e p q) :
    Bypasses .bare e p q ∨ ∃ r ∈ scope.registry.entries, Bypasses .bare e r q := by
  induction h with
  | refl hp => exact .inl (.refl hp)
  | step hp hs _ ih =>
    rcases ih with h | h
    · exact hs.bare_or.imp (.step hp · h) fun hc => ⟨_, hc, h⟩
    · exact .inr h

/-- An alternation lies on every way to a leaf of its branches. -/
theorem Bypasses.slot_ne (h : Bypasses .bare e r q) (hd : Distinct .bare [r])
    (he : Reaches .bare r e) (hi : i ∈ slots [e]) : q.slot? ≠ some i := by
  obtain ⟨_, hmem, a, ha, hai⟩ := mem_slots.mp hi
  have hea : Reaches .bare e a := reaches_of_mem_atoms (List.mem_singleton.mp hmem ▸ ha)
  induction h with
  | refl hp =>
    cases he with
    | refl => exact absurd rfl hp
    | value hv he =>
      intro hq
      obtain rfl := Option.some.inj hq
      exact hd.value_not_reaches hv (he.trans hea) hai
    | child | branch | entry => exact nofun
  | @step p c q hp hs hb ih =>
    -- The alternation and the leaf lie behind the same part of the pattern.
    have same {line : List Pattern} {c' : Pattern} (hd : Distinct .bare line) (hc : c ∈ line)
        (hc' : c' ∈ line) (he : Reaches .bare c' e) : q.slot? ≠ some i := by
      by_cases hne : c = c'
      · exact ih (hd.singleton hc) (hne ▸ he)
      · intro hq
        exact hd.not_reaches hc hc' hne (hb.reaches.mem_slots hq) (he.trans hea) hai
    cases he with
    | refl => exact absurd rfl hp
    | value hv he =>
      cases hs with
      | value hv' =>
        obtain rfl := Option.some.inj (hv.symm.trans hv')
        exact ih (Distinct.value hd hv) he
    | child hc' he =>
      cases hs with
      | child hc => exact same hd.children hc hc' he
    | branch hc' he =>
      cases hs with
      | branch hc => exact same hd.branches hc hc' he
    | entry hc => cases hc

/-- The trees in which the leaves of a match lie: what is declared, and its pattern. -/
theorem Bypasses.ne_of_root (hb : Bypasses .bare e p q) (hd : Distinct scope [u])
    (hp : p ∈ scope.registry.entries ++ [u]) (he : Reaches scope u e) (hi : i ∈ slots [e]) :
    q.slot? ≠ some i := by
  intro hq
  have hroots : Distinct .bare (scope.registry.entries ++ [u]) := hd
  obtain ⟨r, hr, hre⟩ : ∃ r ∈ scope.registry.entries ++ [u], Reaches .bare r e := by
    rcases he.bare_or with he | ⟨r, hr, he⟩
    · exact ⟨u, by simp, he⟩
    · exact ⟨r, List.mem_append_left _ hr, he⟩
  obtain ⟨_, hmem, a, ha, hai⟩ := mem_slots.mp hi
  have hra := hre.trans (reaches_of_mem_atoms (List.mem_singleton.mp hmem ▸ ha))
  by_cases hne : p = r
  · subst hne
    exact hb.slot_ne (hroots.singleton hp) hre hi hq
  · exact hroots.not_reaches hp hr hne (hb.reaches.mem_slots hq) hra hai

/-- No way around an alternation leads to a leaf of its branches. -/
theorem Bypasses.slot_ne_of_reaches (hb : Bypasses scope e u q) (hd : Distinct scope [u])
    (he : Reaches scope u e) (hi : i ∈ slots [e]) : q.slot? ≠ some i := by
  rcases hb.bare_or with hb | ⟨r, hr, hb⟩
  · exact hb.ne_of_root hd (by simp) he hi
  · exact hb.ne_of_root hd (List.mem_append_left _ hr) he hi

/-- A leaf of a branch that is reached without coming back to the alternation is reached
through that branch. -/
theorem Bypasses.branch_eq (hb : Bypasses scope (.either branches) c q) (hd : Distinct scope [u])
    (he : Reaches scope u (.either branches)) (hc : c ∈ branches) (hp : p ∈ branches)
    (hi : i ∈ slots [p]) (hq : q.slot? = some i) : c = p := by
  have hslots : i ∈ slots [.either branches] := by
    rw [slots_either]
    exact mem_slots_of_mem hp hi
  rcases hb.bare_or with hb | ⟨r, hr, hb⟩
  · by_contra hne
    have hbranches : Distinct .bare branches :=
      Distinct.branches (hd.slots_nodup_of_reaches (List.mem_singleton_self u) he)
    exact hbranches.not_reaches hp hc (Ne.symm hne) hi hb.reaches hq
  · exact absurd hq (hb.ne_of_root hd (List.mem_append_left _ hr) he hslots)

end Pattern

/-! ## Choices -/

theorem EitherRun.exists_chosen {R : Pattern → Step} {branches : List Pattern} {s t : Attempt}
    {log : List Move} (h : EitherRun R branches s log true t) :
    ∃ p ∈ branches, ∃ u log', EitherRun.Tries R branches s p u ∧ R p u log' true t ∧
      u.slots = s.slots ∧ u.argv.tokens = s.argv.tokens := by
  generalize hb : true = b at h
  induction h with
  | nil => cases hb
  | hit run => exact ⟨_, List.mem_cons_self, _, _, .here, run, rfl, rfl⟩
  | miss run _ ih =>
    obtain ⟨p, hp, u, log, htries, hrun, hslots, htokens⟩ := ih hb
    exact ⟨p, List.mem_cons_of_mem _ hp, u, log, .next run htries, hrun, hslots, htokens⟩

namespace Call

variable {scope : Scope} {branches : List Pattern} {c d : Call} {t : Attempt} {i : Nat}
  {p : Pattern}

/-- An alternation comes to the answer of one of its branches, which started with the slots
and arguments that the alternation started with. -/
structure Chooses (scope : Scope) (c d : Call) : Prop where
  makes : c.Makes scope d
  slots_eq : d.state.slots = c.state.slots
  tokens_eq : d.state.argv.tokens = c.state.argv.tokens
  answers : ∃ t, c.answer scope = .ok true t ∧ d.answer scope = .ok true t

theorem exists_chooses (hc : c.pattern = .either branches) (h : c.answer scope = .ok true t) :
    ∃ d, c.Chooses scope d ∧ d.pattern ∈ branches ∧ d.fuel < c.fuel ∧
      d.answer scope = .ok true t := by
  obtain ⟨n, counting, _, k, s⟩ := c
  obtain rfl := hc
  cases n with
  | zero => simp [answer, matchPattern] at h
  | succ n =>
    obtain ⟨_, run⟩ := eitherRun_of_matchEither (R := Synopsis.answers scope n counting)
      (fun _ _ _ _ h => ⟨[], h⟩) h
    obtain ⟨p, hp, u, _, htries, hrun, hslots, htokens⟩ := run.exists_chosen
    exact ⟨⟨n, counting, p, k, u⟩, ⟨.branch htries, hslots, htokens, t, h, hrun⟩, hp,
      Nat.lt_succ_self n, hrun⟩

/-- What a branch cannot reach stays as it was when the alternation began. -/
theorem Chooses.get_eq (h : c.Chooses scope d) (ht : c.answer scope = .ok true t)
    (hi : ∀ q, Reaches scope d.pattern q → q.slot? ≠ some i) :
    t.slots.get i = c.state.slots.get i := by
  obtain ⟨t', hc, hd⟩ := h.answers
  obtain ⟨-, rfl⟩ := EStateM.Result.ok.inj (hc.symm.trans ht)
  obtain ⟨_, run⟩ := run_of_matchPattern hd
  rw [(run.untouched hi).get_eq, h.slots_eq]

/-- Some try of an alternation comes to the answer of one branch. -/
def Settles (scope : Scope) (c : Call) (branches : List Pattern) (p : Pattern) : Prop :=
  ∃ a d, c.LeadsTo scope a ∧ a.pattern = .either branches ∧ a.Chooses scope d ∧ d.pattern = p

end Call

/-! ## Where a chain of calls passes an alternation -/

namespace Lending

open Pattern (Bypasses)

variable {scope : Scope} {branches : List Pattern} {left : Slots}

mutual

/-- Alternations do not borrow. -/
theorem bypasses_of_borrowers? : ∀ {p : Pattern} {bs : List Positional}, borrowers? left p = some bs →
    ∀ b ∈ bs, Bypasses scope (.either branches) p b.pattern
  | .group .required children false, bs, h, b, hb => by
    obtain ⟨c, hc, h⟩ := bypasses_of_borrowersAll? h b hb
    exact .step nofun (.child hc) h
  | .group .optional _ false, bs, h, b, hb | .option _, bs, h, b, hb
  | .shortcut _, bs, h, b, hb => by
    obtain rfl := Option.some.inj h
    cases hb
  | .command leaf, bs, h, b, hb | .argument leaf, bs, h, b, hb => by
    simp only [borrowers?, Option.ite_none_left_eq_some] at h
    obtain rfl := Option.some.inj h.2
    obtain rfl := List.mem_singleton.mp hb
    exact .refl nofun

theorem bypasses_of_borrowersAll? : ∀ {ps : List Pattern} {bs : List Positional},
    borrowersAll? left ps = some bs →
    ∀ b ∈ bs, ∃ p ∈ ps, Bypasses scope (.either branches) p b.pattern
  | [], bs, h, b, hb => by
    obtain rfl := Option.some.inj h
    cases hb
  | p :: ps, bs, h, b, hb => by
    simp only [borrowersAll?, Option.bind_eq_bind, Option.bind_eq_some_iff] at h
    obtain ⟨first, hf, rest, hr, h⟩ := h
    obtain rfl := Option.some.inj h
    rcases List.mem_append.mp hb with hb | hb
    · exact ⟨p, List.mem_cons_self, bypasses_of_borrowers? hf b hb⟩
    · obtain ⟨c, hc, h⟩ := bypasses_of_borrowersAll? hr b hb
      exact ⟨c, List.mem_cons_of_mem _ hc, h⟩

end

end Lending

namespace Call

open Pattern (Bypasses)

variable {scope : Scope} {branches : List Pattern} {c d : Call} {t : Attempt} {i : Nat}
  {p u : Pattern}

theorem Fills.answer_true (h : c.Fills scope i) :
    ∃ t, c.answer scope = .ok true t ∧ (t.slots.get i).isSet = true := by
  obtain ⟨hs, b, t, hanswer, ht⟩ := h
  cases b with
  | true => exact ⟨t, hanswer, ht⟩
  | false =>
    obtain ⟨_, run⟩ := run_of_matchPattern hanswer
    rw [run.undone.1.slots_eq, hs] at ht
    cases ht

/-- What fills a slot goes around an alternation, or through a branch that the alternation
chose, from where it does not come back. -/
theorem Fills.chooses_or_bypasses (branches : List Pattern) (h : c.Fills scope i) :
    (∃ a d, c.LeadsTo scope a ∧ a.pattern = .either branches ∧ a.Chooses scope d ∧
      d.pattern ∈ branches ∧ ∃ q, Bypasses scope (.either branches) d.pattern q ∧
        q.slot? = some i) ∨
      ∃ q, Bypasses scope (.either branches) c.pattern q ∧ q.slot? = some i := by
  induction hn : c.fuel using Nat.strong_induction_on generalizing c with
  | _ n ih =>
  subst hn
  have behind {d : Call} (makes : c.Makes scope d) :
      (∃ a b, d.LeadsTo scope a ∧ a.pattern = .either branches ∧ a.Chooses scope b ∧
        b.pattern ∈ branches ∧ ∃ q, Bypasses scope (.either branches) b.pattern q ∧
          q.slot? = some i) →
      ∃ a b, c.LeadsTo scope a ∧ a.pattern = .either branches ∧ a.Chooses scope b ∧
        b.pattern ∈ branches ∧ ∃ q, Bypasses scope (.either branches) b.pattern q ∧
          q.slot? = some i :=
    fun ⟨a, b, hlead, hrest⟩ => ⟨a, b, .head makes hlead, hrest⟩
  by_cases hc : c.pattern = .either branches
  · obtain ⟨t, hanswer, ht⟩ := h.answer_true
    obtain ⟨d, hchooses, hd, hlt, hdanswer⟩ := exists_chooses hc hanswer
    have hfills : d.Fills scope i := ⟨hchooses.slots_eq ▸ h.1, true, t, hdanswer, ht⟩
    rcases ih d.fuel hlt hfills rfl with hbelow | hway
    · exact .inl (behind hchooses.makes hbelow)
    · exact .inl ⟨c, d, .refl, hc, hchooses, hd, hway⟩
  · cases h.passes with
    | own hi => exact .inr ⟨_, .refl hc, hi⟩
    | made makes steps lt fills =>
      rcases ih _ lt fills rfl with hbelow | ⟨q, hway, hq⟩
      · exact .inl (behind makes hbelow)
      · exact .inr ⟨q, .step hc steps hway, hq⟩
    | @lent children repeats slots loan b hgroup hl hb hi =>
      obtain ⟨before, lenders, rest, hsplit⟩ := Lending.splits_of_loan? hl
      obtain ⟨child, hchild, hway⟩ := Lending.bypasses_of_borrowersAll? hsplit.borrowers_eq b hb
      refine .inr ⟨b.pattern, ?_, hi ▸ b.slot?_pattern⟩
      rw [hgroup] at hc ⊢
      refine .step hc (.child ?_) hway
      rw [hsplit.line_eq]
      exact List.mem_append_right _ (List.mem_cons_of_mem _ hchild)

/-- A branch of which a slot is filled was chosen, in a match of the pattern around the
alternation or in any call on a part of the pattern in which the alternation lies. -/
theorem Fills.settles (h : c.Fills scope i) (hd : Distinct scope [u])
    (he : Reaches scope u (.either branches))
    (hc : c.pattern = u ∨
      Reaches scope u c.pattern ∧ Reaches .bare c.pattern (.either branches))
    (hp : p ∈ branches) (hi : i ∈ slots [p]) : c.Settles scope branches p := by
  have hslots : i ∈ slots [.either branches] := by
    rw [Pattern.slots_either]
    exact Pattern.mem_slots_of_mem hp hi
  rcases h.chooses_or_bypasses branches with
    ⟨a, d, hlead, ha, hchooses, hmem, q, hway, hq⟩ | ⟨q, hway, hq⟩
  · exact ⟨a, d, hlead, ha, hchooses, hway.branch_eq hd he hmem hp hi hq⟩
  · refine absurd hq ?_
    rcases hc with rfl | ⟨hreach, hlies⟩
    · exact hway.slot_ne_of_reaches hd he hslots
    · rcases hway.bare_or with hway | ⟨r, hr, hway⟩
      · refine hway.slot_ne ?_ hlies hslots
        exact hd.slots_nodup_of_reaches (List.mem_singleton_self u) hreach
      · exact hway.ne_of_root hd (List.mem_append_left _ hr) he hslots

end Call

/-! ## What calls lead to -/

namespace Lending

variable {p : Positional} {s u : Attempt}

theorem Borrows.Tries.mem {ps : List Positional} (h : Borrows.Tries ps s p u) : p ∈ ps := by
  induction h with
  | here => exact List.mem_cons_self
  | next _ _ ih => exact List.mem_cons_of_mem _ ih

theorem Lends.Tries.exists_reaches (scope : Scope) {line : List Pattern}
    (h : Lends.Tries line s p u) : ∃ c ∈ line, Reaches scope c p.pattern := by
  obtain ⟨hl, -, hb⟩ := h
  obtain ⟨before, lenders, rest, hsplit⟩ := splits_of_loan? hl
  obtain ⟨c, hc, hway⟩ : ∃ c ∈ rest, Pattern.Bypasses scope (.either []) c p.pattern :=
    bypasses_of_borrowersAll? hsplit.borrowers_eq p hb.mem
  refine ⟨c, ?_, hway.reaches⟩
  rw [hsplit.line_eq]
  exact List.mem_append_right _ (List.mem_cons_of_mem _ hc)

end Lending

namespace Call

variable {scope : Scope} {c d : Call}

theorem Makes.reaches (h : c.Makes scope d) : Reaches scope c.pattern d.pattern := by
  have hR : ∀ ps : List Pattern, ∀ counting n, ∀ p ∈ ps, ∀ s log b t,
      answers scope n counting p s log b t → Thins s.argv t.argv ∧ Steady s t :=
    fun _ _ _ _ _ _ _ _ _ => (Thins.closed scope).of_answers
  cases h with
  | value hv => exact .value hv .refl
  | child _ tries => exact .child ((Thins.closed scope).scanTries (hR _ _ _) tries).1 .refl
  | borrower _ _ _ tries =>
    obtain ⟨c, hc, hway⟩ := tries.exists_reaches scope
    exact .child hc hway
  | branch tries =>
    exact .branch ((Thins.closed scope).eitherTries (hR _ _ _) tries fun _ => id).1 .refl
  | entry tries =>
    exact .entry ((Thins.closed scope).entriesTries (hR _ _ _) tries fun _ => id).1 .refl

theorem LeadsTo.reaches (h : c.LeadsTo scope d) : Reaches scope c.pattern d.pattern := by
  induction h with
  | refl => exact .refl
  | tail _ makes ih => exact ih.trans makes.reaches

end Call

end Synopsis
