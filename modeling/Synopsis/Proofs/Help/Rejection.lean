import Synopsis.Proofs.Help.Options

/-! # Help texts that contradict themselves

A name that is declared twice, and mentions of one option that disagree on its value,
keep a help text from being compiled. Once its sections and lines were read, nothing
else does.
-/

namespace Synopsis

namespace Except

variable {ε α β : Type} {e : ε} {P : ε → Prop}

/-- What holds of the errors of both steps holds of those of their sequence. -/
theorem of_bind_error {x : Except ε α} {f : α → Except ε β} (h : x >>= f = .error e)
    (hx : ∀ e, x = .error e → P e) (hf : ∀ a e, f a = .error e → P e) : P e := by
  cases x with
  | error e' =>
    obtain rfl := Except.error.inj h
    exact hx _ rfl
  | ok a => exact hf a e h

theorem of_pure_error {a : α} (h : (pure a : Except ε α) = .error e) : P e := by
  cases h

theorem of_foldlM_error {f : β → α → Except ε β} {as : List α} {b : β}
    (h : as.foldlM f b = .error e) (hf : ∀ b a e, f b a = .error e → P e) : P e := by
  induction as generalizing b e with
  | nil => exact of_pure_error h
  | cons a as ih =>
    rw [List.foldlM_cons] at h
    exact of_bind_error h (hf b a) fun _ _ => ih

theorem of_mapM_error {f : α → Except ε β} {as : List α} (h : as.mapM f = .error e)
    (hf : ∀ a e, f a = .error e → P e) : P e := by
  induction as generalizing e with
  | nil => exact of_pure_error h
  | cons a as ih =>
    rw [List.mapM_cons] at h
    refine of_bind_error h (hf a) fun _ _ h => ?_
    exact of_bind_error h (fun _ => ih) fun _ _ => of_pure_error

end Except

theorem Registry.pushGroup_cases (r : Registry) (g : OptionGroup) (hr : r.names.Nodup) :
    (∃ name, r.pushGroup g = .error (.duplicateOption name)) ∨
      ∃ r', r.pushGroup g = .ok r' ∧ r'.names = r.names ++ g.names ∧ r'.names.Nodup := by
  unfold Registry.pushGroup
  cases hdup : Registry.firstDuplicate? r.names g.names with
  | some name => exact .inl ⟨name, rfl⟩
  | none =>
    obtain ⟨hnodup, hnew⟩ := Registry.firstDuplicate?_eq_none hdup
    have hnames : Registry.names ⟨r.groups ++ [g]⟩ = r.names ++ g.names := by
      simp [Registry.names]
    refine .inr ⟨_, rfl, hnames, hnames ▸ ?_⟩
    exact List.nodup_append'.mpr ⟨hr, hnodup, fun name hr hg => hnew name hg hr⟩

namespace Help

variable {config : Config} {d : Declarations} {o : OptionAtom} {next : Option Pattern} {e : BuildError}

/-! ## Names that are declared twice -/

/-- Sections that can be read by themselves, but not together, declare a name twice. -/
theorem duplicate_of_parseSections {sections : List Section} {groups : List OptionGroup}
    (h : sections.mapM (fun s => parseOptions config s.title s.body) = .ok groups)
    (hdup : ¬ (groups.flatMap OptionGroup.names).Nodup) :
    ∃ name, parseSections config sections = .error (.duplicateOption name) := by
  unfold parseSections
  -- The names of the sections that were read before count, too.
  suffices hfrom : ∀ (r : Registry) (texts : List SectionText), r.names.Nodup →
      ¬ (r.names ++ groups.flatMap OptionGroup.names).Nodup → ∃ name,
        sections.foldlM (fun read s => do
          let group ← parseOptions config s.title s.body
          let registry ← read.1.pushGroup group
          return (registry, read.2 ++ [⟨s.title, s.raw⟩])) (r, texts) =
        Except.error (.duplicateOption name) from hfrom {} [] .nil hdup
  clear hdup
  induction sections generalizing groups with
  | nil =>
    obtain rfl := Except.ok.inj h
    intro r texts hr hdup
    exact absurd hr (by simpa using hdup)
  | cons s sections ih =>
    rw [List.mapM_cons] at h
    obtain ⟨group, hgroup, h⟩ := Except.bind_eq_ok.mp h
    obtain ⟨groups, hgroups, h⟩ := Except.bind_eq_ok.mp h
    obtain rfl := Except.ok.inj h
    intro r texts hr hdup
    rw [List.foldlM_cons]
    rcases Registry.pushGroup_cases r group hr with ⟨name, hpush⟩ | ⟨r', hpush, hnames, hnodup⟩
    · exact ⟨name, by simp [hgroup, hpush, bind, Except.bind]⟩
    · rw [List.flatMap_cons, ← List.append_assoc, ← hnames] at hdup
      obtain ⟨name, hname⟩ := ih hgroups r' (texts ++ [⟨s.title, s.raw⟩]) hnodup hdup
      exact ⟨name, by simpa [hgroup, hpush, bind, Except.bind, pure, Except.pure] using hname⟩

/-! ## Mentions that disagree -/

/-- Two arities of one option differ. -/
def Disagreement (e : BuildError) : Prop :=
  ∃ option declared found, e = .inconsistentArity option declared found

theorem disagreement_of_checkArity {written : OptionAtom} (h : checkArity o written = .error e) :
    Disagreement e := by
  unfold checkArity at h
  split at h
  · cases h
  · obtain rfl := Except.error.inj h
    exact ⟨_, _, _, rfl⟩

namespace Declarations

theorem disagreement_of_addInline (h : d.addInline o = .error e) : Disagreement e := by
  unfold addInline at h
  split at h
  · cases h
  · split at h
    · exact Except.of_bind_error h (fun _ => disagreement_of_checkArity)
        fun _ _ => Except.of_pure_error
    · cases h

theorem disagreement_of_complete (h : d.complete o next = .error e) : Disagreement e := by
  have checked {declared written : OptionAtom} {r : OptionAtom × Bool}
      (h : (checkArity declared written >>= fun _ => pure r) = .error e) : Disagreement e :=
    Except.of_bind_error h (fun _ => disagreement_of_checkArity) fun _ _ => Except.of_pure_error
  unfold complete at h
  split at h
  · dsimp only at h
    split at h
    · exact checked h
    · split at h
      · exact checked h
      · split at h
        · exact checked h
        · cases h
  · cases h

mutual

theorem disagreement_of_resolve : ∀ {p : Pattern} {e : BuildError},
    d.resolve p = .error e → Disagreement e
  | .command _, _, h | .argument _, _, h | .shortcut _, _, h => by cases h
  | .option _, _, h =>
    Except.of_bind_error h (fun _ => disagreement_of_complete) fun _ _ => Except.of_pure_error
  | .group _ _ _, _, h =>
    Except.of_bind_error h (fun _ => disagreement_of_resolveAll) fun _ _ => Except.of_pure_error
  | .either _, _, h =>
    Except.of_bind_error h (fun _ => disagreement_of_resolveEach) fun _ _ => Except.of_pure_error

theorem disagreement_of_resolveAll : ∀ {ps : List Pattern} {used : Bool} {e : BuildError},
    d.resolveAll used ps = .error e → Disagreement e
  | [], _, _, h => by cases h
  | p :: ps, used, _, h => by
    have rest {used : Bool} {q : Pattern} {e : BuildError}
        (h : (d.resolveAll used ps >>= fun qs => pure (q :: qs)) = .error e) : Disagreement e :=
      Except.of_bind_error h (fun _ => disagreement_of_resolveAll) fun _ _ => Except.of_pure_error
    unfold resolveAll at h
    split at h
    · exact disagreement_of_resolveAll h
    · split at h
      · exact Except.of_bind_error h (fun _ => disagreement_of_complete) fun _ _ => rest
      · exact Except.of_bind_error h (fun _ => disagreement_of_resolve) fun _ _ => rest

theorem disagreement_of_resolveEach : ∀ {ps : List Pattern} {e : BuildError},
    d.resolveEach ps = .error e → Disagreement e
  | [], _, h => by cases h
  | p :: ps, _, h =>
    Except.of_bind_error h (fun _ => disagreement_of_resolve) fun _ _ h =>
      Except.of_bind_error h (fun _ => disagreement_of_resolveEach) fun _ _ => Except.of_pure_error

end

end Declarations

/-- Lines that were read are only rejected for mentions that disagree. -/
theorem disagreement_of_usagesOfLines {registry : Registry} {lines : List Pattern}
    (h : usagesOfLines config registry lines = .error e) : Disagreement e := by
  refine Except.of_bind_error h (fun _ h => ?_) fun d _ h => ?_
  · exact Except.of_foldlM_error h fun _ _ _ => Declarations.disagreement_of_addInline
  · refine Except.of_bind_error h (fun _ h => ?_) fun _ _ => Except.of_pure_error
    exact Except.of_mapM_error h fun _ _ => Declarations.disagreement_of_resolve

/-! ## Mentions -/

/-- A line spells out an option, with what stands right behind it in the same group. -/
inductive Mentions (o : OptionAtom) : Option Pattern → Pattern → Prop
  | alone : Mentions o none (.option o)
  | member {kind : GroupKind} {xs ys : List Pattern} {repeats : Bool} :
      Mentions o ys.head? (.group kind (xs ++ .option o :: ys) repeats)
  | child {next : Option Pattern} {kind : GroupKind} {children : List Pattern} {repeats : Bool}
      {c : Pattern} (hc : c ∈ children) (hn : c.option? = none) (h : Mentions o next c) :
      Mentions o next (.group kind children repeats)
  | branch {next : Option Pattern} {branches : List Pattern} {c : Pattern} (hc : c ∈ branches)
      (h : Mentions o next c) : Mentions o next (.either branches)

mutual

theorem exists_mentions : ∀ {p : Pattern}, .option o ∈ p.leaves → ∃ next, Mentions o next p
  | .option _, h => by
    obtain ⟨rfl⟩ := List.mem_singleton.mp h
    exact ⟨_, .alone⟩
  | .command _, h | .argument _, h | .shortcut _, h => by simp [Pattern.leaves] at h
  | .group _ _ _, h => by
    obtain ⟨c, hc, next, h⟩ := exists_mentionsAll h
    cases hn : c.option? with
    | none => exact ⟨next, .child hc hn h⟩
    | some o' =>
      cases h with
      | alone =>
        obtain ⟨xs, ys, rfl⟩ := List.append_of_mem hc
        exact ⟨_, .member⟩
      | member | child | branch => cases hn
  | .either _, h => by
    obtain ⟨c, hc, next, h⟩ := exists_mentionsAll h
    exact ⟨next, .branch hc h⟩

theorem exists_mentionsAll : ∀ {ps : List Pattern}, .option o ∈ Pattern.leavesAll ps →
    ∃ p ∈ ps, ∃ next, Mentions o next p
  | p :: ps, h => by
    rcases List.mem_append.mp h with h | h
    · obtain ⟨next, h⟩ := exists_mentions h
      exact ⟨p, List.mem_cons_self, next, h⟩
    · obtain ⟨q, hq, h⟩ := exists_mentionsAll h
      exact ⟨q, List.mem_cons_of_mem _ hq, h⟩

end

theorem Mentions.mem_leaves {p : Pattern} (h : Mentions o next p) : .option o ∈ p.leaves := by
  induction h with
  | alone => exact List.mem_singleton_self _
  | member =>
    exact Pattern.mem_leaves_group.mpr
      ⟨_, List.mem_append_right _ List.mem_cons_self, List.mem_singleton_self _⟩
  | child hc _ _ ih => exact Pattern.mem_leaves_group.mpr ⟨_, hc, ih⟩
  | branch hc _ ih => exact Pattern.mem_leaves_either.mpr ⟨_, hc, ih⟩

theorem Mentions.isValueWritten_eq {p : Pattern} (h : Mentions o next p) :
    isValueWritten p = false := by
  have all {ps : List Pattern} {c : Pattern} (hc : c ∈ ps) (h : isValueWritten c = false) :
      areValuesWritten ps = false := by
    induction ps with
    | nil => cases hc
    | cons p ps ih =>
      rw [areValuesWritten, Bool.and_eq_false_iff]
      rcases List.mem_cons.mp hc with rfl | hc
      · exact .inl h
      · exact .inr (ih hc)
  induction h with
  | alone | branch => rfl
  | member =>
    rw [isValueWritten, all (List.mem_append_right _ List.mem_cons_self) rfl, Bool.and_false]
  | child hc _ _ ih => rw [isValueWritten, all hc ih, Bool.and_false]

namespace Declarations

/-- Only a value can be used up by the option before it. -/
theorem isValueWritten_of_complete {r : OptionAtom × Bool} (h : d.complete o next = .ok r)
    (hr : r.2 = true) : ∃ q ∈ next, isValueWritten q = true := by
  unfold complete at h
  split at h
  · dsimp only at h
    split at h
    · obtain ⟨-, -, h⟩ := Except.bind_eq_ok.mp h
      obtain rfl := Except.ok.inj h
      cases hr
    · split at h
      · obtain ⟨-, -, h⟩ := Except.bind_eq_ok.mp h
        obtain rfl := Except.ok.inj h
        cases hr
      · split at h
        next q hq => exact ⟨q, Option.filter_eq_some_iff.mp hq⟩
        next =>
          obtain rfl := Except.ok.inj h
          cases hr
  · obtain rfl := Except.ok.inj h
    cases hr

/-- Completing a list completes each option with what stands behind it, and each other
pattern, except for a value that is used up already. -/
theorem resolveAll_cons {ps qs : List Pattern} {used : Bool} {c : Pattern}
    (hu : used = true → isValueWritten c = true) (h : d.resolveAll used (c :: ps) = .ok qs) :
    ((∃ o, c = .option o ∧ ∃ r, d.complete o ps.head? = .ok r) ∨
      c.option? = none ∧ (isValueWritten c = true ∨ ∃ q, d.resolve c = .ok q)) ∧
    ∃ used' qs', (used' = true → ∃ q ∈ ps.head?, isValueWritten q = true) ∧
      d.resolveAll used' ps = .ok qs' := by
  unfold resolveAll at h
  split at h
  next hused =>
    refine ⟨.inr ⟨?_, .inl (hu hused)⟩, false, qs, nofun, h⟩
    cases c <;> first | rfl | exact absurd (hu hused) (by simp [isValueWritten])
  next =>
    split at h
    next o =>
      obtain ⟨r, hr, h⟩ := Except.bind_eq_ok.mp h
      obtain ⟨qs', hqs, -⟩ := Except.bind_eq_ok.mp h
      exact ⟨.inl ⟨o, rfl, r, hr⟩, r.2, qs', isValueWritten_of_complete hr, hqs⟩
    next hn =>
      obtain ⟨q, hq, h⟩ := Except.bind_eq_ok.mp h
      obtain ⟨qs', hqs, -⟩ := Except.bind_eq_ok.mp h
      refine ⟨.inr ⟨?_, .inr ⟨q, hq⟩⟩, false, qs', nofun, hqs⟩
      cases c <;> first | rfl | exact absurd rfl (hn _)

theorem complete_of_resolveAll {qs xs ys : List Pattern} {used : Bool}
    (hu : used = true → ∃ q ∈ (xs ++ .option o :: ys).head?, isValueWritten q = true)
    (h : d.resolveAll used (xs ++ .option o :: ys) = .ok qs) :
    ∃ r, d.complete o ys.head? = .ok r := by
  induction xs generalizing used qs with
  | nil =>
    obtain ⟨⟨o', ho, hr⟩ | ⟨hn, -⟩, -⟩ := resolveAll_cons (by simpa using hu) h
    · obtain rfl := Pattern.option.inj ho
      exact hr
    · cases hn
  | cons x xs ih =>
    obtain ⟨-, used', qs', hu', h⟩ := resolveAll_cons (by simpa using hu) h
    exact ih hu' h

theorem resolve_of_resolveAll {ps qs : List Pattern} {used : Bool} {c : Pattern} (hc : c ∈ ps)
    (hn : c.option? = none) (hv : isValueWritten c = false)
    (hu : used = true → ∃ q ∈ ps.head?, isValueWritten q = true)
    (h : d.resolveAll used ps = .ok qs) : ∃ q, d.resolve c = .ok q := by
  induction ps generalizing used qs with
  | nil => cases hc
  | cons x xs ih =>
    obtain ⟨hx, used', qs', hu', h⟩ := resolveAll_cons (by simpa using hu) h
    rcases List.mem_cons.mp hc with rfl | hc
    · rcases hx with ⟨o, rfl, -⟩ | ⟨-, hx | hx⟩
      · cases hn
      · rw [hv] at hx
        cases hx
      · exact hx
    · exact ih hc hu' h

theorem resolve_of_resolveEach {ps qs : List Pattern} {c : Pattern} (hc : c ∈ ps)
    (h : d.resolveEach ps = .ok qs) : ∃ q, d.resolve c = .ok q := by
  induction ps generalizing qs with
  | nil => cases hc
  | cons x xs ih =>
    obtain ⟨q, hq, h⟩ := Except.bind_eq_ok.mp h
    obtain ⟨qs', hqs, -⟩ := Except.bind_eq_ok.mp h
    rcases List.mem_cons.mp hc with rfl | hc
    · exact ⟨q, hq⟩
    · exact ih hc hqs

/-- When a line is completed, so is every option that it spells out. -/
theorem complete_of_resolve {p q : Pattern} (hm : Mentions o next p) (h : d.resolve p = .ok q) :
    ∃ r, d.complete o next = .ok r := by
  induction hm generalizing q with
  | alone =>
    obtain ⟨r, hr, -⟩ := Except.bind_eq_ok.mp h
    exact ⟨r, hr⟩
  | member =>
    obtain ⟨qs, hqs, -⟩ := Except.bind_eq_ok.mp h
    exact complete_of_resolveAll (by simp) hqs
  | child hc hn hm ih =>
    obtain ⟨qs, hqs, -⟩ := Except.bind_eq_ok.mp h
    obtain ⟨q, hq⟩ := resolve_of_resolveAll hc hn hm.isValueWritten_eq (by simp) hqs
    exact ih hq
  | branch hc _ ih =>
    obtain ⟨qs, hqs, -⟩ := Except.bind_eq_ok.mp h
    obtain ⟨q, hq⟩ := resolve_of_resolveEach hc hqs
    exact ih hq

/-! ## What agrees with a declaration -/

variable {name : String} {k : OptionAtom} {r : OptionAtom × Bool}

/-- A value that is written, as a part of the option or behind it, is of the arity that is
declared. -/
theorem arity_of_complete (hnames : o.names = .singleton name) (hk : d.named? name = some k)
    (h : d.complete o next = .ok r) :
    (o.takesValue = true → k.valueArity = o.valueArity) ∧
      (o.takesValue = false → k.takesValue = true → ∀ q ∈ next, isValueWritten q = true →
        k.valueArity = q.arity) := by
  unfold complete at h
  rw [find?_of_names hnames, hk] at h
  dsimp only at h
  have checked {written : OptionAtom} {r r' : OptionAtom × Bool}
      (h : (checkArity k written >>= fun _ => Except.ok r') = .ok r) :
      k.valueArity = written.valueArity := by
    obtain ⟨x, hx, -⟩ := Except.bind_eq_ok.mp h
    exact checkArity_eq_ok hx
  split at h
  next hkv =>
    refine ⟨fun _ => checked h, fun _ hkv' => ?_⟩
    rw [hkv'] at hkv
    cases hkv
  next =>
    split at h
    next hov =>
      refine ⟨fun _ => checked h, fun hov' => ?_⟩
      cases hov'.symm.trans hov
    next hov =>
      refine ⟨fun hov' => absurd hov' hov, fun _ _ q hq hqv => ?_⟩
      rw [Option.mem_def.mp hq, Option.filter_some, if_pos hqv] at h
      exact checked h

end Declarations

/-- Declarations and lines disagree on how many values an option takes. -/
inductive Clash (r : Registry) (lines : List Pattern) : Prop
  /-- A line gives the option another value than its section. -/
  | declared {o k : OptionAtom} {repeats : Bool} {name : String}
      (ho : o ∈ lines.flatMap Pattern.options) (hv : o.takesValue = true)
      (hk : (k, repeats) ∈ r.options) (hname : name ∈ o.names.toList) (hname' : name ∈ k.names.toList)
      (hne : k.valueArity ≠ o.valueArity)
  /-- Two lines, or two places in one, give the option different values. -/
  | line {o k : OptionAtom} {name : String} (ho : o ∈ lines.flatMap Pattern.options)
      (hk : k ∈ lines.flatMap Pattern.options) (hv : o.takesValue = true) (hv' : k.takesValue = true)
      (hname : name ∈ o.names.toList) (hname' : name ∈ k.names.toList)
      (hne : k.valueArity ≠ o.valueArity)
  /-- What stands behind the bare option is not the value that is declared. -/
  | behind {o k : OptionAtom} {q line : Pattern} {name : String} (hl : line ∈ lines)
      (hm : Mentions o (some q) line) (hq : isValueWritten q = true) (ho : o.takesValue = false)
      (hk : (∃ repeats, (k, repeats) ∈ r.options) ∨
        k ∈ lines.flatMap Pattern.options ∧ name ∉ r.names)
      (hv : k.takesValue = true) (hname : name ∈ o.names.toList) (hname' : name ∈ k.names.toList)
      (hne : k.valueArity ≠ q.arity)

/-- Lines that were read are rejected if they clash. -/
theorem disagreement_of_clash {registry : Registry} {lines : List Pattern} (hr : registry.Proper)
    (hl : ∀ line ∈ lines, Pattern.Leafwise Written line) (hc : Clash registry lines) :
    ∃ e, usagesOfLines config registry lines = .error e ∧ Disagreement e := by
  cases h : usagesOfLines config registry lines with
  | error e => exact ⟨e, rfl, disagreement_of_usagesOfLines h⟩
  | ok usages =>
    exfalso
    obtain ⟨d, hd, h⟩ := Except.bind_eq_ok.mp h
    obtain ⟨resolved, hresolved, -⟩ := Except.bind_eq_ok.mp h
    have hwritten : ∀ o ∈ lines.flatMap Pattern.options, IsWritten o := by
      intro o ho
      obtain ⟨line, hline, ho⟩ := List.mem_flatMap.mp ho
      exact hl line hline _ (Pattern.mem_options.mp ho)
    obtain ⟨hproper, rfl, -, hcovers⟩ :=
      Declarations.foldlM_addInline (d := { registry }) ⟨hr, nofun, nofun, nofun⟩ hwritten hd
    have completes {o : OptionAtom} {next : Option Pattern} {line : Pattern} (hline : line ∈ lines)
        (hm : Mentions o next line) : ∃ r, d.complete o next = .ok r := by
      obtain ⟨q, -, hq⟩ := Except.exists_of_mapM hresolved line hline
      exact Declarations.complete_of_resolve hm hq
    have named {o : OptionAtom} {name : String} (ho : o ∈ lines.flatMap Pattern.options)
        (hname : name ∈ o.names.toList) : o.names = .singleton name := by
      obtain ⟨n, -, hn⟩ := (hwritten o ho).named
      rw [hn, OrderedSet.toList_singleton, List.mem_singleton] at hname
      rw [hn, hname]
    -- Every value in a line is of the arity that its declaration has.
    have valued {o : OptionAtom} {name : String} (ho : o ∈ lines.flatMap Pattern.options)
        (hv : o.takesValue = true) (hname : name ∈ o.names.toList) :
        ∃ k, d.named? name = some k ∧ k.valueArity = o.valueArity := by
      obtain ⟨k, hk⟩ := Option.isSome_iff_exists.mp (hcovers o ho hv name hname)
      obtain ⟨line, hline, hmem⟩ := List.mem_flatMap.mp ho
      obtain ⟨next, hm⟩ := exists_mentions (Pattern.mem_options.mp hmem)
      obtain ⟨r, hr⟩ := completes hline hm
      exact ⟨k, hk, (Declarations.arity_of_complete (named ho hname) hk hr).1 hv⟩
    cases hc with
    | declared ho hv hk hname hname' hne =>
      obtain ⟨k', hk', harity⟩ := valued ho hv hname
      rw [(Declarations.named?_eq_some_iff hproper).mpr ⟨hname', .inl ⟨_, hk⟩⟩] at hk'
      obtain rfl := Option.some.inj hk'
      exact hne harity
    | line ho hk hv hv' hname hname' hne =>
      obtain ⟨k', hk', harity⟩ := valued ho hv hname
      obtain ⟨k'', hk'', harity'⟩ := valued hk hv' hname'
      obtain rfl := Option.some.inj (hk'.symm.trans hk'')
      exact hne (harity'.symm.trans harity)
    | behind hl hm hq ho hk hv hname hname' hne =>
      obtain ⟨r, hr⟩ := completes hl hm
      have hnames := named (List.mem_flatMap.mpr ⟨_, hl, Pattern.mem_options.mpr hm.mem_leaves⟩) hname
      have harity {k' : OptionAtom} (hk' : d.named? _ = some k') (hv' : k'.takesValue = true) :=
        (Declarations.arity_of_complete hnames hk' hr).2 ho hv' _ rfl hq
      rcases hk with ⟨repeats, hk⟩ | ⟨hk, hnew⟩
      · exact hne (harity ((Declarations.named?_eq_some_iff hproper).mpr ⟨hname', .inl ⟨_, hk⟩⟩) hv)
      · obtain ⟨k', hk', heq⟩ := valued hk hv hname'
        -- No section declares the name, so a line does.
        rcases ((Declarations.named?_eq_some_iff hproper).mp hk') with ⟨hmem, ⟨_, hsec⟩ | hinline⟩
        · exact hnew (Registry.mem_names.mpr ⟨_, _, hsec, hmem⟩)
        · exact hne (heq.symm.trans (harity hk' (hproper.inline k' hinline).1))

end Help

end Synopsis
