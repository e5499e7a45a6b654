import Synopsis.Proofs.Grammar.Numbering
import Synopsis.Proofs.Help.Options
import Synopsis.Proofs.Record.Pattern

/-! # The options of a grammar

Options of a compiled grammar that share a name have the same names and the same
value, slots apart. Arguments share no name with an option, whose names begin with
a hyphen. No name of an option has a `=`, and no alternation in its value is empty.
-/

namespace Synopsis

/-! ## Numbered options -/

/-- The option without slots. -/
def OptionOf.unnumbered (o : OptionAtom) : OptionAtom where
  names := o.names
  value := o.value.map Pattern.unnumbered
  default := o.default

namespace Pattern

@[simp] theorem unnumbered_option (o : OptionAtom) : unnumbered (.option o) = .option o.unnumbered := by
  obtain ⟨names, _ | v, fallback, slot⟩ := o <;> rfl

mutual

theorem leaves_unnumbered : ∀ p : Pattern, p.unnumbered.leaves = p.leaves.map unnumbered
  | .option o => by simp [leaves]
  | .command _ | .argument _ | .shortcut _ => rfl
  | .group _ ps _ | .either ps => leavesAll_unnumberedAll ps

theorem leavesAll_unnumberedAll : ∀ ps : List Pattern,
    leavesAll (unnumberedAll ps) = (leavesAll ps).map unnumbered
  | [] => rfl
  | p :: ps => by
    rw [unnumberedAll, leavesAll, leavesAll, List.map_append, leaves_unnumbered p,
      leavesAll_unnumberedAll ps]

end

mutual

theorem arity_unnumbered : ∀ p : Pattern, p.unnumbered.arity = p.arity
  | .option o => by simp [arity]
  | .command _ | .argument _ | .shortcut _ => rfl
  | .group _ ps _ => by
    have hps := arityOfChildren_unnumberedAll Arity.flag ps
    rw [unnumberedAll_eq_map] at hps
    simp only [unnumbered, arity, unnumberedAll_eq_map, List.isEmpty_map, hps]
  | .either ps => arityOfBranches_unnumberedAll ps

theorem arityOfChildren_unnumberedAll (counts : Arity) : ∀ ps : List Pattern,
    arityOfChildren counts (unnumberedAll ps) = arityOfChildren counts ps
  | [] => rfl
  | p :: ps => by
    rw [unnumberedAll, arityOfChildren, arityOfChildren, arity_unnumbered p,
      arityOfChildren_unnumberedAll]

theorem arityOfBranches_unnumberedAll : ∀ ps : List Pattern,
    arityOfBranches (unnumberedAll ps) = arityOfBranches ps
  | [] => rfl
  | p :: ps => by
    rw [unnumberedAll, arityOfBranches, arityOfBranches, arity_unnumbered p,
      arityOfBranches_unnumberedAll ps]

end

theorem entryOption?_unnumbered : ∀ e : Pattern,
    e.unnumbered.entryOption? = e.entryOption?.map fun x => (x.1.unnumbered, x.2)
  | .group .optional [.option o] _ | .group .optional (_ :: _ :: _) _ => by
    simp [unnumbered, entryOption?]
  | .group .optional [.command _] _ | .group .optional [.argument _] _
  | .group .optional [.group _ _ _] _ | .group .optional [.either _] _
  | .group .optional [.shortcut _] _ | .group .optional [] _
  | .group .required _ _ | .command _ | .argument _ | .either _ | .shortcut _ => rfl
  | .option o => by simp [entryOption?]

/-- Patterns that are the same slots apart have the same leaves slots apart. -/
theorem exists_leaf_of_unnumberedAll {ps us : List Pattern} {u q : Pattern}
    (h : unnumberedAll us = unnumberedAll ps) (hu : u ∈ us) (hq : q ∈ u.leaves) :
    ∃ p ∈ ps, ∃ q' ∈ p.leaves, q'.unnumbered = q.unnumbered := by
  have hleaves := congrArg leavesAll h
  rw [leavesAll_unnumberedAll, leavesAll_unnumberedAll, leavesAll_eq_flatMap,
    leavesAll_eq_flatMap] at hleaves
  have hmem := List.mem_map_of_mem (f := unnumbered) (List.mem_flatMap.mpr ⟨u, hu, hq⟩)
  rw [hleaves] at hmem
  obtain ⟨q', hq', he⟩ := List.mem_map.mp hmem
  obtain ⟨p, hp, hq'⟩ := List.mem_flatMap.mp hq'
  exact ⟨p, hp, q', hq', he⟩

/-- What numbering makes of leaves, it makes of leaves that were there. -/
theorem exists_leaf_of_numberAll {next : Nat} {ps : List Pattern} {u q : Pattern}
    (hu : u ∈ (numberAll next ps).1) (hq : q ∈ u.leaves) :
    ∃ p ∈ ps, ∃ q' ∈ p.leaves, q'.unnumbered = q.unnumbered :=
  exists_leaf_of_unnumberedAll (unnumberedAll_numberAll next ps) hu hq

end Pattern

theorem Pattern.classed_unnumbered {p : Pattern} : Help.Classed p.unnumbered ↔ Help.Classed p := by
  cases p with
  | option o => rw [unnumbered_option]; exact Iff.rfl
  | _ => exact Iff.rfl

theorem OptionOf.valueArity_unnumbered (o : OptionAtom) : o.unnumbered.valueArity = o.valueArity := by
  obtain ⟨names, _ | v, fallback, slot⟩ := o
  · rfl
  · exact Pattern.arity_unnumbered v

theorem OptionOf.valueBranched_congr {o o' : OptionAtom} (he : o'.unnumbered = o.unnumbered)
    (h : o'.ValueBranched) : o.ValueBranched := by
  intro v hv
  have hvalue := congrArg OptionOf.value he
  simp only [OptionOf.unnumbered, hv, Option.map_some, Option.map_eq_some_iff] at hvalue
  obtain ⟨v', hv', hsame⟩ := hvalue
  exact Pattern.branched_of_unnumbered (hsame ▸ (h v' hv').unnumbered)

namespace Registry

theorem entries_number (next : Nat) (r : Registry) :
    (r.number next).1.entries.map Pattern.unnumbered = r.entries.map Pattern.unnumbered := by
  have hgroups (groups : List OptionGroup) (next : Nat) :
      ((number.go next groups).1.flatMap (·.entries)).map Pattern.unnumbered =
        (groups.flatMap (·.entries)).map Pattern.unnumbered := by
    induction groups generalizing next with
    | nil => rfl
    | cons g groups ih =>
      have hg := Pattern.unnumberedAll_numberAll next g.entries
      rw [Pattern.unnumberedAll_eq_map, Pattern.unnumberedAll_eq_map] at hg
      simp only [number.go, List.flatMap_cons, List.map_append, ih, hg]
  exact hgroups r.groups next

theorem options_number (next : Nat) (r : Registry) :
    (r.number next).1.options.map (fun x => (x.1.unnumbered, x.2)) =
      r.options.map fun x => (x.1.unnumbered, x.2) := by
  have hoptions (r : Registry) : r.options.map (fun x => (x.1.unnumbered, x.2)) =
      (r.entries.map Pattern.unnumbered).filterMap Pattern.entryOption? := by
    rw [options, List.map_filterMap, List.filterMap_map]
    exact List.filterMap_congr fun e _ => e.entryOption?_unnumbered.symm
  rw [hoptions, hoptions, entries_number]

theorem Proper.number {r : Registry} (h : r.Proper) (next : Nat) : (r.number next).1.Proper := by
  have hnames : (r.number next).1.names = r.names := by
    have hmap (r : Registry) : r.names =
        (r.options.map fun x => (x.1.unnumbered, x.2)).flatMap fun x => x.1.names.toList := by
      rw [names_eq_flatMap, List.flatMap_map]
      rfl
    rw [hmap, hmap r, options_number]
  refine ⟨fun e he => ?_, hnames ▸ h.nodup, hnames ▸ h.optionName, fun x hx => ?_⟩
  · have hmem := List.mem_map_of_mem (f := Pattern.unnumbered) he
    rw [entries_number] at hmem
    obtain ⟨e', he', hunnumbered⟩ := List.mem_map.mp hmem
    obtain ⟨o, repeats, rfl⟩ := h.entry e' he'
    have hentry := e.entryOption?_unnumbered
    rw [← hunnumbered, Pattern.entryOption?_unnumbered] at hentry
    obtain ⟨⟨o', repeats'⟩, ho, -⟩ := Option.map_eq_some_iff.mp hentry.symm
    exact ⟨o', repeats', Pattern.eq_of_entryOption? ho⟩
  · have hmem := List.mem_map_of_mem (f := fun x : OptionAtom × Bool => (x.1.unnumbered, x.2)) hx
    rw [options_number] at hmem
    obtain ⟨x', hx', he⟩ := List.mem_map.mp hmem
    exact OptionOf.valueBranched_congr (Prod.mk.inj he).1 (h.branched x' hx')

end Registry

namespace Grammar

variable {g : Grammar} {config : Config} {doc : String}

/-- Every option that is declared or spelled out. -/
def options (g : Grammar) : List OptionAtom :=
  g.registry.options.map (·.1) ++ g.usages.flatMap Pattern.options

/-- Two mentions of one option. A value of arity zero is as good as none. -/
structure Agree (o p : OptionAtom) : Prop where
  names_eq : o.names = p.names
  value_eq : o.unnumbered.value = p.unnumbered.value ∨
    o.valueArity = Arity.flag ∧ p.valueArity = Arity.flag

/-- What a help text says about the options of its grammar. -/
structure Coherent (g : Grammar) : Prop where
  registry : g.registry.Proper
  agree : ∀ o ∈ g.options, ∀ p ∈ g.options, ∀ name ∈ o.names.toList, name ∈ p.names.toList →
    Agree o p
  optionName : ∀ o ∈ g.options, ∀ name ∈ o.names.toList, Help.OptionName name
  argument : ∀ u ∈ g.usages, ∀ leaf, .argument leaf ∈ u.leaves →
    ∀ name ∈ leaf.names.toList, ¬ Help.Hyphenated name
  branched : ∀ o ∈ g.options, o.ValueBranched

/-- A compiled grammar is built from declared options and from lines that were read. -/
theorem parts_of_compile (h : compile config doc = .ok g) :
    ∃ source registry lines usages, registry.Proper ∧
      (∀ line ∈ lines, Pattern.Leafwise Help.Written line) ∧
      Help.usagesOfLines config registry lines = .ok usages ∧
      build config source registry usages = .ok g := by
  unfold compile at h
  cases hu : Help.usageSection? config doc.toList with
  | none =>
    simp only [hu] at h
    cases h
  | some usage =>
    simp only [hu, Except.bind_eq_ok] at h
    obtain ⟨⟨registry, texts⟩, hr, lines, hlines, usages, husages, h⟩ := h
    exact ⟨_, registry, lines, usages, Help.proper_parseSections hr,
      fun p hp => (Help.allWritten_parseUsages hlines p hp).2, husages, h⟩

/-- The names of commands and arguments are words of their class. -/
theorem classed_of_compile (h : compile config doc = .ok g) :
    ∀ u ∈ g.usages, u.Leafwise Help.Classed := by
  obtain ⟨source, registry, lines, usages, hproper, hlines, husages, hb⟩ := parts_of_compile h
  obtain ⟨-, -, -, hu, -⟩ := eq_of_build hb
  obtain ⟨d, -, -, hsettled⟩ := Help.settled_usagesOfLines hproper hlines husages
  intro u hmem q hq
  rw [hu] at hmem
  obtain ⟨p, hp, q', hq', he⟩ := Pattern.exists_leaf_of_numberAll hmem hq
  rw [← Pattern.classed_unnumbered, ← he, Pattern.classed_unnumbered]
  exact (hsettled p hp q' hq').classed

theorem coherent_of_compile (h : compile config doc = .ok g) : g.Coherent := by
  obtain ⟨source, registry, lines, usages, hproper, hlines, husages, hb⟩ := parts_of_compile h
  obtain ⟨-, -, hr, hu, -⟩ := eq_of_build hb
  obtain ⟨d, hd, rfl, hsettled⟩ := Help.settled_usagesOfLines hproper hlines husages
  -- Every option of the grammar is, slots apart, one that follows its declaration.
  have hgoverned : ∀ o ∈ g.options, ∃ o', d.Governs o' ∧ o.unnumbered = o'.unnumbered := by
    intro o ho
    rcases List.mem_append.mp ho with ho | ho
    · obtain ⟨x, hx, rfl⟩ := List.mem_map.mp ho
      have hmem := List.mem_map_of_mem (f := fun x : OptionAtom × Bool => (x.1.unnumbered, x.2)) hx
      rw [hr, Registry.options_number] at hmem
      obtain ⟨⟨o', repeats'⟩, ho', he⟩ := List.mem_map.mp hmem
      exact ⟨o', Help.Declarations.governs_registry hd ho', (Prod.mk.inj he).1.symm⟩
    · obtain ⟨u, hmem, ho⟩ := List.mem_flatMap.mp ho
      rw [hu] at hmem
      obtain ⟨p, hp, q, hq, he⟩ := Pattern.exists_leaf_of_numberAll hmem (Pattern.mem_options.mp ho)
      rw [Pattern.unnumbered_option] at he
      cases q with
      | option o' =>
        rw [Pattern.unnumbered_option] at he
        exact ⟨o', hsettled p hp _ hq, (Pattern.option.inj he).symm⟩
      | command | argument | group | either | shortcut => cases he
  have hnames {o o' : OptionAtom} (he : o.unnumbered = o'.unnumbered) : o.names = o'.names := by
    have hn := congrArg OptionOf.names he
    exact hn
  refine ⟨hr ▸ hproper.number 0, ?_, ?_, ?_, ?_⟩
  · intro o ho p hp name hname hname'
    obtain ⟨o', ho', he⟩ := hgoverned o ho
    obtain ⟨p', hp', he'⟩ := hgoverned p hp
    obtain ⟨hn, hv⟩ := ho'.agree hp' (hnames he ▸ hname) (hnames he' ▸ hname')
    refine ⟨by rw [hnames he, hnames he', hn], ?_⟩
    rw [← o.valueArity_unnumbered, ← p.valueArity_unnumbered, he, he', o'.valueArity_unnumbered,
      p'.valueArity_unnumbered]
    exact hv.imp_left fun hv => congrArg (Option.map Pattern.unnumbered) hv
  · intro o ho
    obtain ⟨o', ho', he⟩ := hgoverned o ho
    exact hnames he ▸ ho'.optionName
  · exact fun u hu leaf hleaf name hname =>
      Help.not_hyphenated_of_classOf (classed_of_compile h u hu _ hleaf name hname)
  · intro o ho
    obtain ⟨o', ho', he⟩ := hgoverned o ho
    exact OptionOf.valueBranched_congr he.symm ho'.branched

end Grammar

end Synopsis
