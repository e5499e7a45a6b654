import Synopsis.Proofs.Grammar.Options
import Synopsis.Proofs.Help.Choices
import Synopsis.Proofs.Outcomes

/-! # What shortcuts stand for

A shortcut of a usage stands for the declared options that its line does not spell out.
It is missing where there are none.
-/

namespace Synopsis

open List (Forall₂)
open Pattern (StandsFor leftOf isKept)

/-! ## Lines and their usages -/

namespace Pattern

/-- A usage has the leaves of a choice of branches, slots apart and in some order. Shortcuts
that are not kept are missing, and an argument may have more names. -/
def Represents (keep : Shortcut → Bool) (u choice : Pattern) : Prop :=
  ∃ l : List Pattern, l.Perm u.unnumbered.leaves ∧
    Forall₂ StandsFor l (leftOf keep choice.unnumbered)

/-- The entry declares an option of which the line spells out no name. -/
def leavesOut (line entry : Pattern) : Bool :=
  entry.entryOption?.any fun (k, _) => line.options.all fun o => k.names.isDisjoint o.names

variable {keep keep' : Shortcut → Bool} {p q u choice line : Pattern} {o : OptionAtom} {s : Shortcut}
  {names : Names}

theorem isKept_unnumbered (keep : Shortcut → Bool) (p : Pattern) :
    isKept keep p.unnumbered = isKept keep p := by
  cases p with
  | option o => rw [unnumbered_option]; rfl
  | command | argument | group | either | shortcut => rfl

theorem leftOf_unnumbered (keep : Shortcut → Bool) (p : Pattern) :
    leftOf keep p.unnumbered = (leftOf keep p).map unnumbered := by
  rw [leftOf, leftOf, leaves_unnumbered, List.filter_map]
  congr 1
  exact List.filter_congr fun q _ => isKept_unnumbered keep q

theorem mem_shortcuts : s ∈ p.shortcuts ↔ .shortcut s ∈ p.leaves := by
  rw [shortcuts, List.mem_filterMap]
  constructor
  · rintro ⟨q, hq, hs⟩
    cases q with
    | shortcut => exact Option.some.inj hs ▸ hq
    | option | command | argument | group | either => cases hs
  · exact fun h => ⟨_, h, rfl⟩

theorem leavesOut_eq (line entry : Pattern) : line.leavesOut entry =
    entry.entryOption?.any fun (k, _) => k.names.isDisjoint (Help.spelledNames line) := by
  have hdisjoint (k : OptionAtom) : (line.options.all fun o => k.names.isDisjoint o.names) =
      k.names.isDisjoint (Help.spelledNames line) := by
    rw [Bool.eq_iff_iff, List.all_eq_true, OrderedSet.isDisjoint_iff]
    simp only [OrderedSet.isDisjoint_iff, Help.spelledNames, OrderedSet.mem_ofList,
      List.mem_flatMap, not_exists, not_and]
    exact ⟨fun h name hk o ho => h o ho name hk, fun h o ho name hk => h name hk o ho⟩
  simp only [leavesOut, hdisjoint]

theorem leavesOut_unnumbered (line entry : Pattern) :
    line.leavesOut entry.unnumbered = line.leavesOut entry := by
  rw [leavesOut_eq, leavesOut_eq, entryOption?_unnumbered, Option.any_map]
  rfl

mutual

theorem leaves_hideOptions (names : Names) : ∀ p : Pattern,
    (p.hideOptions names).leaves = p.leaves.map (hideOptions names)
  | .option _ | .command _ | .argument _ | .shortcut _ => rfl
  | .group _ ps _ | .either ps => by
    simpa [hideOptions, mapLeaves, leaves] using leavesAll_hideOptions names ps

theorem leavesAll_hideOptions (names : Names) : ∀ ps : List Pattern,
    (ps.map (hideOptions names)).flatMap leaves = (ps.flatMap leaves).map (hideOptions names)
  | [] => rfl
  | p :: ps => by
    rw [List.map_cons, List.flatMap_cons, List.flatMap_cons, List.map_append,
      leaves_hideOptions names p, leavesAll_hideOptions names ps]

end

theorem hidden_of_mem_leaves (h : .shortcut s ∈ (p.hideOptions names).leaves) : s.hidden = names := by
  rw [leaves_hideOptions] at h
  obtain ⟨q, hq, hs⟩ := List.mem_map.mp h
  cases q with
  | shortcut =>
    obtain rfl := Pattern.shortcut.inj hs
    rfl
  | option | command | argument => cases hs
  | group | either => simp [hideOptions, mapLeaves] at hs

end Pattern

/-! ## What shortcuts stand for -/

namespace Registry

/-- The entries of the section of a shortcut, or of all sections. -/
def announced (r : Registry) (s : Shortcut) (named : Bool) : List Pattern :=
  (r.groups.filter fun g => !named || normalizeTitle g.title == normalizeTitle s.title).flatMap
    (·.entries)

variable {r : Registry} {s : Shortcut} {named : Bool} {line : Pattern}

/-- A shortcut that hides what a line spells out stands for the rest. -/
theorem visible_eq (h : s.hidden = Help.spelledNames line) :
    r.visible s named = (r.announced s named).filter line.leavesOut := by
  unfold visible announced
  refine List.filter_congr fun entry _ => ?_
  rw [Pattern.leavesOut_eq, h]

theorem announced_number (next : Nat) (r : Registry) (s : Shortcut) (named : Bool) :
    ((r.number next).1.announced s named).map Pattern.unnumbered =
      (r.announced s named).map Pattern.unnumbered := by
  have hgroups (groups : List OptionGroup) (next : Nat) :
      (((number.go next groups).1.filter fun g => !named ||
        normalizeTitle g.title == normalizeTitle s.title).flatMap (·.entries)).map Pattern.unnumbered =
      ((groups.filter fun g => !named || normalizeTitle g.title == normalizeTitle s.title).flatMap
        (·.entries)).map Pattern.unnumbered := by
    induction groups generalizing next with
    | nil => rfl
    | cons g groups ih =>
      have hg := Pattern.unnumberedAll_numberAll next g.entries
      rw [Pattern.unnumberedAll_eq_map, Pattern.unnumberedAll_eq_map] at hg
      simp only [number.go, List.filter_cons]
      split
      · simp only [List.flatMap_cons, List.map_append, ih, hg]
      · exact ih _
  exact hgroups r.groups next

theorem any_leavesOut_number (next : Nat) (r : Registry) (s : Shortcut) (named : Bool) :
    ((r.number next).1.announced s named).any line.leavesOut =
      (r.announced s named).any line.leavesOut := by
  have hmap (r : Registry) : (r.announced s named).any line.leavesOut =
      ((r.announced s named).map Pattern.unnumbered).any line.leavesOut := by
    rw [List.any_map]
    exact List.any_congr rfl fun e => (Pattern.leavesOut_unnumbered line e).symm
  rw [hmap, announced_number, ← hmap]

end Registry

namespace Pattern

variable {keep : Shortcut → Bool} {u choice line : Pattern} {o : OptionAtom} {s : Shortcut}
  {registry : Registry} {named : Bool}

/-- A usage represents a choice of its line in which exactly the shortcuts are missing that
stand for nothing. A shortcut of no section is kept to be reported. -/
theorem represents_of_mem_usagesOfLine (h : Branched line)
    (hu : u ∈ Help.usagesOfLine (Help.keepsShortcut registry named) line)
    (hknown : named = true → ∀ s ∈ u.shortcuts, registry.hasGroupFor s = true) :
    ∃ choice ∈ line.expand, Represents (fun s => (registry.announced s named).any line.leavesOut) u
      (choice.hideOptions (Help.spelledNames line)) := by
  obtain ⟨choice, hchoice, l, hperm, hstands⟩ := stands_of_mem_usagesOfLine h hu
  refine ⟨choice, hchoice, l.map unnumbered, ?_, ?_⟩
  · rw [leaves_unnumbered]
    exact hperm.map unnumbered
  have hkeep : leftOf (Help.keepsShortcut registry named)
        (choice.hideOptions (Help.spelledNames line)) =
      leftOf (fun s => (registry.announced s named).any line.leavesOut)
        (choice.hideOptions (Help.spelledNames line)) := by
    refine List.filter_congr fun q hq => ?_
    cases q with
    | option | command | argument | group | either => rfl
    | shortcut s =>
      have hvisible : (!(registry.visible s named).isEmpty) =
          (registry.announced s named).any line.leavesOut := by
        rw [Registry.visible_eq (hidden_of_mem_leaves hq), Bool.eq_iff_iff]
        simp
      have hsection : (named && !registry.hasGroupFor s) = false := by
        by_contra hunknown
        simp only [Bool.not_eq_false, Bool.and_eq_true, Bool.not_eq_true'] at hunknown
        obtain ⟨hnamed, hnone⟩ := hunknown
        have hkept : .shortcut s ∈ leftOf (Help.keepsShortcut registry named)
            (choice.hideOptions (Help.spelledNames line)) := by
          refine List.mem_filter.mpr ⟨hq, ?_⟩
          simp [isKept, Help.keepsShortcut, hnamed, hnone]
        obtain ⟨p, hp, hstandsFor⟩ := StandsFor.exists_of_mem_right hstands hkept
        cases hstandsFor with
        | same =>
          rw [hknown hnamed s (mem_shortcuts.mpr (hperm.mem_iff.mp hp))] at hnone
          cases hnone
      change Help.keepsShortcut registry named s = (registry.announced s named).any line.leavesOut
      rw [Help.keepsShortcut, hsection, Bool.false_or, hvisible]
  rw [leftOf_unnumbered, ← hkeep]
  exact List.forall₂_map_left_iff.mpr (List.forall₂_map_right_iff.mpr
    (hstands.imp fun _ _ => StandsFor.unnumbered))

namespace Represents

variable (h : Represents keep u (choice.hideOptions (Help.spelledNames line)))
  (hchoice : choice ∈ line.expand)
include h

/-- The leaf of the line that a leaf of a usage stands for. -/
theorem exists_leaf {q : Pattern} (hq : q ∈ u.leaves) :
    ∃ q' ∈ (choice.hideOptions (Help.spelledNames line)).leaves,
      StandsFor q.unnumbered q'.unnumbered := by
  obtain ⟨l, hperm, hstands⟩ := h
  have hl : q.unnumbered ∈ l := by
    rw [hperm.mem_iff, leaves_unnumbered]
    exact List.mem_map_of_mem hq
  obtain ⟨q', hq', hstandsFor⟩ := StandsFor.exists_of_mem hstands hl
  rw [leftOf_unnumbered] at hq'
  obtain ⟨q'', hq'', rfl⟩ := List.mem_map.mp hq'
  exact ⟨q'', (List.mem_filter.mp hq'').1, hstandsFor⟩

theorem hidden_eq (hs : s ∈ u.shortcuts) : s.hidden = Help.spelledNames line := by
  obtain ⟨q, hq, hstands⟩ := h.exists_leaf (mem_shortcuts.mp hs)
  cases q with
  | shortcut s' =>
    cases hstands with
    | same => exact hidden_of_mem_leaves hq
  | option o =>
    rw [unnumbered_option] at hstands
    cases hstands
  | command | argument | group | either => cases hstands

include hchoice

/-- The options of a usage stand on its line. -/
theorem exists_option (ho : o ∈ u.options) : ∃ o' ∈ line.options, o'.names = o.names := by
  obtain ⟨q, hq, hstands⟩ := h.exists_leaf (mem_options.mp ho)
  rw [unnumbered_option] at hstands
  rw [leaves_hideOptions] at hq
  obtain ⟨q', hq', rfl⟩ := List.mem_map.mp hq
  have hline : q' ∈ line.leaves :=
    leafwise_expand (L := fun q => q ∈ line.leaves) (fun _ => id) choice hchoice q' hq'
  cases q' with
  | option o' =>
    simp only [hideOptions, mapLeaves, unnumbered_option] at hstands
    have hnames := (StandsFor.option_eq hstands)
    exact ⟨o', mem_options.mpr hline, (congrArg OptionOf.names hnames).symm⟩
  | shortcut | command | argument | group | either =>
    simp only [hideOptions, mapLeaves, unnumbered] at hstands
    cases hstands

end Represents

end Pattern

/-! ## Compiled grammars -/

/-- The declared options, and the lines of the usage section in which every option has all
names of its declaration. -/
def Help.CompletedLines (config : Config) (doc : String) (registry : Registry)
    (lines : List Pattern) : Prop :=
  ∃ usage texts written d, usageSection? config doc.toList = some usage ∧
    parseSections config (optionsSections config (Text.removeFirst usage.raw.toList doc.toList)) =
      .ok (registry, texts) ∧
    parseUsages config registry usage.body = .ok written ∧
    (written.flatMap Pattern.options).foldlM Declarations.addInline { registry } = .ok d ∧
    written.mapM d.resolve = .ok lines

namespace Help.CompletedLines

variable {config : Config} {doc : String} {registry : Registry} {lines : List Pattern}

theorem branched (h : CompletedLines config doc registry lines) : ∀ line ∈ lines, line.Branched := by
  obtain ⟨usage, texts, written, d, -, -, hw, -, hl⟩ := h
  intro line hline
  obtain ⟨p, hp, hr⟩ := Except.forall_of_mapM hl line hline
  exact Declarations.branched_resolve (allWritten_parseUsages hw p hp).1 hr

/-- The options of the lines have all names of their declarations. -/
theorem names_eq (h : CompletedLines config doc registry lines) {line : Pattern} (hline : line ∈ lines)
    {o k : OptionAtom} {repeats : Bool} (ho : o ∈ line.options) (hk : (k, repeats) ∈ registry.options)
    {name : String} (hname : name ∈ o.names.toList) (hname' : name ∈ k.names.toList) :
    o.names = k.names := by
  obtain ⟨usage, texts, written, d, -, hr, hw, hd, hl⟩ := h
  obtain ⟨hproper, rfl, hsettled⟩ := Declarations.settled_of_mapM (proper_parseSections hr)
    (fun p hp => (allWritten_parseUsages hw p hp).2) hd hl
  have ho := hsettled line hline _ (Pattern.mem_options.mp ho)
  exact (Declarations.Governs.agree ho (Declarations.governs_registry hproper hk) hname hname').1

end Help.CompletedLines

namespace Grammar

variable {g : Grammar} {config : Config} {doc : String}

/-- The parts of a compiled grammar before slots are given out. -/
theorem completedLines_of_compile (h : compile config doc = .ok g) :
    ∃ source registry lines, Help.CompletedLines config doc registry lines ∧
      build config source registry (lines.flatMap (Help.usagesOfLine
        (Help.keepsShortcut registry config.namedOptionGroups))) = .ok g := by
  unfold compile at h
  cases hu : Help.usageSection? config doc.toList with
  | none =>
    simp only [hu] at h
    cases h
  | some usage =>
    simp only [hu, Except.bind_eq_ok] at h
    obtain ⟨⟨registry, texts⟩, hr, written, hw, usages, husages, h⟩ := h
    obtain ⟨d, hd, husages⟩ := Except.bind_eq_ok.mp husages
    obtain ⟨lines, hlines, husages⟩ := Except.bind_eq_ok.mp husages
    obtain rfl := Except.ok.inj husages
    exact ⟨_, registry, lines, ⟨usage, texts, written, d, hu, hr, hw, hd, hlines⟩, h⟩

theorem hasGroupFor_of_build {source : SourceText} {registry : Registry} {usages : List Pattern}
    (h : build config source registry usages = .ok g) (hnamed : config.namedOptionGroups = true)
    {u : Pattern} (hu : u ∈ usages) {s : Shortcut} (hs : s ∈ u.shortcuts) :
    registry.hasGroupFor s = true := by
  unfold build at h
  cases hunknown : unknownShortcut? registry usages with
  | some s =>
    simp only [hnamed, hunknown] at h
    cases h
  | none =>
    have hall := List.find?_eq_none.mp hunknown s (List.mem_flatMap.mpr ⟨u, hu, hs⟩)
    simpa using hall

/-- Each usage comes from a line: slots apart, it is one of those that the line was split
into, and it represents a choice of its branches. -/
theorem lines_of_compile (h : compile config doc = .ok g) :
    ∃ registry lines, Help.CompletedLines config doc registry lines ∧
      g.registry = (registry.number 0).1 ∧
      ∀ u ∈ g.usages, ∃ line ∈ lines,
        (∃ u' ∈ Help.usagesOfLine (Help.keepsShortcut registry config.namedOptionGroups) line,
          u'.unnumbered = u.unnumbered) ∧
        ∃ choice ∈ line.expand, Pattern.Represents
          (fun s => (g.registry.announced s g.scope.named).any line.leavesOut) u
          (choice.hideOptions (Help.spelledNames line)) := by
  obtain ⟨source, registry, lines, hlines, hb⟩ := completedLines_of_compile h
  obtain ⟨hconfig, -, hr, hu, -⟩ := eq_of_build hb
  refine ⟨registry, lines, hlines, hr, fun u hmem => ?_⟩
  have hunnumbered := Pattern.unnumberedAll_numberAll (registry.number 0).2
    (lines.flatMap (Help.usagesOfLine (Help.keepsShortcut registry config.namedOptionGroups)))
  rw [← hu, Pattern.unnumberedAll_eq_map, Pattern.unnumberedAll_eq_map] at hunnumbered
  have hsplit := List.mem_map_of_mem (f := Pattern.unnumbered) hmem
  rw [hunnumbered] at hsplit
  obtain ⟨u', hu', he⟩ := List.mem_map.mp hsplit
  obtain ⟨line, hline, hof⟩ := List.mem_flatMap.mp hu'
  obtain ⟨choice, hchoice, hrepresents⟩ := Pattern.represents_of_mem_usagesOfLine
    (hlines.branched line hline) hof fun hnamed s hs => hasGroupFor_of_build hb hnamed hu' hs
  refine ⟨line, hline, ⟨u', hof, he⟩, choice, hchoice, ?_⟩
  have hkeep : (fun s => (g.registry.announced s g.scope.named).any line.leavesOut) =
      fun s => (registry.announced s config.namedOptionGroups).any line.leavesOut := by
    funext s
    rw [hr, scope, hconfig, Registry.any_leavesOut_number]
  unfold Pattern.Represents at hrepresents ⊢
  rwa [hkeep, ← he]

/-- Each usage is one of those that a line was split into, slots apart. Its shortcuts stand for exactly those options of their
section, or of all sections, of which the line spells out no name; so nothing that a
shortcut stands for is an option of the usage, too. Apart from shortcuts that stand for
nothing, the usage has all leaves of the branches that were chosen. -/
theorem compile_shortcuts_stand_for_rest (h : compile config doc = .ok g) :
    ∃ registry lines, Help.CompletedLines config doc registry lines ∧
      (∀ line ∈ lines, ∀ o ∈ line.options, ∀ k repeats, (k, repeats) ∈ g.registry.options →
        ∀ name ∈ o.names.toList, name ∈ k.names.toList → o.names = k.names) ∧
      ∀ u ∈ g.usages, ∃ line ∈ lines,
        (∃ u' ∈ Help.usagesOfLine (Help.keepsShortcut registry config.namedOptionGroups) line,
          u'.unnumbered = u.unnumbered) ∧
        (∀ s ∈ u.shortcuts,
          g.scope.visible s = (g.registry.announced s g.scope.named).filter line.leavesOut ∧
          ∀ entry ∈ g.scope.visible s, ∀ k repeats, entry.entryOption? = some (k, repeats) →
            ∀ o ∈ u.options, k.names.isDisjoint o.names = true) ∧
        ∃ choice ∈ line.expand, Pattern.Represents
          (fun s => (g.registry.announced s g.scope.named).any line.leavesOut) u
          (choice.hideOptions (Help.spelledNames line)) := by
  obtain ⟨registry, lines, hlines, hr, husages⟩ := lines_of_compile h
  refine ⟨registry, lines, hlines, ?_, fun u hmem => ?_⟩
  · intro line hline o ho k repeats hk name hname hname'
    have hmem := List.mem_map_of_mem (f := fun x : OptionAtom × Bool => (x.1.unnumbered, x.2)) hk
    rw [hr, Registry.options_number] at hmem
    obtain ⟨⟨k', repeats'⟩, hk', he⟩ := List.mem_map.mp hmem
    have hunnumbered : k'.unnumbered = k.unnumbered := (Prod.mk.inj he).1
    have hnames := congrArg OptionOf.names hunnumbered
    change k'.names = k.names at hnames
    rw [hlines.names_eq hline ho hk' hname (hnames ▸ hname'), hnames]
  obtain ⟨line, hline, hsplit, choice, hchoice, hrest⟩ := husages u hmem
  refine ⟨line, hline, hsplit, fun s hs => ?_, choice, hchoice, hrest⟩
  have hvisible : g.scope.visible s =
      (g.registry.announced s g.scope.named).filter line.leavesOut :=
    Registry.visible_eq (hrest.hidden_eq hs)
  refine ⟨hvisible, fun entry hentry k repeats hk o ho => ?_⟩
  rw [hvisible] at hentry
  have hleft := (List.mem_filter.mp hentry).2
  rw [Pattern.leavesOut, hk] at hleft
  obtain ⟨o', ho', hnames⟩ := hrest.exists_option hchoice ho
  rw [← hnames]
  exact List.all_eq_true.mp hleft o' ho'

/-- `--all` is spelled out in one branch as `-a`, so that the shortcut of the other branch
stands for `-b` alone. -/
theorem shortcut_stands_for_rest : ∃ g,
    compile {} "Usage: prog (-a <x> | [options])\n\nOptions:\n  -a, --all  A.\n  -b  B." = .ok g ∧
    g.usages.map Pattern.shortcuts = [[], [{ title := "", hidden := .ofList ["-a", "--all"] }]] ∧
    ∃ registry lines, Help.CompletedLines {}
        "Usage: prog (-a <x> | [options])\n\nOptions:\n  -a, --all  A.\n  -b  B." registry lines ∧
      (∀ line ∈ lines, ∀ o ∈ line.options, ∀ k repeats, (k, repeats) ∈ g.registry.options →
        ∀ name ∈ o.names.toList, name ∈ k.names.toList → o.names = k.names) ∧
      ∀ u ∈ g.usages, ∃ line ∈ lines,
        (∃ u' ∈ Help.usagesOfLine (Help.keepsShortcut registry false) line,
          u'.unnumbered = u.unnumbered) ∧
        (∀ s ∈ u.shortcuts,
          g.scope.visible s = (g.registry.announced s g.scope.named).filter line.leavesOut ∧
          ∀ entry ∈ g.scope.visible s, ∀ k repeats, entry.entryOption? = some (k, repeats) →
            ∀ o ∈ u.options, k.names.isDisjoint o.names = true) ∧
        ∃ choice ∈ line.expand, Pattern.Represents
          (fun s => (g.registry.announced s g.scope.named).any line.leavesOut) u
          (choice.hideOptions (Help.spelledNames line)) := by
  obtain ⟨g, hg, hs⟩ : ∃ g,
      compile {} "Usage: prog (-a <x> | [options])\n\nOptions:\n  -a, --all  A.\n  -b  B." = .ok g ∧
      g.usages.map Pattern.shortcuts = [[], [{ title := "", hidden := .ofList ["-a", "--all"] }]] := by
    decide +kernel
  exact ⟨g, hg, hs, compile_shortcuts_stand_for_rest hg⟩

/-- A shortcut in the value of an option hides nothing, so that `-a` is reached through it
although the usage spells it out. -/
theorem shortcut_in_value_hides_nothing :
    ∃ g, compile {} "Usage: prog --opt=([options]) [-a]\n\nOptions:\n  -a  A.\n  -b  B." = .ok g ∧
      ∃ u ∈ g.usages, ∃ o ∈ u.options, ∃ v ∈ o.value, ∃ s ∈ v.shortcuts,
        ∃ entry ∈ g.scope.visible s, ∃ k repeats, entry.entryOption? = some (k, repeats) ∧
          ∃ o' ∈ u.options, k.names.isDisjoint o'.names = false := by
  let s : Shortcut := { title := "" }
  let a : OptionAtom := ⟨.singleton "-a", none, none, 0⟩
  let opt : OptionAtom := ⟨.singleton "--opt", some (.required [.shortcut s]), none, 2⟩
  let a' : OptionAtom := ⟨.singleton "-a", none, none, 3⟩
  obtain ⟨g, hg, husages, hvisible⟩ :
      ∃ g, compile {} "Usage: prog --opt=([options]) [-a]\n\nOptions:\n  -a  A.\n  -b  B." = .ok g ∧
        g.usages = [.required [.option opt, .optional [.option a']]] ∧
        .optional [.option a] ∈ g.scope.visible s := by decide +kernel
  refine ⟨g, hg, .required [.option opt, .optional [.option a']], by simp [husages], opt, .head _,
    .required [.shortcut s], rfl, s, .head _, .optional [.option a], hvisible, a, false, rfl, a', ?_, rfl⟩
  exact .tail _ (.head _)

end Grammar

end Synopsis
