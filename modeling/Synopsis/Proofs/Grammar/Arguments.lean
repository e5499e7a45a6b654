import Synopsis.Proofs.Grammar.Keys
import Synopsis.Proofs.Grammar.Shortcuts
import Synopsis.Proofs.Help.Derivations
import Synopsis.Proofs.Pattern.NormalForm

/-! # Keys of arguments

Splitting a line into usages merges arguments, but their names are not lost. So an argument
of a line is found in every result under its name, unless it is the value of an option.
-/

namespace Synopsis

namespace Except

variable {ε α β γ δ : Type} {f : α → Except ε β} {g : β → Except ε γ} {k : α → Except ε δ}

/-- Two steps are taken for every element as they are for one. -/
theorem mapM_mapM {π : δ → γ} {as : List α} {bs : List β} {cs : List γ}
    (hk : ∀ a b c, f a = .ok b → g b = .ok c → ∃ d, k a = .ok d ∧ π d = c)
    (hf : as.mapM f = .ok bs) (hg : bs.mapM g = .ok cs) :
    ∃ ds, as.mapM k = .ok ds ∧ ds.map π = cs := by
  induction as generalizing bs cs with
  | nil =>
    obtain rfl := Except.ok.inj hf
    exact ⟨[], rfl, Except.ok.inj hg⟩
  | cons a as ih =>
    rw [List.mapM_cons] at hf
    obtain ⟨b, hb, hf⟩ := Except.bind_eq_ok.mp hf
    obtain ⟨bs, hbs, hf⟩ := Except.bind_eq_ok.mp hf
    obtain rfl := Except.ok.inj hf
    rw [List.mapM_cons] at hg
    obtain ⟨c, hc, hg⟩ := Except.bind_eq_ok.mp hg
    obtain ⟨cs, hcs, hg⟩ := Except.bind_eq_ok.mp hg
    obtain rfl := Except.ok.inj hg
    obtain ⟨d, hd, rfl⟩ := hk a b c hb hc
    obtain ⟨ds, hds, rfl⟩ := ih hbs hcs
    refine ⟨d :: ds, ?_, rfl⟩
    rw [List.mapM_cons, hd, hds]
    rfl

end Except

namespace Pattern

variable {p q l : Pattern} {ps : List Pattern} {name : String}

/-! ## Choices -/

theorem exists_mem_expandAll (hps : ∀ p ∈ ps, p.expand ≠ []) (hp : p ∈ ps) (hq : q ∈ p.expand) :
    ∃ qs ∈ expandAll ps, q ∈ qs := by
  have hne {ps : List Pattern} (hps : ∀ p ∈ ps, p.expand ≠ []) : ∃ qs, qs ∈ expandAll ps := by
    induction ps with
    | nil => exact ⟨[], List.mem_singleton_self _⟩
    | cons p ps ih =>
      obtain ⟨hp, hps⟩ := List.forall_mem_cons.mp hps
      obtain ⟨q, hq⟩ := List.exists_mem_of_ne_nil _ hp
      obtain ⟨qs, hqs⟩ := ih hps
      exact ⟨q :: qs, mem_expandAll_cons.mpr ⟨q, hq, qs, hqs, rfl⟩⟩
  induction ps with
  | nil => cases hp
  | cons p' ps ih =>
    obtain ⟨hp', hrest⟩ := List.forall_mem_cons.mp hps
    rcases List.mem_cons.mp hp with rfl | hp
    · obtain ⟨qs, hqs⟩ := hne hrest
      exact ⟨q :: qs, mem_expandAll_cons.mpr ⟨q, hq, qs, hqs, rfl⟩, List.mem_cons_self⟩
    · obtain ⟨q', hq'⟩ := List.exists_mem_of_ne_nil _ hp'
      obtain ⟨qs, hqs, hmem⟩ := ih hrest hp
      exact ⟨q' :: qs, mem_expandAll_cons.mpr ⟨q', hq', qs, hqs, rfl⟩, List.mem_cons_of_mem _ hmem⟩

/-- There is something to choose if no alternation is empty. -/
theorem Branched.expand_ne_nil (h : Branched p) : p.expand ≠ [] := by
  induction h with
  | option | command | argument | shortcut => exact List.cons_ne_nil _ _
  | @group kind ps repeats _ ih =>
    match ps with
    | [] => exact List.cons_ne_nil _ _
    | p :: ps =>
      obtain ⟨q, hq⟩ := List.exists_mem_of_ne_nil _ (ih p List.mem_cons_self)
      obtain ⟨qs, hqs, -⟩ := exists_mem_expandAll ih List.mem_cons_self hq
      exact List.ne_nil_of_mem (mem_expand_group.mpr ⟨qs, hqs, rfl⟩)
  | @either ps hne _ ih =>
    obtain ⟨p, hp⟩ := List.exists_mem_of_ne_nil _ hne
    obtain ⟨q, hq⟩ := List.exists_mem_of_ne_nil _ (ih p hp)
    exact List.ne_nil_of_mem (mem_expandEach.mpr ⟨p, hp, hq⟩)

/-- Every leaf belongs to some choice. -/
theorem Branched.exists_choice (h : Branched p) (hl : l ∈ p.leaves) :
    ∃ q ∈ p.expand, l ∈ q.leaves := by
  induction h with
  | option | command | argument | shortcut => exact ⟨_, List.mem_singleton_self _, hl⟩
  | group h ih =>
    obtain ⟨p, hp, hl⟩ := mem_leaves_group.mp hl
    obtain ⟨q, hq, hl⟩ := ih p hp hl
    obtain ⟨qs, hqs, hmem⟩ := exists_mem_expandAll (fun p hp => (h p hp).expand_ne_nil) hp hq
    exact ⟨_, mem_expand_group.mpr ⟨qs, hqs, rfl⟩, mem_leaves_group.mpr ⟨q, hmem, hl⟩⟩
  | either _ _ ih =>
    obtain ⟨p, hp, hl⟩ := mem_leaves_either.mp hl
    obtain ⟨q, hq, hl⟩ := ih p hp hl
    exact ⟨q, mem_expandEach.mpr ⟨p, hp, hq⟩, hl⟩

/-! ## Arguments -/

/-- An argument has the name. Values of options are not entered. -/
def NamesArgument (name : String) (p : Pattern) : Prop :=
  ∃ leaf : Leaf, .argument leaf ∈ p.leaves ∧ name ∈ leaf.names.toList

theorem NamesArgument.usagesOfLine {keep : Shortcut → Bool} {line : Pattern}
    (h : NamesArgument name line) : ∃ u ∈ Help.usagesOfLine keep line, NamesArgument name u := by
  have simplified {p : Pattern} (h : NamesArgument name p) :
      ∃ q, p.simplifyWith keep = some q ∧ NamesArgument name q := by
    obtain ⟨leaf, hleaf, hname⟩ := ((distils_simplifyWith keep p).names name).mpr h
    cases hs : p.simplifyWith keep with
    | none =>
      rw [hs] at hleaf
      cases hleaf
    | some q =>
      rw [hs] at hleaf
      exact ⟨q, rfl, leaf, hleaf, hname⟩
  have hhidden : NamesArgument name (line.hideOptions (Help.spelledNames line)) := by
    obtain ⟨leaf, hleaf, hname⟩ := h
    refine ⟨leaf, ?_, hname⟩
    rw [leaves_hideOptions]
    exact List.mem_map_of_mem (f := hideOptions _) hleaf
  obtain ⟨p, hp, leaf, hleaf, hname⟩ := simplified hhidden
  obtain ⟨q, hq, hleaf⟩ := (branched_simplifyWith hp).exists_choice hleaf
  obtain ⟨u, hu, leaf, hleaf, hname⟩ := simplified ⟨leaf, hleaf, hname⟩
  have hu' : u.optionsAhead ∈ Help.usagesOfLine keep line := by
    simp only [Help.usagesOfLine, hp, Option.getD_some]
    exact List.mem_map.mpr ⟨q, hq, by rw [hu, Option.getD_some]⟩
  exact ⟨_, hu', leaf, (leaves_optionsAhead u).mem_iff.mpr hleaf, hname⟩

end Pattern

open Pattern (NamesArgument)

/-! ## Results -/

namespace Help

/-- A line of the usage section: its words, what they stand for, and what that becomes when
every option has the names and the value of its declaration. -/
structure UsageLine where
  words : List Lexeme
  written : List Pattern
  completed : Pattern

def UsageLine.read (config : Config) (registry : Registry) (d : Declarations) (line : List Char) :
    Except BuildError UsageLine := do
  let words ← usageWords config line
  let written ← parseLine config registry line words
  return ⟨words, written, ← d.resolve (.required written)⟩

/-- The lines of the usage section of a help text. -/
def readUsages (config : Config) (doc : String) : Except BuildError (List UsageLine) := do
  let some usage := usageSection? config doc.toList | throw .missingUsage
  let rest := Text.removeFirst usage.raw.toList doc.toList
  let (registry, _) ← parseSections config (optionsSections config rest)
  let lines ← parseUsages config registry usage.body
  let d ← (lines.flatMap Pattern.options).foldlM Declarations.addInline { registry }
  (usageLines usage.body).mapM (UsageLine.read config registry d)

variable {config : Config} {doc : String} {lines : List UsageLine} {l : UsageLine}

theorem parseLine_of_readUsages (h : readUsages config doc = .ok lines) (hl : l ∈ lines) :
    ∃ registry line, parseLine config registry line l.words = .ok l.written := by
  unfold readUsages at h
  cases hu : usageSection? config doc.toList with
  | none =>
    simp only [hu] at h
    cases h
  | some usage =>
    simp only [hu, Except.bind_eq_ok] at h
    obtain ⟨⟨registry, texts⟩, -, patterns, -, d, -, h⟩ := h
    obtain ⟨line, -, h⟩ := Except.forall_of_mapM h l hl
    obtain ⟨words, -, h⟩ := Except.bind_eq_ok.mp h
    obtain ⟨written, hwritten, h⟩ := Except.bind_eq_ok.mp h
    obtain ⟨completed, -, h⟩ := Except.bind_eq_ok.mp h
    obtain rfl := Except.ok.inj h
    exact ⟨registry, line, hwritten⟩

/-- A word is a leaf of what its line stands for. -/
theorem argumentNamed_mem_written {name : String} (h : readUsages config doc = .ok lines)
    (hl : l ∈ lines) (hname : .argument name ∈ l.words) :
    .argumentNamed name ∈ l.written.flatMap Pattern.spelling := by
  obtain ⟨registry, line, hread⟩ := parseLine_of_readUsages h hl
  rw [(read_eq_ok_iff.mp hread).spelling_eq]
  exact List.mem_flatMap.mpr ⟨_, hname, List.mem_singleton_self _⟩

/-- Completed lines are read, and to them. -/
theorem CompletedLines.readUsages {registry : Registry} {completed : List Pattern}
    (h : CompletedLines config doc registry completed) :
    ∃ lines, readUsages config doc = .ok lines ∧ lines.map UsageLine.completed = completed := by
  obtain ⟨usage, texts, patterns, d, hu, hr, hw, hd, hc⟩ := h
  have hline : ∀ line p q,
      (do return .required (← parseLine config registry line (← usageWords config line))) =
        Except.ok (ε := BuildError) p → d.resolve p = .ok q →
      ∃ l, UsageLine.read config registry d line = .ok l ∧ l.completed = q := by
    intro line p q hp hq
    obtain ⟨words, hwords, hp⟩ := Except.bind_eq_ok.mp hp
    obtain ⟨written, hwritten, hp⟩ := Except.bind_eq_ok.mp hp
    obtain rfl := Except.ok.inj hp
    refine ⟨⟨words, written, q⟩, ?_, rfl⟩
    simp only [UsageLine.read, Except.bind_eq_ok]
    exact ⟨words, hwords, written, hwritten, q, hq, rfl⟩
  obtain ⟨lines, hlines, hcompleted⟩ := Except.mapM_mapM hline hw hc
  refine ⟨lines, ?_, hcompleted⟩
  simp only [Help.readUsages, hu, Except.bind_eq_ok]
  exact ⟨(registry, texts), hr, patterns, hw, d, hd, hlines⟩

end Help

namespace Grammar

variable {g : Grammar} {config : Config} {doc : String}

theorem namesArgument_of_build {source : SourceText} {registry : Registry} {usages : List Pattern}
    {name : String} {u : Pattern} (h : build config source registry usages = .ok g) (hu : u ∈ usages)
    (hname : NamesArgument name u) : ∃ u ∈ g.usages, NamesArgument name u := by
  obtain ⟨-, -, -, husages, -⟩ := eq_of_build h
  have hunnumbered := Pattern.unnumberedAll_numberAll (registry.number 0).2 usages
  rw [← husages] at hunnumbered
  obtain ⟨leaf, hleaf, hname⟩ := hname
  obtain ⟨u', hu', q, hq, he⟩ :=
    Pattern.exists_leaf_of_unnumberedAll hunnumbered.symm hu hleaf
  cases q with
  | argument leaf' =>
    have hnames : leaf'.names = leaf.names := (Leaf.mk.inj (Pattern.argument.inj he)).1
    exact ⟨u', hu', leaf', hq, hnames ▸ hname⟩
  | option o =>
    rw [Pattern.unnumbered_option] at he
    cases he
  | command | group | either | shortcut => cases he

/-- Whichever usage of a compiled help text matched, there is a key for every argument of a
line, unless that is the value of an option. -/
theorem mem_keys_of_namesArgument (h : compile config doc = .ok g) :
    ∃ lines, Help.readUsages config doc = .ok lines ∧
      ∀ l ∈ lines, ∀ name, NamesArgument name l.completed →
        ∀ raw m, g.matchArgs raw = .ok m → name ∈ m.keys := by
  obtain ⟨source, registry, completed, hcompleted, hb⟩ := completedLines_of_compile h
  obtain ⟨lines, hlines, rfl⟩ := hcompleted.readUsages
  refine ⟨lines, hlines, fun l hl name hname raw m hm => ?_⟩
  obtain ⟨u, hu, hname⟩ := hname.usagesOfLine
  obtain ⟨u, hu, leaf, hleaf, hname⟩ := namesArgument_of_build hb
    (List.mem_flatMap.mpr ⟨_, List.mem_map_of_mem hl, hu⟩) hname
  obtain ⟨argv, i, t, -, -, -, rfl⟩ := exists_of_matchArgs hm
  exact mem_keys_assemble_of_leaf hu hleaf (.inr rfl) hname

end Grammar

end Synopsis
