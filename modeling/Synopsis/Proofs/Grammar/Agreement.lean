import Synopsis.Proofs.Grammar.Options
import Synopsis.Proofs.Help.Rejection
import Synopsis.Proofs.Outcomes

/-! # Declarations and usages agree

In a compiled grammar each name belongs to one declared option, and all mentions of an
option agree on what it takes. A help text in which they do not is rejected.
-/

namespace Synopsis.Grammar

open Help (Clash Disagreement)

theorem Agree.valueArity_eq {o p : OptionAtom} (h : Agree o p) : o.valueArity = p.valueArity := by
  rcases h.value_eq with hv | ⟨ho, hp⟩
  · rw [← o.valueArity_unnumbered, ← p.valueArity_unnumbered, OptionOf.valueArity,
      OptionOf.valueArity, hv]
  · rw [ho, hp]

/-- Options of usages are as they are declared, and any two mentions of one option take
the same numbers of values. Otherwise the help text is not compiled: the error is that of
a name that sections declare twice, or that of two mentions which disagree. -/
theorem compile_agrees_or_rejects (config : Config) (doc : String) :
    (∀ g, compile config doc = .ok g →
      g.registry.names.Nodup ∧
      (∀ u ∈ g.usages, ∀ o ∈ u.options, ∀ k repeats, (k, repeats) ∈ g.registry.options →
        ∀ name ∈ o.names.toList, name ∈ k.names.toList →
          o.names = k.names ∧ o.valueArity = k.valueArity) ∧
      ∀ o ∈ g.options, ∀ p ∈ g.options, ∀ name ∈ o.names.toList, name ∈ p.names.toList →
        o.valueArity = p.valueArity) ∧
    ∀ usage, Help.usageSection? config doc.toList = some usage →
      let sections := Help.optionsSections config (Text.removeFirst usage.raw.toList doc.toList)
      (∀ groups, sections.mapM (fun s => Help.parseOptions config s.title s.body) = .ok groups →
        ¬ (groups.flatMap OptionGroup.names).Nodup →
          ∃ name, compile config doc = .error (.duplicateOption name)) ∧
      ∀ registry texts lines, Help.parseSections config sections = .ok (registry, texts) →
        Help.parseUsages config registry usage.body = .ok lines → Clash registry lines →
          ∃ e, compile config doc = .error e ∧ Disagreement e := by
  refine ⟨fun g h => ?_, fun usage hu => ⟨fun groups hgroups hdup => ?_, ?_⟩⟩
  · have hg := coherent_of_compile h
    refine ⟨hg.registry.nodup, ?_, ?_⟩
    · intro u hu o ho k repeats hk name hname hname'
      have hagree := hg.agree o (List.mem_append_right _ (List.mem_flatMap.mpr ⟨u, hu, ho⟩)) k
        (List.mem_append_left _ (List.mem_map.mpr ⟨_, hk, rfl⟩)) name hname hname'
      exact ⟨hagree.names_eq, hagree.valueArity_eq⟩
    · intro o ho p hp name hname hname'
      exact (hg.agree o ho p hp name hname hname').valueArity_eq
  · obtain ⟨name, hname⟩ := Help.duplicate_of_parseSections hgroups hdup
    refine ⟨name, ?_⟩
    simp [compile, hu, hname, bind, Except.bind]
  · intro registry texts lines hr hl hc
    obtain ⟨e, he, hd⟩ : ∃ e, Help.usagesOfLines config registry lines = .error e ∧ Disagreement e :=
      Help.disagreement_of_clash (Help.proper_parseSections hr) (fun p hp => (Help.allWritten_parseUsages hl p hp).2) hc
    refine ⟨e, ?_, hd⟩
    simp [compile, hu, hr, hl, he, bind, Except.bind]

/-- An option is completed from its section; a name in two entries, and values of one and
of two arguments, are rejected. -/
theorem contradictions_are_rejected :
    (∃ g, compile {} "Usage: prog -a\n\nOptions:\n  -a, --all  All." = .ok g ∧
      ∀ u ∈ g.usages, ∀ o ∈ u.options, ∀ k repeats, (k, repeats) ∈ g.registry.options →
        ∀ name ∈ o.names.toList, name ∈ k.names.toList →
          o.names = k.names ∧ o.valueArity = k.valueArity) ∧
    (∃ name, compile {} "Usage: prog\n\nOptions:\n  -a  A.\n  -b, -a  B." =
      .error (.duplicateOption name)) ∧
    ∃ e, compile {} "Usage: prog --at=<x> | --at=(<x> <y>)" = .error e ∧ Disagreement e := by
  refine ⟨?_, ?_, ?_⟩
  · obtain ⟨g, hg, -⟩ : ∃ g, compile {} "Usage: prog -a\n\nOptions:\n  -a, --all  All." = .ok g ∧ True := by
      decide +kernel
    exact ⟨g, hg, ((compile_agrees_or_rejects _ _).1 g hg).2.1⟩
  · let doc := "Usage: prog\n\nOptions:\n  -a  A.\n  -b, -a  B."
    obtain ⟨usage, husage, groups, hgroups, hdup⟩ :
        ∃ usage, Help.usageSection? {} doc.toList = some usage ∧
          ∃ groups, (Help.optionsSections {} (Text.removeFirst usage.raw.toList doc.toList)).mapM
            (fun s => Help.parseOptions {} s.title s.body) = .ok groups ∧
            ¬ (groups.flatMap OptionGroup.names).Nodup := by decide +kernel
    exact ((compile_agrees_or_rejects {} doc).2 usage husage).1 groups hgroups hdup
  · let doc := "Usage: prog --at=<x> | --at=(<x> <y>)"
    let x : Pattern := .argument ⟨.singleton "<x>", 0⟩
    let y : Pattern := .argument ⟨.singleton "<y>", 0⟩
    let one : OptionAtom := ⟨.singleton "--at", some (.required [x]), none, 0⟩
    let two : OptionAtom := ⟨.singleton "--at", some (.required [x, y]), none, 0⟩
    obtain ⟨usage, husage, sections, hsections, lines, hlines, hread⟩ :
        ∃ usage, Help.usageSection? {} doc.toList = some usage ∧
          ∃ sections, Help.parseSections {} (Help.optionsSections {}
            (Text.removeFirst usage.raw.toList doc.toList)) = .ok sections ∧
            ∃ lines, Help.parseUsages {} sections.1 usage.body = .ok lines ∧
              lines = [.required [.either [.required [.option one], .required [.option two]]]] := by
      decide +kernel
    subst hread
    refine ((compile_agrees_or_rejects {} doc).2 usage husage).2 _ _ _ hsections hlines ?_
    have hone : "--at" ∈ one.names.toList := .head _
    have htwo : "--at" ∈ two.names.toList := .head _
    exact .line (.head _) (.tail _ (.head _)) rfl rfl hone htwo (by decide)

end Synopsis.Grammar
