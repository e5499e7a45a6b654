import Synopsis.Help.Compile
import Synopsis.Proofs.Grammar.Numbering

/-! # Compiled usages have no alternations

Every alternation of a usage line is split into usages of its own before the
grammar is built, and nothing after that brings one back.
-/

namespace Synopsis

namespace Pattern

/-- No alternation occurs outside value patterns. -/
inductive Plain : Pattern → Prop
  | option {o : OptionAtom} : Plain (.option o)
  | command {leaf : Leaf} : Plain (.command leaf)
  | argument {leaf : Leaf} : Plain (.argument leaf)
  | group {kind : GroupKind} {children : List Pattern} {repeats : Bool}
      (h : ∀ c ∈ children, Plain c) : Plain (.group kind children repeats)
  | shortcut {s : Shortcut} : Plain (.shortcut s)

mutual

theorem plain_of_mem_expand {q : Pattern} : ∀ {p : Pattern}, q ∈ expand p → Plain q
  | .option _, h | .command _, h | .argument _, h | .shortcut _, h => by
    obtain rfl := List.mem_singleton.mp h
    constructor
  | .group _ _ _, h => by
    obtain ⟨qs, hqs, rfl⟩ := List.mem_map.mp h
    exact .group (plain_of_mem_expandAll hqs)
  | .either _, h => plain_of_mem_expandEach h

theorem plain_of_mem_expandEach {q : Pattern} : ∀ {ps : List Pattern}, q ∈ expandEach ps → Plain q
  | _ :: _, h =>
    (List.mem_append.mp h).elim plain_of_mem_expand plain_of_mem_expandEach

theorem plain_of_mem_expandAll {qs : List Pattern} :
    ∀ {ps : List Pattern}, qs ∈ expandAll ps → ∀ q ∈ qs, Plain q
  | [], h => by
    obtain rfl := List.mem_singleton.mp h
    simp
  | p :: ps, h => by
    obtain ⟨q, hq, h⟩ := List.mem_flatMap.mp h
    obtain ⟨rest, hrest, rfl⟩ := List.mem_map.mp h
    exact List.forall_mem_cons.mpr ⟨plain_of_mem_expand hq, plain_of_mem_expandAll hrest⟩

end

namespace Plain

variable {keep : Shortcut → Bool} {kind : GroupKind} {repeats : Bool} {p q : Pattern}
  {ps : List Pattern}

theorem children (h : Plain (.group kind ps repeats)) : ∀ c ∈ ps, Plain c := by
  cases h with
  | group h => exact h

theorem singleton (h : Plain p) : Plain (.group kind [p] repeats) :=
  .group (by simpa using h)

theorem absorb (h : Plain p) : Plain (absorb kind repeats p) := by
  unfold Pattern.absorb
  split
  · exact .group h.children
  · split
    · exact h.singleton
    · exact .group h.children
  · exact h.singleton

theorem collapse (h : ∀ p ∈ ps, Plain p) (hq : collapse kind repeats ps = some q) : Plain q := by
  match ps with
  | [] => cases hq
  | [only] =>
    obtain rfl := Option.some.inj hq
    exact (h only (by simp)).absorb
  | _ :: _ :: _ =>
    obtain rfl := Option.some.inj hq
    exact .group h

theorem mem_simplifyAll : q ∈ simplifyAll keep ps ↔ ∃ p ∈ ps, simplifyWith keep p = some q := by
  induction ps with
  | nil => simp [simplifyAll]
  | cons p ps ih => simp [simplifyAll, ih]

theorem simplifyWith (h : Plain p) (hq : p.simplifyWith keep = some q) : Plain q := by
  induction h generalizing q with
  | option | command | argument =>
    obtain rfl := Option.some.inj hq
    constructor
  | group _ ih =>
    refine collapse ?_ hq
    intro r hr
    obtain ⟨c, hc, hr⟩ := mem_simplifyAll.mp hr
    exact ih c hc hr
  | shortcut =>
    simp only [Pattern.simplifyWith] at hq
    split at hq
    · obtain rfl := Option.some.inj hq
      exact .shortcut
    · cases hq

theorem optionsAheadAll_eq_map : optionsAheadAll ps = ps.map optionsAhead := by
  induction ps with
  | nil => rfl
  | cons p ps ih => simp [optionsAheadAll, ih]

theorem optionsAhead (h : Plain p) : Plain p.optionsAhead := by
  induction h with
  | option | command | argument | shortcut => constructor
  | group _ ih =>
    refine .group ?_
    intro c hc
    have hc : c ∈ optionsAheadAll _ :=
      (List.mem_append.mp hc).elim (List.mem_filter.mp · |>.1) (List.mem_filter.mp · |>.1)
    rw [optionsAheadAll_eq_map] at hc
    obtain ⟨r, hr, rfl⟩ := List.mem_map.mp hc
    exact ih r hr

mutual

theorem number (next : Nat) : ∀ {p : Pattern}, Plain p → Plain (number next p).1
  | .option ⟨_, none, _, _⟩, _ => .option
  | .option ⟨_, some _, _, _⟩, _ => .option
  | .command _, _ => .command
  | .argument _, _ => .argument
  | .group _ _ _, h => .group (numberAll next h.children)
  | .shortcut _, _ => .shortcut

theorem numberAll (next : Nat) : ∀ {ps : List Pattern}, (∀ p ∈ ps, Plain p) →
    ∀ q ∈ (numberAll next ps).1, Plain q
  | [], _ => by simp [Pattern.numberAll]
  | p :: ps, h => by
    rw [List.forall_mem_cons] at h
    exact List.forall_mem_cons.mpr ⟨number next h.1, numberAll _ h.2⟩

end

end Plain

end Pattern

open Pattern (Plain)

namespace Help

theorem plain_of_mem_usagesOfLine {keep : Shortcut → Bool} {line q : Pattern}
    (h : q ∈ usagesOfLine keep line) : Plain q := by
  obtain ⟨p, hp, rfl⟩ := List.mem_map.mp h
  apply Plain.optionsAhead
  show Plain ((p.simplifyWith keep).getD (.optional []))
  cases hs : p.simplifyWith keep with
  | none => exact .group (by simp)
  | some r => exact (Pattern.plain_of_mem_expand hp).simplifyWith hs

theorem plain_of_mem_usagesOfLines {config : Config} {registry : Registry}
    {lines usages : List Pattern} (h : usagesOfLines config registry lines = .ok usages) :
    ∀ q ∈ usages, Plain q := by
  simp only [usagesOfLines, Except.bind_eq_ok] at h
  obtain ⟨declarations, -, resolved, -, h⟩ := h
  obtain rfl := Except.ok.inj h
  intro q hq
  obtain ⟨line, -, hq⟩ := List.mem_flatMap.mp hq
  exact plain_of_mem_usagesOfLine hq

end Help

namespace Grammar

variable {g : Grammar} {config : Config} {doc : String}

/-- A compiled grammar is built from usages without alternations. -/
theorem build_of_compile (h : compile config doc = .ok g) :
    ∃ source registry usages, build config source registry usages = .ok g ∧
      ∀ q ∈ usages, Plain q := by
  unfold compile at h
  cases hu : Help.usageSection? config doc.toList with
  | none =>
    simp only [hu] at h
    cases h
  | some usage =>
    simp only [hu, Except.bind_eq_ok] at h
    obtain ⟨⟨registry, texts⟩, -, lines, -, usages, husages, h⟩ := h
    exact ⟨_, registry, usages, h, Help.plain_of_mem_usagesOfLines husages⟩

theorem plain_of_compile (h : compile config doc = .ok g) : ∀ q ∈ g.usages, Plain q := by
  obtain ⟨source, registry, usages, hb, hp⟩ := build_of_compile h
  obtain ⟨-, -, -, hu, -⟩ := eq_of_build hb
  rw [hu]
  exact Plain.numberAll _ hp

theorem distinct_of_compile (h : compile config doc = .ok g) :
    Pattern.Distinct g.scope g.usages := by
  obtain ⟨source, registry, usages, hb, -⟩ := build_of_compile h
  exact distinct_of_build hb

end Grammar

end Synopsis
