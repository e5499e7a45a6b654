import Mathlib.Algebra.BigOperators.Group.List.Basic
import Mathlib.Data.List.Flatten
import Mathlib.Data.List.Lex
import Synopsis.Proofs.Help.Choices

/-! # Every choice once

A choice takes one branch of an alternation, and then of each alternation inside that
branch; the branches that it did not take offer nothing to choose from. Written down from
left to right, the places of the chosen branches tell all choices of a pattern apart, and
expansion lists the choices in the order of these words.
-/

namespace Synopsis.Pattern

mutual

/-- What becomes of a pattern when the branches at some places are chosen, from left to
right, in each alternation that is met. Values of options are not entered. -/
inductive Chosen : Pattern → List Nat → Pattern → Prop
  | leaf {p : Pattern} (h : p.isInner = false) : Chosen p [] p
  | group {kind : GroupKind} {ps qs : List Pattern} {is : List Nat} {repeats : Bool}
      (h : ChosenAll ps is qs) : Chosen (.group kind ps repeats) is (.group kind qs repeats)
  | either {ps : List Pattern} {p q : Pattern} {i : Nat} {is : List Nat} (hp : ps[i]? = some p)
      (h : Chosen p is q) : Chosen (.either ps) (i :: is) q

inductive ChosenAll : List Pattern → List Nat → List Pattern → Prop
  | nil : ChosenAll [] [] []
  | cons {p q : Pattern} {ps qs : List Pattern} {is js : List Nat} (h : Chosen p is q)
      (hs : ChosenAll ps js qs) : ChosenAll (p :: ps) (is ++ js) (q :: qs)

end

mutual

/-- How many choices there are: of one branch or another, and for each child. -/
def choiceCount : Pattern → Nat
  | .either branches => choiceSum branches
  | .group _ children _ => choiceProduct children
  | _ => 1

def choiceSum : List Pattern → Nat
  | [] => 0
  | p :: ps => choiceCount p + choiceSum ps

def choiceProduct : List Pattern → Nat
  | [] => 1
  | p :: ps => choiceCount p * choiceProduct ps

end

/-! ## Words that part -/

/-- Behind what two words have in common, a smaller number stands against a greater one. -/
def Parts (is js : List Nat) : Prop :=
  ∃ front i j is' js', is = front ++ i :: is' ∧ js = front ++ j :: js' ∧ i < j

namespace Parts

variable {is js : List Nat} {i j : Nat}

theorem of_lt (h : i < j) : Parts (i :: is) (j :: js) := ⟨[], i, j, is, js, rfl, rfl, h⟩

theorem behind (front : List Nat) (h : Parts is js) : Parts (front ++ is) (front ++ js) := by
  obtain ⟨front', i, j, is', js', rfl, rfl, hlt⟩ := h
  exact ⟨front ++ front', i, j, is', js', by simp, by simp, hlt⟩

theorem before (h : Parts is js) (is' js' : List Nat) : Parts (is ++ is') (js ++ js') := by
  obtain ⟨front, i, j, is, js, rfl, rfl, hlt⟩ := h
  exact ⟨front, i, j, is ++ is', js ++ js', by simp, by simp, hlt⟩

theorem lt (h : Parts is js) : is < js := by
  obtain ⟨front, i, j, is', js', rfl, rfl, hlt⟩ := h
  exact List.append_left_lt (List.Lex.rel hlt)

end Parts

/-! ## The choices in order -/

mutual

/-- The choices of a pattern with what becomes of it. -/
def choices : Pattern → List (List Nat × Pattern)
  | .either branches => choicesEach 0 branches
  | .group kind children repeats =>
    (choicesAll children).map fun c => (c.1, .group kind c.2 repeats)
  | p => [([], p)]

/-- The choices of the branches that begin at some place. -/
def choicesEach (place : Nat) : List Pattern → List (List Nat × Pattern)
  | [] => []
  | p :: ps => (choices p).map (fun c => (place :: c.1, c.2)) ++ choicesEach (place + 1) ps

def choicesAll : List Pattern → List (List Nat × List Pattern)
  | [] => [([], [])]
  | p :: ps => (choices p).flatMap fun c => (choicesAll ps).map fun d => (c.1 ++ d.1, c.2 :: d.2)

end

mutual

theorem map_choices : ∀ p : Pattern, (choices p).map (·.2) = p.expand
  | .option _ | .command _ | .argument _ | .shortcut _ => rfl
  | .group _ ps _ => by
    rw [choices, expand, ← map_choicesAll ps, List.map_map, List.map_map]
    rfl
  | .either ps => map_choicesEach 0 ps

theorem map_choicesEach (place : Nat) : ∀ ps : List Pattern,
    (choicesEach place ps).map (·.2) = expandEach ps
  | [] => rfl
  | p :: ps => by
    rw [choicesEach, expandEach, List.map_append, List.map_map, map_choicesEach (place + 1) ps,
      ← map_choices p]
    rfl

theorem map_choicesAll : ∀ ps : List Pattern, (choicesAll ps).map (·.2) = expandAll ps
  | [] => rfl
  | p :: ps => by
    rw [choicesAll, expandAll, ← map_choices p, ← map_choicesAll ps, List.map_flatMap,
      List.flatMap_map]
    simp only [List.map_map]
    rfl

end

mutual

/-- What is listed is what can be chosen. -/
theorem mem_choices {is : List Nat} {q : Pattern} : ∀ {p : Pattern},
    (is, q) ∈ choices p ↔ Chosen p is q
  | .option _ | .command _ | .argument _ | .shortcut _ => by
    simp only [choices, List.mem_singleton, Prod.mk.injEq]
    constructor
    · rintro ⟨rfl, rfl⟩
      exact .leaf rfl
    · rintro ⟨⟩
      exact ⟨rfl, rfl⟩
  | .group kind ps repeats => by
    rw [choices, List.mem_map]
    constructor
    · rintro ⟨c, hc, h⟩
      obtain ⟨rfl, rfl⟩ := Prod.mk.inj h
      exact .group (mem_choicesAll.mp hc)
    · intro h
      cases h with
      | leaf h => cases h
      | group h => exact ⟨_, mem_choicesAll.mpr h, rfl⟩
  | .either ps => by
    rw [choices, mem_choicesEach]
    constructor
    · rintro ⟨i, is, p, rfl, hp, h⟩
      rw [Nat.zero_add]
      exact .either hp h
    · intro h
      cases h with
      | leaf h => cases h
      | either hp h => exact ⟨_, _, _, by rw [Nat.zero_add], hp, h⟩

theorem mem_choicesEach {is : List Nat} {q : Pattern} : ∀ {place : Nat} {ps : List Pattern},
    (is, q) ∈ choicesEach place ps ↔
      ∃ i js p, is = (place + i) :: js ∧ ps[i]? = some p ∧ Chosen p js q
  | _, [] => by simp [choicesEach]
  | place, p :: ps => by
    rw [choicesEach, List.mem_append, List.mem_map, mem_choicesEach]
    constructor
    · rintro (⟨c, hc, h⟩ | ⟨i, js, r, rfl, hr, h⟩)
      · obtain ⟨rfl, rfl⟩ := Prod.mk.inj h
        exact ⟨0, c.1, p, rfl, rfl, mem_choices.mp hc⟩
      · exact ⟨i + 1, js, r, by rw [Nat.add_right_comm, Nat.add_assoc], hr, h⟩
    · rintro ⟨i, js, r, rfl, hr, h⟩
      cases i with
      | zero =>
        obtain rfl := Option.some.inj hr
        exact .inl ⟨(js, q), mem_choices.mpr h, rfl⟩
      | succ i => exact .inr ⟨i, js, r, by rw [Nat.add_right_comm, Nat.add_assoc], hr, h⟩

theorem mem_choicesAll {is : List Nat} {qs : List Pattern} : ∀ {ps : List Pattern},
    (is, qs) ∈ choicesAll ps ↔ ChosenAll ps is qs
  | [] => by
    rw [choicesAll, List.mem_singleton, Prod.mk.injEq]
    constructor
    · rintro ⟨rfl, rfl⟩
      exact .nil
    · rintro ⟨⟩
      exact ⟨rfl, rfl⟩
  | p :: ps => by
    simp only [choicesAll, List.mem_flatMap, List.mem_map]
    constructor
    · rintro ⟨c, hc, d, hd, h⟩
      obtain ⟨rfl, rfl⟩ := Prod.mk.inj h
      exact .cons (mem_choices.mp hc) (mem_choicesAll.mp hd)
    · rintro ⟨⟩
      rename_i h hs
      exact ⟨_, mem_choices.mpr h, _, mem_choicesAll.mpr hs, rfl⟩

end

mutual

theorem choices_part : ∀ p : Pattern, ((choices p).map (·.1)).Pairwise Parts
  | .option _ | .command _ | .argument _ | .shortcut _ => List.pairwise_singleton _ _
  | .group _ ps _ => by
    rw [choices, List.map_map]
    exact choicesAll_part ps
  | .either ps => choicesEach_part 0 ps

theorem choicesEach_part (place : Nat) : ∀ ps : List Pattern,
    ((choicesEach place ps).map (·.1)).Pairwise Parts
  | [] => .nil
  | p :: ps => by
    rw [choicesEach, List.map_append, List.map_map, List.pairwise_append]
    refine ⟨?_, choicesEach_part (place + 1) ps, ?_⟩
    · have hp := choices_part p
      rw [List.pairwise_map] at hp ⊢
      exact hp.imp fun h => h.behind [place]
    · -- The branches that follow lie at later places.
      intro is his js hjs
      obtain ⟨c, -, rfl⟩ := List.mem_map.mp his
      obtain ⟨d, hd, rfl⟩ := List.mem_map.mp hjs
      obtain ⟨i, js, r, hjs, -, -⟩ := mem_choicesEach.mp hd
      rw [hjs]
      exact .of_lt (by omega)

theorem choicesAll_part : ∀ ps : List Pattern, ((choicesAll ps).map (·.1)).Pairwise Parts
  | [] => List.pairwise_singleton _ _
  | p :: ps => by
    have hp := choices_part p
    have hps := choicesAll_part ps
    rw [List.pairwise_map] at hp hps
    rw [choicesAll, List.map_flatMap, List.pairwise_flatMap]
    constructor
    · intro c _
      rw [List.map_map, List.pairwise_map]
      exact hps.imp fun h => h.behind c.1
    · refine hp.imp fun {c c'} h is his js hjs => ?_
      rw [List.map_map, List.mem_map] at his hjs
      obtain ⟨d, -, rfl⟩ := his
      obtain ⟨d', -, rfl⟩ := hjs
      exact h.before d.1 d'.1

end

mutual

theorem length_expand : ∀ p : Pattern, p.expand.length = p.choiceCount
  | .option _ | .command _ | .argument _ | .shortcut _ => rfl
  | .group _ ps _ => by
    rw [expand, List.length_map, length_expandAll ps, choiceCount]
  | .either ps => length_expandEach ps

theorem length_expandEach : ∀ ps : List Pattern, (expandEach ps).length = choiceSum ps
  | [] => rfl
  | p :: ps => by
    rw [expandEach, List.length_append, length_expand p, length_expandEach ps, choiceSum]

theorem length_expandAll : ∀ ps : List Pattern, (expandAll ps).length = choiceProduct ps
  | [] => rfl
  | p :: ps => by
    rw [expandAll, List.length_flatMap]
    simp only [List.length_map, length_expandAll ps]
    rw [List.map_const', List.sum_replicate, length_expand p, choiceProduct,
      Nat.nsmul_eq_mul]

end

/-- Expansion lists what becomes of a pattern under each choice, once and in the order of
the choices. Nothing is left to choose in what it lists, so none of the usages of a help
text holds an alternation. -/
theorem expand_enumerates (p : Pattern) :
    (∃ choices : List (List Nat × Pattern), p.expand = choices.map (·.2) ∧
      (choices.map (·.1)).Pairwise (· < ·) ∧ ∀ is q, (is, q) ∈ choices ↔ Chosen p is q) ∧
    (∀ q ∈ p.expand, q.Plain ∧ q.expand = [q]) ∧
    p.expand.length = p.choiceCount ∧
    ∀ config registry lines usages,
      Help.usagesOfLines config registry lines = .ok usages → ∀ u ∈ usages, u.Plain := by
  refine ⟨⟨choices p, (map_choices p).symm, ?_, fun _ _ => mem_choices⟩, fun q hq => ?_,
    length_expand p, fun _ _ _ _ => Help.plain_of_mem_usagesOfLines⟩
  · exact (choices_part p).imp Parts.lt
  · have hplain : q.Plain := plain_of_mem_expand hq
    exact ⟨hplain, hplain.expand_eq⟩

/-- The inner alternation stands in the first branch only, so there are three choices, and
a usage line with it gives three usages. -/
theorem three_choices_of_nested_branches :
    let line := required [.either [.optional [.either [.commandNamed "a", .commandNamed "b"]],
      .commandNamed "c"]]
    line.expand.length = 3 ∧ Chosen line [0, 1] (required [.optional [.commandNamed "b"]]) ∧
      ∃ usages, Help.usagesOfLines {} {} [line] = .ok usages ∧ usages.length = 3 ∧
        ∀ u ∈ usages, u.Plain := by
  intro line
  obtain ⟨-, -, hlength, husages⟩ := expand_enumerates line
  refine ⟨hlength, ?_, _, rfl, rfl, husages {} {} [line] _ rfl⟩
  exact .group (.cons (.either rfl (.group (.cons (.either rfl (.leaf rfl)) .nil))) .nil)

end Synopsis.Pattern
