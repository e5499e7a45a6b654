import Synopsis.Grammar.Match
import Synopsis.Proofs.Grammar.Dashes
import Synopsis.Proofs.Grammar.Shortcuts
import Synopsis.Proofs.Matcher.Exclusion
import Synopsis.Proofs.Outcomes

/-! # Alternations of a grammar

A usage holds one branch of each alternation of its line. An alternation in the value of
an option is tried again while its line takes anything; each try answers by one branch,
and only branches that some try chose have anything in their slots.
-/

namespace Synopsis

open Pattern (Reaches slots)

namespace Grammar

variable {g : Grammar} {config : Config} {doc : String} {i : Nat} {argv : Argv} {t : Attempt}

/-- A usage that matches represents one choice of branches of its line, and fills none but
its own slots and those of the declared options. An alternation that is left in it is one
in the value of an option. Each try of it answers by one branch, whose answer it is, and
leaves the slots alone that this branch cannot reach. A branch has something in its slots
after the match, or after any call on a part of the usage around the alternation, only if
one of the tries chose it. -/
theorem matchAlternative_chooses_branches (hg : compile config doc = .ok g)
    (h : g.matchAlternative i ⟨.blank g.slotCount, argv⟩ = .ok true t) :
    ∃ start ∈ g.call? i ⟨.blank g.slotCount, argv⟩,
      (∃ registry lines, Help.CompletedLines config doc registry lines ∧
        ∃ line ∈ lines, ∃ choice ∈ line.expand, Pattern.Represents
          (fun s => (g.registry.announced s g.scope.named).any line.leavesOut) start.pattern
          (choice.hideOptions (Help.spelledNames line))) ∧
      (∀ j, (t.slots.get j).isSet = true → j ∈ slots (g.registry.entries ++ [start.pattern])) ∧
      ∀ branches, Reaches g.scope start.pattern (.either branches) →
        (∀ a, start.LeadsTo g.scope a → a.pattern = .either branches →
          ∀ t', a.answer g.scope = .ok true t' → ∃ d, a.Chooses g.scope d ∧ d.pattern ∈ branches ∧
            ∀ j, (∀ q, Reaches g.scope d.pattern q → q.slot? ≠ some j) →
              t'.slots.get j = a.state.slots.get j) ∧
        (∀ p ∈ branches, ∀ j ∈ slots [p], (t.slots.get j).isSet = true →
          start.Settles g.scope branches p) ∧
        ∀ c, start.LeadsTo g.scope c → Reaches .bare c.pattern (.either branches) →
          ∀ p ∈ branches, ∀ j ∈ slots [p], c.Fills g.scope j → c.Settles g.scope branches p := by
  rw [matchAlternative_eq] at h
  cases hstart : g.call? i ⟨.blank g.slotCount, argv⟩ with
  | none =>
    rw [hstart] at h
    cases h
  | some start =>
    rw [hstart] at h
    obtain ⟨u, hu, rfl⟩ := Option.map_eq_some_iff.mp hstart
    have hmem : u ∈ g.usages := List.mem_of_getElem? hu
    have hd := (distinct_of_compile hg).singleton hmem
    have hunset (j : Nat) : ((Slots.blank g.slotCount).get j).isSet = false := by
      rw [Slots.get_blank]
      rfl
    refine ⟨_, rfl, ?_, fun j hj => ?_, fun branches he => ⟨?_, ?_, ?_⟩⟩
    · obtain ⟨registry, lines, hlines, -, husages⟩ := lines_of_compile hg
      obtain ⟨line, hline, -, choice, hchoice, hrest⟩ := husages u hmem
      exact ⟨registry, lines, hlines, line, hline, choice, hchoice, hrest⟩
    · by_contra hnot
      obtain ⟨_, run⟩ := run_of_matchPattern h
      rw [(run.untouched fun q hq hqj => hnot (hq.mem_slots hqj)).get_eq, hunset j] at hj
      cases hj
    · intro a _ ha t' hanswer
      obtain ⟨d, hchooses, hmem, -⟩ := Call.exists_chooses ha hanswer
      exact ⟨d, hchooses, hmem, fun j hj => hchooses.get_eq hanswer hj⟩
    · intro p hp j hj hset
      exact Call.Fills.settles ⟨hunset j, true, t, h, hset⟩ hd he (.inl rfl) hp hj
    · intro c hlead hlies p hp j hj hfills
      exact hfills.settles hd he (.inr ⟨hlead.reaches, hlies⟩) hp hj

/-- The usage of `--opt=(go <a>|run <b>)` and its branches. -/
def goOrRun : List Pattern :=
  [.required [.command ⟨.singleton "go", 1⟩, .argument ⟨.singleton "<a>", 2⟩],
    .required [.command ⟨.singleton "run", 3⟩, .argument ⟨.singleton "<b>", 4⟩]]

def goOrRunUsage : Pattern :=
  .required [.option ⟨.singleton "--opt", some (.required [.either goOrRun]), none, 0⟩]

theorem reaches_goOrRun (scope : Scope) : Reaches scope goOrRunUsage (.either goOrRun) :=
  .child List.mem_cons_self (.value rfl (.child List.mem_cons_self .refl))

/-- `--opt run 1` fills the second branch, which a try of the alternation chose. -/
theorem second_branch_is_chosen :
    ∃ g argv t start branches p, compile {} "Usage: prog --opt=(go <a>|run <b>)" = .ok g ∧
      g.tokenize ["--opt", "run", "1"] = .ok argv ∧
      g.matchAlternative 0 ⟨.blank g.slotCount, argv⟩ = .ok true t ∧
      g.call? 0 ⟨.blank g.slotCount, argv⟩ = some start ∧
      Reaches g.scope start.pattern (.either branches) ∧ p ∈ branches ∧ 4 ∈ slots [p] ∧
      t.slots.get 4 = .text "1" ∧ start.Settles g.scope branches p := by
  obtain ⟨g, hg, argv, hr, ⟨start, hs, hpattern⟩, t, h, ht⟩ :
      ∃ g, compile {} "Usage: prog --opt=(go <a>|run <b>)" = .ok g ∧
        ∃ argv, g.tokenize ["--opt", "run", "1"] = .ok argv ∧
          (∃ start, g.call? 0 ⟨.blank g.slotCount, argv⟩ = some start ∧
            start.pattern = goOrRunUsage) ∧
          ∃ t, g.matchAlternative 0 ⟨.blank g.slotCount, argv⟩ = .ok true t ∧
            t.slots.get 4 = .text "1" := by decide +kernel
  have he : Reaches g.scope start.pattern (.either goOrRun) := hpattern ▸ reaches_goOrRun _
  have hp : goOrRun[1] ∈ goOrRun := List.getElem_mem _
  have hj : 4 ∈ slots [goOrRun[1]] := by decide
  obtain ⟨start', hs', -, -, halternation⟩ := matchAlternative_chooses_branches hg h
  obtain rfl := Option.some.inj (hs.symm.trans hs')
  have hset : (t.slots.get 4).isSet = true := by
    rw [ht]
    rfl
  exact ⟨g, argv, t, start, goOrRun, _, hg, hr, h, hs, he, hp, hj, ht,
    (halternation goOrRun he).2.1 _ hp 4 hj hset⟩

/-- A line of an alternation that does not repeat is scanned again after `run 1`, and then
the first branch takes `go 2`, so that both branches are filled. -/
theorem both_branches_are_filled :
    ∃ g argv m t u branches p p', compile {} "Usage: prog --opt=(go <a>|run <b>)" = .ok g ∧
      g.tokenize ["--opt", "run", "1", "go", "2"] = .ok argv ∧
      g.matchArgs ["--opt", "run", "1", "go", "2"] = .ok m ∧
      g.matchAlternative 0 ⟨.blank g.slotCount, argv⟩ = .ok true t ∧ g.usages = [u] ∧
      Reaches g.scope u (.either branches) ∧ p ∈ branches ∧ p' ∈ branches ∧ p ≠ p' ∧
      2 ∈ slots [p] ∧ t.slots.get 2 = .text "2" ∧ 4 ∈ slots [p'] ∧ t.slots.get 4 = .text "1" := by
  obtain ⟨g, hg, husages, ⟨m, hm, -⟩, argv, hr, t, h, htwo, hone⟩ :
      ∃ g, compile {} "Usage: prog --opt=(go <a>|run <b>)" = .ok g ∧ g.usages = [goOrRunUsage] ∧
        (∃ m, g.matchArgs ["--opt", "run", "1", "go", "2"] = .ok m ∧ True) ∧
        ∃ argv, g.tokenize ["--opt", "run", "1", "go", "2"] = .ok argv ∧
          ∃ t, g.matchAlternative 0 ⟨.blank g.slotCount, argv⟩ = .ok true t ∧
            t.slots.get 2 = .text "2" ∧ t.slots.get 4 = .text "1" := by decide +kernel
  exact ⟨g, argv, m, t, _, goOrRun, goOrRun[0], goOrRun[1], hg, hr, hm, h, husages, reaches_goOrRun _,
    List.getElem_mem _, List.getElem_mem _, by decide, by decide, htwo, by decide, hone⟩

end Grammar

end Synopsis
