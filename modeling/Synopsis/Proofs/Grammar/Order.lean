import Synopsis.Proofs.Grammar.Soundness
import Synopsis.Proofs.Matcher.Order
import Synopsis.Proofs.Outcomes

/-! # Positionals take their tokens in the order of the usage

As long as they stand on one line, which is the usage itself or a required group in it.
-/

namespace Synopsis.Grammar

open Pattern (Encloses)

variable {g : Grammar} {config : Config} {doc : String} {usage : Pattern} {argv : Argv}
  {i n : Nat} {p q : Positional} {s t : Attempt} {log : List Move} {b : Bool}

/-- The first positional stands to the left of the second one on the line of the usage or
of a required group in it, and nothing around them repeats. -/
def InOrder (usage : Pattern) (p q : Positional) : Prop :=
  ∃ kind ps, ∃ j k : Nat, j < k ∧ ps[j]? = some p.pattern ∧ ps[k]? = some q.pattern ∧
    (usage = .group kind ps false ∨
      kind = .required ∧ usage.Encloses (.group kind ps false))

theorem InOrder.slot_ne {scope : Scope} (h : InOrder usage p q)
    (hd : Pattern.Distinct scope [usage]) : p.slot ≠ q.slot := by
  obtain ⟨kind, ps, j, k, hjk, hp, hq, hline⟩ := h
  have he : usage.Encloses (.group kind ps false) := by
    rcases hline with rfl | ⟨-, he⟩
    · exact .refl
    · exact he
  intro heq
  have hline := (he.distinct hd).children
  exact Nat.ne_of_lt hjk (hline.getElem?_inj hp hq p.slot_mem (heq ▸ q.slot_mem))

/-- From an empty table on, positionals in order take in turn. -/
theorem InOrder.inTurn {scope : Scope} {size : Nat} (h : InOrder usage p q)
    (hd : Pattern.Distinct scope [usage])
    (run : Run scope n false usage ⟨.blank size, argv⟩ log b t) : InTurn p.slot q.slot log := by
  obtain ⟨kind, ps, j, k, hjk, hp, hq, rfl | ⟨rfl, he⟩⟩ := h
  · cases n with
    | zero => exact run.elim
    | succ n =>
      have swept {xs : List Scanned} {log : List Move} {t : Attempt}
          (scan : Scan (Run scope n false) ps ⟨.blank size, argv⟩ log xs t) :
          InTurn p.slot q.slot log :=
        (scan.swept hd.children hjk hp hq (noneFilled_blank size)).1.turn
      cases (run : OnceRun (Run scope n false) ps kind _ log b t) with
      | optional scan => exact swept scan
      | required run =>
        cases run with
        | matched scan | lent scan => exact swept scan
        | failed => exact .of_idle nofun
  · exact ((run.turns hd he hjk hp hq).takes (noneFilled_blank size)).1

/-- The tokens that a usage takes for positionals in order are in this order, too. -/
theorem matchAlternative_takes_in_order (hg : compile config doc = .ok g)
    (h : g.matchAlternative i ⟨.blank g.slotCount, argv⟩ = .ok true t) :
    ∃ usage n log, g.usages[i]? = some usage ∧
      Run g.scope n false usage ⟨.blank g.slotCount, argv⟩ log true t ∧
      ∀ p q, InOrder usage p q → ∀ a b,
        (p.slot, a) ∈ Move.taken log (List.range argv.tokens.length) →
        (q.slot, b) ∈ Move.taken log (List.range argv.tokens.length) → a < b := by
  rcases run_of_matchAlternative h with ⟨-, hb, -⟩ | ⟨usage, n, log, hu, run⟩
  · cases hb
  · have hd := (distinct_of_compile hg).singleton (List.mem_of_getElem? hu)
    refine ⟨usage, n, log, hu, run, ?_⟩
    intro p q hpq a b ha hb
    exact (hpq.inTurn hd run).lt (hpq.slot_ne hd) List.pairwise_lt_range ha hb

theorem copying_usage :
    ∃ g argv t v cp source target, compile {} "Usage: prog [-v] (cp <src> <dst>)" = .ok g ∧
      g.tokenize ["cp", "-v", "1", "2"] = .ok argv ∧
      g.matchAlternative 0 ⟨.blank g.slotCount, argv⟩ = .ok true t ∧
      g.usages[0]? = some (.required [.optional [.option v],
        .required [.command cp, .argument source, .argument target]]) := by
  obtain ⟨g, hg, husage, argv, ht, t, hm, -⟩ :
      ∃ g, compile {} "Usage: prog [-v] (cp <src> <dst>)" = .ok g ∧
        g.usages[0]? = some (.required [.optional [.option ⟨.singleton "-v", none, none, 0⟩],
          .required [.command ⟨.singleton "cp", 1⟩, .argument ⟨.singleton "<src>", 2⟩,
            .argument ⟨.singleton "<dst>", 3⟩]]) ∧
        ∃ argv, g.tokenize ["cp", "-v", "1", "2"] = .ok argv ∧
          ∃ t, g.matchAlternative 0 ⟨.blank g.slotCount, argv⟩ = .ok true t ∧ True := by
    decide +kernel
  exact ⟨g, argv, t, _, _, _, _, hg, ht, hm, husage⟩

/-- An option in between does not change which argument comes first. -/
theorem source_before_target :
    ∃ g argv t usage n log source target,
      compile {} "Usage: prog [-v] (cp <src> <dst>)" = .ok g ∧
      g.tokenize ["cp", "-v", "1", "2"] = .ok argv ∧
      g.matchAlternative 0 ⟨.blank g.slotCount, argv⟩ = .ok true t ∧
      g.usages[0]? = some usage ∧
      Run g.scope n false usage ⟨.blank g.slotCount, argv⟩ log true t ∧
      InOrder usage (.argument source) (.argument target) ∧
      ∀ a b, (source.slot, a) ∈ Move.taken log (List.range argv.tokens.length) →
        (target.slot, b) ∈ Move.taken log (List.range argv.tokens.length) → a < b := by
  obtain ⟨g, argv, t, v, cp, source, target, hg, htok, hm, husage⟩ := copying_usage
  obtain ⟨usage, n, log, hu, run, horder⟩ := matchAlternative_takes_in_order hg hm
  obtain rfl := Option.some.inj (husage.symm.trans hu)
  have hsource : InOrder (.required [.optional [.option v],
      .required [.command cp, .argument source, .argument target]])
      (.argument source) (.argument target) :=
    ⟨.required, [.command cp, .argument source, .argument target], 1, 2, Nat.lt_succ_self 1,
      rfl, rfl, .inr ⟨rfl, .child (List.mem_cons_of_mem _ List.mem_cons_self) .refl⟩⟩
  exact ⟨g, argv, t, _, n, log, source, target, hg, htok, hm, husage, run, hsource,
    horder _ _ hsource⟩

/-! ## Groups beside each other -/

section Late

def lateGo : Leaf := ⟨.singleton "go", 0⟩

def lateY : Leaf := ⟨.singleton "<y>", 1⟩

/-- What `1 go` leaves at some time of a match of `go (<y>)`. -/
def lateAttempt (go y : Slot) (rest : List String) (optionOnly : Bool) : Attempt where
  slots := ⟨[go, y]⟩
  argv :=
    { tokens := rest.map (⟨·, .word⟩), style := ⟨true, true, true⟩, autoDashes := true, optionOnly }

variable (scope : Scope)

theorem lateY_run : Run scope 2 false (.required [.argument lateY])
    (lateAttempt .unset .unset ["1", "go"] false) [.take 1 0] true
    (lateAttempt .unset (.text "1") ["go"] true) := by
  have take : Run scope 1 false (.argument lateY)
      (lateAttempt .unset .unset ["1", "go"] false) [.take 1 0] true
      (lateAttempt .unset (.text "1") ["go"] false) :=
    @Positional.Runs.taken (.argument lateY) false (lateAttempt .unset .unset ["1", "go"] false) 0
      ⟨"1", .word⟩ rfl rfl rfl rfl (by cbv)
  have keep : Run scope 1 false (.argument lateY) (lateAttempt .unset (.text "1") ["go"] true) []
      true (lateAttempt .unset (.text "1") ["go"] true) :=
    Positional.Runs.filled rfl
  have stop (s : Attempt) : Pass (Run scope 1 false) 1 (some 0) [] s [] (some 0) [] s := .nil
  have first : Pass (Run scope 1 false) 0 none [.start (.argument lateY)]
      (lateAttempt .unset .unset ["1", "go"] false) ([.take 1 0] ++ []) (some 0)
      [⟨.argument lateY, true⟩]
      (lateAttempt .unset (.text "1") ["go"] false) :=
    Pass.hit (x := .start (.argument lateY)) rfl take (stop _)
  have second : Pass (Run scope 1 false) 0 (some 0) [⟨.argument lateY, true⟩]
      (lateAttempt .unset (.text "1") ["go"] false) ([] ++ []) (some 0) [⟨.argument lateY, true⟩]
      (lateAttempt .unset (.text "1") ["go"] true) :=
    Pass.hit (x := ⟨.argument lateY, true⟩) rfl keep (stop _)
  have scan : Scan (Run scope 1 false) [.argument lateY]
      (lateAttempt .unset .unset ["1", "go"] false) [.take 1 0] [⟨.argument lateY, true⟩]
      (lateAttempt .unset (.text "1") ["go"] true) :=
    Passes.again rfl first (by decide) (.still rfl second rfl)
  exact OnceRun.required (.matched scan rfl)

theorem lateGo_run : Run scope 3 false (.required [.command lateGo, .required [.argument lateY]])
    (lateAttempt .unset .unset ["1", "go"] false) [.take 1 0, .take 0 0] true
    (lateAttempt (.flag true) (.text "1") [] false) := by
  have refuse : Run scope 2 false (.command lateGo)
      (lateAttempt .unset .unset ["1", "go"] false) [] false
      (lateAttempt .unset .unset ["1", "go"] false) :=
    @Positional.Runs.refused (.command lateGo) false _ rfl rfl (by decide)
  have take : Run scope 2 false (.command lateGo)
      (lateAttempt .unset (.text "1") ["go"] false) [.take 0 0] true
      (lateAttempt (.flag true) (.text "1") [] false) :=
    @Positional.Runs.taken (.command lateGo) false (lateAttempt .unset (.text "1") ["go"] false) 0
      ⟨"go", .word⟩ rfl rfl rfl rfl (by cbv)
  have stop (s : Attempt) : Pass (Run scope 2 false) 2 none [] s [] none [] s := .nil
  have group : Pass (Run scope 2 false) 1 none [.start (.required [.argument lateY])]
      (lateAttempt .unset .unset ["1", "go"] false) ([.take 1 0] ++ []) none
      [⟨.required [.argument lateY], true⟩] (lateAttempt .unset (.text "1") ["go"] true) :=
    Pass.hit (x := .start (.required [.argument lateY])) rfl (lateY_run scope) (stop _)
  have first : Pass (Run scope 2 false) 0 none
      [.start (.command lateGo), .start (.required [.argument lateY])]
      (lateAttempt .unset .unset ["1", "go"] false) ([] ++ ([.take 1 0] ++ [])) none
      [⟨.command lateGo, false⟩, ⟨.required [.argument lateY], true⟩]
      (lateAttempt .unset (.text "1") ["go"] true) :=
    Pass.miss (x := .start (.command lateGo)) rfl refuse group
  have empty : Pass (Run scope 2 false) 1 (some 0) [⟨.required [.argument lateY], true⟩]
      (lateAttempt (.flag true) (.text "1") [] false) [] (some 0)
      [⟨.required [.argument lateY], true⟩] (lateAttempt (.flag true) (.text "1") [] false) :=
    .empty rfl
  have second : Pass (Run scope 2 false) 0 none
      [⟨.command lateGo, false⟩, ⟨.required [.argument lateY], true⟩]
      (lateAttempt .unset (.text "1") ["go"] true) ([.take 0 0] ++ []) (some 0)
      [⟨.command lateGo, true⟩, ⟨.required [.argument lateY], true⟩]
      (lateAttempt (.flag true) (.text "1") [] false) :=
    Pass.hit (x := ⟨.command lateGo, false⟩) rfl take empty
  have scan : Scan (Run scope 2 false) [.command lateGo, .required [.argument lateY]]
      (lateAttempt .unset .unset ["1", "go"] false) [.take 1 0, .take 0 0]
      [⟨.command lateGo, true⟩, ⟨.required [.argument lateY], true⟩]
      (lateAttempt (.flag true) (.text "1") [] false) :=
    Passes.again rfl first (by decide) (.again rfl second (by decide) (.empty rfl))
  exact OnceRun.required (.matched scan rfl)

/-- A group to the right does not bar the command to its left, which takes the later
token. -/
theorem command_takes_later :
    ∃ g argv t n log, compile {} "Usage: prog go (<y>)" = .ok g ∧
      g.tokenize ["1", "go"] = .ok argv ∧
      g.matchAlternative 0 ⟨.blank g.slotCount, argv⟩ = .ok true t ∧
      t.argv.isExhausted = true ∧
      g.usages[0]? = some (.required [.command lateGo, .required [.argument lateY]]) ∧
      Run g.scope n false (.required [.command lateGo, .required [.argument lateY]])
        ⟨.blank g.slotCount, argv⟩ log true t ∧
      (lateGo.slot, 1) ∈ Move.taken log (List.range argv.tokens.length) ∧
      (lateY.slot, 0) ∈ Move.taken log (List.range argv.tokens.length) := by
  obtain ⟨g, hg, husage, hcount, argv, ht, hargv, t, hm, hend⟩ :
      ∃ g, compile {} "Usage: prog go (<y>)" = .ok g ∧
        g.usages[0]? = some (.required [.command lateGo, .required [.argument lateY]]) ∧
        g.slotCount = 2 ∧
        ∃ argv, g.tokenize ["1", "go"] = .ok argv ∧
          argv = (lateAttempt .unset .unset ["1", "go"] false).argv ∧
          ∃ t, g.matchAlternative 0 ⟨.blank g.slotCount, argv⟩ = .ok true t ∧
            t = lateAttempt (.flag true) (.text "1") [] false := by decide +kernel
  subst hargv hend
  refine ⟨g, _, _, 3, [.take 1 0, .take 0 0], hg, ht, hm, rfl, husage, ?_, by decide, by decide⟩
  rw [hcount]
  exact lateGo_run _

end Late

end Synopsis.Grammar
