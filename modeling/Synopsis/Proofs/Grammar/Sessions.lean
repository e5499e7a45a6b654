import Mathlib.Logic.Relation
import Synopsis.Proofs.Grammar.Soundness
import Synopsis.Proofs.Matcher.Writes

/-! # Tables in use

A caller may run usages on a table one after the other, clear it, and go back to copies
of it. Whatever it does, a leaf finds in its slot what leaves of its kind record. A count
or a list gets there through a repeating group only.
-/

namespace Synopsis

open Pattern (Reaches)

/-- The pattern lies in a repeating group that another one reaches. -/
def Pattern.Repeats (scope : Scope) (p q : Pattern) : Prop :=
  ∃ group, Reaches scope p group ∧ group.isRepeatingGroup = true ∧ Reaches scope group q

/-- A table, and the copies that were made of it. -/
structure Session where
  slots : Slots
  copies : List Slots

namespace Session

/-- A new table. -/
def start (size : Nat) : Session := ⟨.blank size, []⟩

/-- What a caller can do to a table. -/
inductive Step (g : Grammar) : Session → Session → Prop
  | answer {s : Session} {i : Nat} {argv : Argv} {b : Bool} {t : Attempt}
      (h : g.matchAlternative i ⟨s.slots, argv⟩ = .ok b t) : Step g s { s with slots := t.slots }
  | stop {s : Session} {i : Nat} {argv : Argv} {e : Stop} {t : Attempt}
      (h : g.matchAlternative i ⟨s.slots, argv⟩ = .error e t) : Step g s { s with slots := t.slots }
  | reset {s : Session} : Step g s { s with slots := s.slots.reset }
  | dump {s : Session} : Step g s { s with copies := s.slots :: s.copies }
  | load {s : Session} {copy : Slots} (h : copy ∈ s.copies) : Step g s { s with slots := copy }

end Session

namespace Grammar

variable {g : Grammar} {config : Config} {source : SourceText} {registry : Registry}
  {usages : List Pattern} {i : Nat}

/-- Writes of one usage go by what the leaves of the usage write. -/
theorem keeps_matchAlternative {I : Slots → Prop}
    (hI : ∀ u, g.usages[i]? = some u → Writable g.scope (Reaches g.scope u) I) :
    KeepsSlots I (g.matchAlternative i) := by
  intro s hs
  unfold matchAlternative
  split
  next u hu =>
    simp only [MatchM.yields_bind, MatchM.yields_argv]
    exact (hI u hu).keeps_matchPattern (fun _ hq => hq) _ s hs
  next => exact hs

theorem keeps_typed (hd : Pattern.Distinct g.scope g.usages) :
    KeepsSlots (Typed g.Owns) (g.matchAlternative i) := by
  refine keeps_matchAlternative fun u hu => ?_
  have write {q : Pattern} {r : Recorded} {v : Slot} {s : Slots} (hq : Reaches g.scope u q)
      (hr : q.ownRecord? = some r) (hf : r.kind.fits v = true) (hs : Typed g.Owns s) :
      Typed g.Owns (s.set r.slot v) :=
    hs.set (apart_of_distinct hd) (owns_of_reaches (List.mem_of_getElem? hu) hq) hr
      (fun _ hj => Slots.get_set_of_ne hj) (by simpa using hf)
  exact { single hq hr hf _ hs := write hq hr hf hs
          repeated hg _ hq hr hf hs := write (hg.trans hq) hr hf hs }

/-- The leaves that no repeating group of a usage reaches hold no counts or lists. -/
def SingleOff (g : Grammar) (i : Nat) (s : Slots) : Prop :=
  ∀ q k, q ∈ g.atoms → q.slot? = some k → (s.get k).isSingle = false →
    ∃ u, g.usages[i]? = some u ∧ u.Repeats g.scope q

theorem keeps_singleOff (hd : Pattern.Distinct g.scope g.usages) :
    KeepsSlots (g.SingleOff i) (g.matchAlternative i) := by
  refine keeps_matchAlternative fun u hu => ?_
  constructor
  · intro q r v s _ _ _ hv hs q' k hq' hk hmany
    rw [Slots.get_set] at hmany
    split at hmany
    · rw [hv] at hmany
      cases hmany
    · exact hs q' k hq' hk hmany
  · intro group q r v s hgroup hrepeats hq hr _ hs q' k hq' hk hmany
    rw [Slots.get_set] at hmany
    split at hmany
    next he =>
      have hslot : q.slot? = some k := by simp [Pattern.slot?, hr, he]
      have howns : g.Owns q := owns_of_reaches (List.mem_of_getElem? hu) (hgroup.trans hq)
      obtain rfl := apart_of_distinct hd q' q (fun _ _ => List.mem_flatMap.mp hq') howns k hk hslot
      exact ⟨u, hu, group, hgroup, hrepeats, hq⟩
    next => exact hs q' k hq' hk hmany

/-- A step of a caller keeps the kinds of the slots, also those of the copies. -/
theorem typed_of_step (hd : Pattern.Distinct g.scope g.usages) {s t : Session} (h : Session.Step g s t)
    (hs : Typed g.Owns s.slots ∧ ∀ copy ∈ s.copies, Typed g.Owns copy) :
    Typed g.Owns t.slots ∧ ∀ copy ∈ t.copies, Typed g.Owns copy := by
  have run (i : Nat) (argv : Argv) := keeps_typed (i := i) hd ⟨s.slots, argv⟩ hs.1
  cases h with
  | @answer i argv _ _ h => exact ⟨(run i argv).of_ok h, hs.2⟩
  | @stop i argv _ _ h => exact ⟨(run i argv).of_error h, hs.2⟩
  | reset => exact ⟨.blank _, hs.2⟩
  | dump => exact ⟨hs.1, List.forall_mem_cons.mpr hs⟩
  | load h => exact ⟨hs.2 _ h, hs.2⟩

/-- All along a session, the slots of arguments hold texts and those of options and
commands hold hits. On a new table, a match puts counts and lists only into the slots of
leaves that lie in a repeating group on their path. -/
theorem sessions_typed (h : build config source registry usages = .ok g) :
    (∀ size s, Relation.ReflTransGen (Session.Step g) (.start size) s →
      Typed (· ∈ g.atoms) s.slots) ∧
    ∀ size argv i b t, g.matchAlternative i ⟨.blank size, argv⟩ = .ok b t →
      ∀ q k, q ∈ g.atoms → q.slot? = some k → (t.slots.get k).isSingle = false →
        ∃ u, g.usages[i]? = some u ∧ u.Repeats g.scope q := by
  have hd := distinct_of_build h
  refine ⟨fun size s hs => ?_, fun size argv i b t hm => ?_⟩
  · have htyped : Typed g.Owns s.slots ∧ ∀ copy ∈ s.copies, Typed g.Owns copy := by
      induction hs with
      | refl => exact ⟨.blank _, nofun⟩
      | tail _ hstep ih => exact typed_of_step hd hstep ih
    exact fun q hq => htyped.1 q fun _ _ => List.mem_flatMap.mp hq
  · have hsingle := keeps_singleOff (i := i) hd ⟨.blank size, argv⟩ fun _ k _ _ hmany => by
      rw [Slots.get_blank] at hmany
      cases hmany
    exact hsingle.of_ok hm

/-- The two hits of `-v` are counted, since it repeats. The copy of the table can be
loaded again after a reset. -/
theorem counted_flag_repeats : ∃ g u t,
    compile {} "Usage: prog [-v]... <f>" = .ok g ∧ g.usages[0]? = some u ∧
      t.get 0 = .count 2 ∧ u.Repeats g.scope (.option ⟨.singleton "-v", none, none, 0⟩) ∧
      Relation.ReflTransGen (Session.Step g) (.start g.slotCount) ⟨t, [t]⟩ ∧
      Typed (· ∈ g.atoms) t := by
  obtain ⟨g, hg, ho, argv, -, t, hm, hcount⟩ : ∃ g, compile {} "Usage: prog [-v]... <f>" = .ok g ∧
      .option ⟨.singleton "-v", none, none, 0⟩ ∈ g.atoms ∧
      ∃ argv, g.tokenize ["-v", "x", "-v"] = .ok argv ∧
        ∃ t, g.matchAlternative 0 ⟨.blank g.slotCount, argv⟩ = .ok true t ∧
          t.slots.get 0 = .count 2 := by decide +kernel
  obtain ⟨source, registry, usages, hb, -⟩ := build_of_compile hg
  obtain ⟨htyped, hsingle⟩ := sessions_typed hb
  have hsession : Relation.ReflTransGen (Session.Step g) (.start g.slotCount)
      ⟨t.slots, [t.slots]⟩ :=
    .tail (.tail (.tail (.tail .refl (.answer hm)) .dump) .reset) (.load List.mem_cons_self)
  obtain ⟨u, hu, hrepeats⟩ := hsingle _ _ _ _ _ hm _ 0 ho rfl (by rw [hcount]; rfl)
  exact ⟨g, u, t.slots, hg, hu, hcount, hrepeats, hsession, htyped _ _ hsession⟩

end Grammar

end Synopsis
