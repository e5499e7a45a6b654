import Synopsis.Proofs.Matcher.Required
import Synopsis.Proofs.Matcher.Sweep

/-! # Lines inside other lines

A required line fills all of its commands and arguments at once or none of them, and so
does a loan from outside. It therefore takes them in one scan, however often the groups
around it are scanned.
-/

namespace Synopsis

open Lending (Lends borrowers? borrowersAll?)
open Pattern (Distinct Owes Reaches slots)

variable {scope : Scope} {ps inner : List Pattern} {kind : GroupKind} {p q : Positional}
  {c d r : Pattern} {s t u : Attempt} {log log' : List Move} {n i j : Nat} {b : Bool}

namespace Pattern

/-- The second pattern lies in the first one, inside groups that do not repeat. -/
inductive Encloses : Pattern → Pattern → Prop
  | refl {c : Pattern} : Encloses c c
  | child {kind : GroupKind} {ps : List Pattern} {c d : Pattern} (hc : c ∈ ps)
      (h : Encloses c d) : Encloses (.group kind ps false) d

theorem Encloses.reaches (h : Encloses c d) (hr : Reaches scope d r) : Reaches scope c r := by
  induction h with
  | refl => exact hr
  | child hc _ ih => exact .child hc (ih hr)

theorem Encloses.distinct (h : Encloses c d) (hd : Distinct scope [c]) : Distinct scope [d] := by
  induction h with
  | refl => exact hd
  | child hc _ ih => exact ih (hd.children.singleton hc)

theorem Encloses.mem_atoms (h : Encloses c (.group kind ps false)) (hp : p.pattern ∈ ps) :
    p.pattern ∈ c.atoms := by
  generalize hd : Pattern.group kind ps false = d at h
  induction h with
  | refl =>
    subst hd
    exact (atoms_sublist_atomsAll hp).subset (mem_atoms_self p.slot?_pattern)
  | child hc _ ih => exact (atoms_sublist_atomsAll hc).subset (ih hd)

theorem Encloses.slot_mem (h : Encloses c (.group kind ps false)) (hp : p.pattern ∈ ps) :
    p.slot ∈ slots [c] :=
  mem_slots.mpr ⟨c, List.mem_singleton_self _, _, h.mem_atoms hp, p.slot?_pattern⟩

theorem Encloses.not_repeats (h : Encloses c (.group kind ps false)) :
    c.isRepeatingGroup = false := by
  cases h <;> rfl

/-- Either all commands and arguments of a line have to be there or none of them. -/
theorem Encloses.owes (h : Encloses c (.group .required ps false)) (hd : Distinct scope [c])
    (hp : p.pattern ∈ ps) (hq : q.pattern ∈ ps) (ho : Owes c p.pattern) :
    Owes c q.pattern := by
  generalize hg : Pattern.group .required ps false = g at h
  induction h with
  | refl =>
    subst hg
    exact .child hq (.leaf (by cases q <;> rfl))
  | @child kind outer c d hc h ih =>
    subst hg
    have hreach : Reaches scope c p.pattern := h.reaches (.child hp .refl)
    generalize hpp : p.pattern = pp at ho
    cases ho with
    | leaf ha => cases ha
    | @child _ _ c' _ hc' ho =>
      subst hpp
      have he : c' = c := by
        by_contra hne
        exact hd.children.not_reaches hc' hc hne ho.slot_mem hreach p.slot?_pattern
      subst he
      exact .child hc (ih (hd.children.singleton hc) ho rfl)

end Pattern

open Pattern (Encloses)

/-! ## Loans -/

namespace Lending

mutual

theorem borrowers?_owes {s : Slots} : ∀ {c : Pattern} {bs : List Positional},
    borrowers? s c = some bs → ∀ b ∈ bs, Owes c b.pattern
  | .group .required children false, bs, h => fun b hb => by
    obtain ⟨c, hc, ho⟩ := borrowersAll?_owes h b hb
    exact .child hc ho
  | .group .optional _ false, bs, h | .option _, bs, h | .shortcut _, bs, h => by
    obtain rfl := Option.some.inj h
    exact nofun
  | .command leaf, bs, h | .argument leaf, bs, h => fun b hb => by
    simp only [borrowers?, Option.ite_none_left_eq_some] at h
    obtain rfl := Option.some.inj h.2
    obtain rfl := List.mem_singleton.mp hb
    exact .leaf rfl

theorem borrowersAll?_owes {s : Slots} : ∀ {cs : List Pattern} {bs : List Positional},
    borrowersAll? s cs = some bs → ∀ b ∈ bs, ∃ c ∈ cs, Owes c b.pattern
  | [], bs, h => by
    obtain rfl := Option.some.inj h
    exact nofun
  | c :: cs, bs, h => fun b hb => by
    simp only [borrowersAll?, Option.bind_eq_bind, Option.bind_eq_some_iff] at h
    obtain ⟨first, hf, rest, hr, h⟩ := h
    obtain rfl := Option.some.inj h
    rcases List.mem_append.mp hb with hb | hb
    · exact ⟨c, List.mem_cons_self, borrowers?_owes hf b hb⟩
    · obtain ⟨c', hc', ho⟩ := borrowersAll?_owes hr b hb
      exact ⟨c', List.mem_cons_of_mem _ hc', ho⟩

end

/-- A loan around a required line fills all of it or leaves it alone. -/
theorem Lends.all_or_none (h : Lends ps s t) (hd : Distinct scope ps) (hc : c ∈ ps)
    (he : Encloses c (.group .required inner false)) :
    AllFilled inner t.slots ∨
      ∀ p : Positional, p.pattern ∈ inner → t.slots.get p.slot = s.slots.get p.slot := by
  by_cases hall : ∀ p : Positional, p.pattern ∈ inner → Owes c p.pattern
  · exact .inl fun p hp => h.isFilled hd hc (hall p hp)
  · right
    intro p hp
    have hnot : ¬ Owes c p.pattern := fun ho =>
      hall fun q hq => he.owes (hd.singleton hc) hp hq ho
    have hreach : Reaches scope c p.pattern := he.reaches (.child hp .refl)
    -- A borrower in the place of `p` would have to be there.
    have elsewhere {c' : Pattern} (hc' : c' ∈ ps) (hne : c' ≠ c) : p.slot ∉ slots [c'] :=
      fun hi => hd.not_reaches hc' hc hne hi hreach p.slot?_pattern
    obtain ⟨loan, before, children, rest, hsplit, hrepaid⟩ := h.repaid hd
    refine hrepaid.others p.slot ?_ ?_
    · intro hi
      rw [← hsplit.lenders_slots] at hi
      refine elsewhere hsplit.lender_mem ?_ hi
      intro hl
      have hrepeats := he.not_repeats
      rw [← hl] at hrepeats
      cases hrepeats
    · intro b hb he'
      obtain ⟨c', hc', ho⟩ := borrowersAll?_owes hsplit.borrowers_eq b hb
      have hline : c' ∈ ps := by
        rw [hsplit.line_eq]
        exact List.mem_append_right _ (List.mem_cons_of_mem _ hc')
      by_cases hne : c' = c
      · subst hne
        have hpb : b.pattern = p.pattern :=
          Pattern.eq_of_slot?_eq (by simpa [slots] using (hd.singleton hc).slots_nodup) ho.mem_atoms
            (he.mem_atoms hp) (he' ▸ b.slot?_pattern) p.slot?_pattern
        exact hnot (hpb ▸ ho)
      · exact elsewhere hline hne (he' ▸ ho.slot_mem)

end Lending

/-! ## Turns -/

/-- What runs around a line do to it: nothing once it is filled, and before that it is
filled in turn or not at all. -/
structure Turns (ps : List Pattern) (p q : Positional) (s : Attempt) (log : List Move)
    (t : Attempt) : Prop where
  behind : Behind s log t
  rests : AllFilled ps s.slots → AllFilled ps t.slots ∧ Idle ps log
  takes : NoneFilled ps s.slots → InTurn p.slot q.slot log ∧
    (.take p.slot 1 ∈ log → t.argv.Headed) ∧
    (AllFilled ps t.slots ∨ NoneFilled ps t.slots ∧ Idle ps log)

namespace Turns

theorem of_same (hb : Behind s log t) (hi : Idle ps log) (hp : p.pattern ∈ ps)
    (hget : ∀ r : Positional, r.pattern ∈ ps → t.slots.get r.slot = s.slots.get r.slot) :
    Turns ps p q s log t where
  behind := hb
  rests hs := ⟨fun r hr => (Positional.isFilled_congr (hget r hr)).trans (hs r hr), hi⟩
  takes hs := ⟨.of_idle (hi p hp), fun hm => absurd rfl (hi p hp _ hm),
    .inr ⟨fun r hr => (Positional.isFilled_congr (hget r hr)).trans (hs r hr), hi⟩⟩

theorem chains (hp : p.pattern ∈ ps) (hq : q.pattern ∈ ps) : Chains (Turns ps p q) where
  refl _ := of_same (fun hs => ⟨hs, nofun⟩) (fun _ _ => nofun) hp fun _ _ => rfl
  aim _ _ := of_same (fun hs => ⟨hs, nofun⟩) (fun _ _ => nofun) hp fun _ _ => rfl
  trans h h' :=
    { behind := h.behind.trans h'.behind
      rests := fun hs =>
        ⟨(h'.rests (h.rests hs).1).1, (h.rests hs).2.append (h'.rests (h.rests hs).1).2⟩
      takes := fun hs => by
        obtain ⟨hturn, hheaded, hall | ⟨hnone, hidle⟩⟩ := h.takes hs
        · obtain ⟨hall', hidle'⟩ := h'.rests hall
          refine ⟨hturn.append (.of_idle (hidle' p hp)) (fun hm => (h'.behind (hheaded hm)).2)
            (fun _ _ _ hm => hidle' p hp _ hm rfl), fun hm => ?_, .inl hall'⟩
          rcases List.mem_append.mp hm with hm | hm
          · exact (h'.behind (hheaded hm)).1
          · exact absurd rfl (hidle' p hp _ hm)
        · obtain ⟨hturn', hheaded', hcases⟩ := h'.takes hnone
          refine ⟨hturn.append hturn' (fun hm => absurd rfl (hidle p hp _ hm))
            (fun _ _ hm => absurd rfl (hidle q hq _ hm)), fun hm => ?_, ?_⟩
          · rcases List.mem_append.mp hm with hm | hm
            · exact absurd rfl (hidle p hp _ hm)
            · exact hheaded' hm
          · exact hcases.imp_right fun ⟨hnone', hidle'⟩ => ⟨hnone', hidle.append hidle'⟩ }

theorem of_lends (hd : Distinct scope ps) (hc : c ∈ ps)
    (he : Encloses c (.group .required inner false)) (hp : p.pattern ∈ inner)
    (h : Lends ps s t) : Turns inner p q s [] t := by
  have hb : Behind s [] t := by
    cases h
    exact fun hs => ⟨hs, nofun⟩
  rcases h.all_or_none hd hc he with hall | hsame
  · exact ⟨hb, fun _ => ⟨hall, fun _ _ => nofun⟩, fun _ => ⟨.of_idle nofun, nofun, .inl hall⟩⟩
  · exact of_same hb (fun _ _ => nofun) hp hsame

/-- The matches around a line are in turn if those of its patterns are. -/
theorem onceRun {outer : List Pattern} {kind : GroupKind} (hd : Distinct scope outer)
    (hc : c ∈ outer) (he : Encloses c (.group .required ps false)) (hp : p.pattern ∈ ps)
    (hq : q.pattern ∈ ps)
    (hR : ∀ c ∈ outer, ∀ s log b t, Run scope n false c s log b t → Turns ps p q s log t)
    (hb : Behind s log t) (h : OnceRun (Run scope n false) outer kind s log b t) :
    Turns ps p q s log t := by
  have hchains := chains hp hq
  cases h with
  | optional scan => exact hchains.scan hR scan
  | required run =>
    cases run with
    | matched scan => exact hchains.scan hR scan
    | lent scan _ hl =>
      have hturns := hchains.trans (hchains.scan hR scan) (of_lends hd hc he hp hl)
      rwa [List.append_nil] at hturns
    | failed => exact of_same hb (fun _ _ => nofun) hp fun _ _ => rfl

/-- A required line that is filled or empty stays in one of these states. -/
theorem lineRun (hd : Distinct scope ps) (hij : i < j) (hp : ps[i]? = some p.pattern)
    (hq : ps[j]? = some q.pattern) (hb : Behind s log t)
    (h : LineRun (Run scope n false) ps s log b t) : Turns ps p q s log t := by
  have hpl := List.mem_of_getElem? hp
  cases h with
  | matched scan hall =>
    refine ⟨hb, scan.rests hd, ?_⟩
    intro hs
    obtain ⟨hswept, hfilled⟩ := scan.swept hd hij hp hq hs
    exact ⟨hswept.turn, hswept.headed, .inl (hfilled hall)⟩
  | @lent _ t _ _ _ scan _ hl =>
    have hfilled : AllFilled ps _ := fun r hr =>
      hl.isFilled hd hr (.leaf (by cases r <;> rfl))
    refine ⟨hb, fun hs => ⟨hfilled, (scan.rests hd hs).2⟩, ?_⟩
    intro hs
    obtain ⟨hswept, -⟩ := scan.swept hd hij hp hq hs
    refine ⟨hswept.turn, ?_, .inl hfilled⟩
    intro hm
    have hheaded := hswept.headed hm
    cases hl
    exact hheaded
  | failed => exact of_same hb (fun _ _ => nofun) hpl fun _ _ => rfl

end Turns

/-- However often the groups around a required line are scanned, two positionals of the
line take in turn. -/
theorem Run.turns (hd : Distinct scope [c]) (he : Encloses c (.group .required ps false))
    (hij : i < j) (hp : ps[i]? = some p.pattern) (hq : ps[j]? = some q.pattern)
    (h : Run scope n false c s log b t) : Turns ps p q s log t := by
  have hpl := List.mem_of_getElem? hp
  have hql := List.mem_of_getElem? hq
  generalize hg : Pattern.group .required ps false = g at he
  induction he generalizing n s log b t with
  | refl =>
    subst hg
    have hb : Behind s log t := (Behind.closed scope).run (fun _ _ => trivial) h
    cases n with
    | zero => exact h.elim
    | succ n =>
      cases (h : OnceRun (Run scope n false) ps .required s log b t) with
      | required run => exact Turns.lineRun hd.children hij hp hq hb run
  | @child kind outer c d hc he ih =>
    subst hg
    have hb : Behind s log t := (Behind.closed scope).run (fun _ _ => trivial) h
    cases n with
    | zero => exact h.elim
    | succ n =>
      refine Turns.onceRun hd.children hc he hpl hql ?_ hb
        (h : OnceRun (Run scope n false) outer kind s log b t)
      intro c' hc' s log b t run
      by_cases hcc : c' = c
      · subst hcc
        exact ih (hd.children.singleton hc') run rfl
      · have huntouched (r : Positional) (hr : r.pattern ∈ ps) : Untouched r.slot s log t :=
          run.untouched fun _ hreach =>
            hd.children.not_reaches hc hc' (Ne.symm hcc) (he.slot_mem hr) hreach
        exact Turns.of_same ((Behind.closed scope).run (fun _ _ => trivial) run)
          (fun r hr => (huntouched r hr).moves) hpl fun r hr => (huntouched r hr).get_eq

end Synopsis
