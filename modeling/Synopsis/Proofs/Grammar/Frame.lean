import Synopsis.Proofs.Grammar.Termination
import Synopsis.Proofs.Matcher.Writes

/-! # What a usage leaves alone

The leaves of a grammar share the table out among themselves. A usage writes into its own
slots, and into those of the declared options that its shortcuts stand for. That is so
whether the usage matches, does not match, or stops the match.
-/

namespace Synopsis

open Pattern (Reaches slots)

theorem Slots.length_set {s : Slots} {i : Nat} {v : Slot} (h : i < s.cells.length) :
    (s.set i v).cells.length = s.cells.length := by
  simp [set, h]

/-! ## Leaves behind shortcuts -/

namespace Pattern

variable {scope : Scope} {p q c c' : Pattern} {ps : List Pattern} {i : Nat}

/-- What lies in a pattern itself, its value patterns included. -/
def Holds (p q : Pattern) : Prop := Reaches ⟨{}, false⟩ p q

theorem Holds.mem_atoms (h : p.Holds q) (hi : q.slot? = some i) : q ∈ p.atoms :=
  (Reaches.mem_atoms h hi).resolve_right nofun

/-- What a pattern reaches lies in it, or behind a shortcut that lies in it. -/
theorem Reaches.holds (h : Reaches scope p q) :
    p.Holds q ∨ ∃ sc, p.Holds (.shortcut sc) ∧ ∃ e ∈ scope.visible sc, Reaches scope e q := by
  induction h with
  | refl => exact .inl .refl
  | value hv _ ih =>
    exact ih.imp (.value hv) fun ⟨sc, hsc, he⟩ => ⟨sc, .value hv hsc, he⟩
  | child hc _ ih =>
    exact ih.imp (.child hc) fun ⟨sc, hsc, he⟩ => ⟨sc, .child hc hsc, he⟩
  | branch hc _ ih =>
    exact ih.imp (.branch hc) fun ⟨sc, hsc, he⟩ => ⟨sc, .branch hc hsc, he⟩
  | entry hc h _ => exact .inr ⟨_, .refl, _, hc, h⟩

theorem Bare.holds (h : p.Bare) (hq : Reaches scope p q) : p.Holds q := by
  refine hq.holds.resolve_right fun ⟨sc, hsc, _⟩ => ?_
  cases h.of_reaches hsc

end Pattern

/-- The values of the declared options have no shortcuts. -/
def Registry.BareValues (r : Registry) : Prop :=
  ∀ x ∈ r.options, ∀ v, x.1.value = some v → v.Bare

theorem Registry.Bare.values {r : Registry} (h : r.Bare) : r.BareValues := by
  intro x hx v hv
  have hbare := h _ (mem_entries hx)
  have hreach : Reaches ⟨r, false⟩ (.group .optional [.option x.1] x.2) v :=
    .child List.mem_cons_self (.value hv .refl)
  exact hbare.of_reaches hreach

namespace Scope

variable {scope : Scope} {sc : Shortcut} {e u q : Pattern} {i : Nat}

theorem bare_of_visible (h : scope.registry.BareValues) (he : e ∈ scope.visible sc) : e.Bare := by
  obtain ⟨⟨o, repeats⟩, ho, -⟩ := (Option.any_eq_true _ _).mp (List.mem_filter.mp he).2
  have hx : (o, repeats) ∈ scope.registry.options :=
    List.mem_filterMap.mpr ⟨e, Pattern.mem_entries_of_visible he, ho⟩
  rw [Pattern.eq_of_entryOption? ho]
  exact .group (List.forall_mem_singleton.mpr (.option (h _ hx)))

theorem finiteIf_of_bareValues (h : scope.registry.BareValues) (counting : Bool) (p : Pattern) :
    p.FiniteIf scope counting :=
  fun _ _ _ => ⟨_, Pattern.recorded?_isSome_of_visible (fun _ _ he _ hq =>
    ((bare_of_visible h he).of_reaches hq).shortcut?_eq_none) le_rfl⟩

theorem finite_of_bareValues (h : scope.registry.BareValues) (p : Pattern) : p.Finite scope :=
  finiteIf_of_bareValues h false p

/-- The slots that a pattern can write are its own, and those of entries that one of its
shortcuts stands for. -/
theorem mem_slots_of_reaches (h : scope.registry.BareValues) (hq : Reaches scope u q)
    (hi : q.slot? = some i) : i ∈ slots [u] ∨
      ∃ sc, u.Holds (.shortcut sc) ∧ ∃ e ∈ scope.visible sc, i ∈ slots [e] := by
  have own {p : Pattern} (hp : p.Holds q) : i ∈ slots [p] :=
    Pattern.mem_slots.mpr ⟨p, List.mem_singleton_self _, q, hp.mem_atoms hi, hi⟩
  refine hq.holds.imp own fun ⟨sc, hsc, e, he, hq⟩ => ⟨sc, hsc, e, he, ?_⟩
  exact own ((bare_of_visible h he).holds hq)

end Scope

/-! ## Runs -/

/-- Tables of one length that agree outside of some slots. -/
structure Slots.AgreeOff (written : Nat → Prop) (s t : Slots) : Prop where
  length_eq : t.cells.length = s.cells.length
  get_eq {i : Nat} (hi : ¬ written i) : t.get i = s.get i

theorem Slots.AgreeOff.set {written : Nat → Prop} {s t : Slots} {i : Nat} {v : Slot}
    (h : AgreeOff written s t) (hi : written i) (hlt : i < s.cells.length) :
    AgreeOff written s (t.set i v) where
  length_eq := by rw [length_set (h.length_eq ▸ hlt), h.length_eq]
  get_eq {j} hj := by
    have hne : j ≠ i := fun he => hj (he ▸ hi)
    rw [get_set_of_ne hne]
    exact h.get_eq hj

/-- The slots of the leaves in reach. -/
def Pattern.Writes (scope : Scope) (p : Pattern) (i : Nat) : Prop :=
  ∃ q, Reaches scope p q ∧ q.slot? = some i

theorem agreeOff_matchPattern {scope : Scope} {u : Pattern} {s : Attempt}
    (hlt : ∀ i, u.Writes scope i → i < s.slots.cells.length) (n : Nat) :
    (matchPattern scope n false u).Yields s
      (fun _ t => s.slots.AgreeOff (u.Writes scope) t.slots)
      fun _ t => s.slots.AgreeOff (u.Writes scope) t.slots := by
  have write {q : Pattern} {r : Recorded} {v : Slot} {t : Slots} (hq : Reaches scope u q)
      (hr : q.ownRecord? = some r) (ht : s.slots.AgreeOff (u.Writes scope) t) :
      s.slots.AgreeOff (u.Writes scope) (t.set r.slot v) := by
    have hw : u.Writes scope r.slot := ⟨q, hq, by simp [Pattern.slot?, hr]⟩
    exact ht.set hw (hlt _ hw)
  have hwritable : Writable scope (Reaches scope u) (s.slots.AgreeOff (u.Writes scope)) :=
    { single hq hr _ _ ht := write hq hr ht
      repeated hg _ hq hr _ ht := write (hg.trans hq) hr ht }
  exact hwritable.keeps_matchPattern (fun _ hq => hq) n s ⟨rfl, fun _ => rfl⟩

namespace Grammar

variable {g : Grammar} {config : Config} {source : SourceText} {registry : Registry}
  {usages : List Pattern}

/-- What usage `i` may do to a table. -/
structure Framed (g : Grammar) (i : Nat) (s t : Slots) : Prop where
  length_eq : t.cells.length = s.cells.length
  other {j k : Nat} {u : Pattern} (hj : j ≠ i) (hu : g.usages[j]? = some u) (hk : k ∈ slots [u]) :
    t.get k = s.get k
  declared {e : Pattern} {k : Nat} (he : e ∈ g.registry.entries) (hk : k ∈ slots [e])
    (hne : t.get k ≠ s.get k) :
    ∃ u sc, g.usages[i]? = some u ∧ u.Holds (.shortcut sc) ∧ e ∈ g.scope.visible sc

theorem Framed.refl {i : Nat} {s : Slots} : g.Framed i s s :=
  ⟨rfl, fun _ _ _ => rfl, fun _ _ hne => absurd rfl hne⟩

/-- The slots that another usage or an entry owns are not written by a usage, unless it has
a shortcut that stands for the entry. -/
theorem framed_of_agreeOff (hd : Pattern.Distinct g.scope g.usages) (hv : g.registry.BareValues)
    {i : Nat} {u : Pattern} {s t : Slots} (hu : g.usages[i]? = some u)
    (h : s.AgreeOff (u.Writes g.scope) t) : g.Framed i s t := by
  have hnodup : (slots g.registry.entries ++ slots g.usages).Nodup := Pattern.slots_append _ _ ▸ hd
  obtain ⟨hentries, -, hapart⟩ := List.nodup_append'.mp hnodup
  have apart {e u : Pattern} {k : Nat} (he : e ∈ g.registry.entries) (hu : u ∈ g.usages)
      (hk : k ∈ slots [e]) (hk' : k ∈ slots [u]) : False :=
    hapart (Pattern.mem_slots_of_mem he hk) (Pattern.mem_slots_of_mem hu hk')
  refine ⟨h.length_eq, fun {j k u'} hj hu' hk => h.get_eq fun ⟨q, hq, hqk⟩ => ?_,
    fun {e k} he hk hne => ?_⟩
  · rcases Scope.mem_slots_of_reaches hv hq hqk with hown | ⟨sc, -, e, he, hdeclared⟩
    · exact hj (hd.getElem?_inj hu' hu hk hown)
    · exact apart (Pattern.mem_entries_of_visible he) (List.mem_of_getElem? hu') hdeclared hk
  · obtain ⟨q, hq, hqk⟩ : u.Writes g.scope k := by
      by_contra hk
      exact hne (h.get_eq hk)
    rcases Scope.mem_slots_of_reaches hv hq hqk with hown | ⟨sc, hsc, e', he', hdeclared⟩
    · exact (apart he (List.mem_of_getElem? hu) hk hown).elim
    · obtain rfl := Pattern.eq_of_mem_slots hentries he (Pattern.mem_entries_of_visible he') hk
        hdeclared
      exact ⟨u, sc, hu, hsc, he'⟩

/-- The slots of all leaves make up the table. A usage, whether it matches or stops, keeps
the length of the table, the slots of other usages, and those of the declared options
that none of its shortcuts stands for. -/
theorem matchAlternative_framed (h : build config source registry usages = .ok g)
    (hv : g.registry.BareValues) :
    slots (g.registry.entries ++ g.usages) = List.range g.slotCount ∧
      ∀ i s, s.slots.cells.length = g.slotCount → (g.matchAlternative i).Yields s
        (fun _ t => g.Framed i s.slots t.slots)
        fun e t => e ≠ .outOfFuel ∧ g.Framed i s.slots t.slots := by
  refine ⟨slots_of_build h, fun i s hs => ?_⟩
  have hframed : (g.matchAlternative i).Yields s (fun _ t => g.Framed i s.slots t.slots)
      fun _ t => g.Framed i s.slots t.slots := by
    unfold matchAlternative
    split
    next u hu =>
      simp only [MatchM.yields_bind, MatchM.yields_argv]
      have framed {t : Attempt} (ht : s.slots.AgreeOff (u.Writes g.scope) t.slots) :
          g.Framed i s.slots t.slots :=
        framed_of_agreeOff (distinct_of_build h) hv hu ht
      refine (agreeOff_matchPattern (fun k hwrites => ?_) _).mono (fun _ _ => framed)
        fun _ _ => framed
      obtain ⟨q, hq, hqk⟩ := hwrites
      have hk : k ∈ slots (g.registry.entries ++ g.usages) := by
        have hreach := hq.mem_slots hqk
        rw [Pattern.slots_append, List.mem_append] at hreach ⊢
        exact hreach.imp_right (Pattern.mem_slots_of_mem (List.mem_of_getElem? hu))
      rw [slots_of_build h, List.mem_range] at hk
      exact hs ▸ hk
    next => exact .refl
  exact (hframed.and (matchAlternative_ends fun u _ => Scope.finite_of_bareValues hv u)).mono
    (fun _ _ h => h.1) fun _ _ h => ⟨h.2, h.1⟩

/-- The first usage writes the slots of `-v` and `go`, and not the one of `run`. -/
theorem run_is_left_alone : ∃ g s t,
    compile {} "Usage:\n  prog [options] go\n  prog run\n\nOptions:\n  -v  Be verbose." = .ok g ∧
      g.matchAlternative 0 s = .ok true t ∧ t.slots.get 0 = .flag true ∧
      t.slots.get 1 = .flag true ∧ g.Framed 0 s.slots t.slots := by
  obtain ⟨g, hg, argv, -, t, hm, hv, hgo⟩ : ∃ g,
      compile {} "Usage:\n  prog [options] go\n  prog run\n\nOptions:\n  -v  Be verbose." = .ok g ∧
        ∃ argv, g.tokenize ["-v", "go"] = .ok argv ∧
          ∃ t, g.matchAlternative 0 ⟨.blank g.slotCount, argv⟩ = .ok true t ∧
            t.slots.get 0 = .flag true ∧ t.slots.get 1 = .flag true := by decide +kernel
  obtain ⟨source, registry, usages, hb, -⟩ := build_of_compile hg
  have hframed := (matchAlternative_framed hb (bare_of_compile hg).values).2 0
    ⟨.blank g.slotCount, argv⟩ List.length_replicate
  exact ⟨g, _, t, hg, hm, hv, hgo, hframed.of_ok hm⟩

end Grammar

end Synopsis
