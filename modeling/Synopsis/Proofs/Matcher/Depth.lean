import Mathlib.Data.Nat.Find
import Synopsis.Proofs.Help.Registry
import Synopsis.Proofs.Matcher.Reach

/-! # How deep patterns are

A recursion that enters no value patterns ends within a bound from the number of nodes.
So does one that enters them, unless a declared option leads back to a shortcut.
-/

namespace Synopsis

variable {scope : Scope} {p c : Pattern} {ps : List Pattern} {n m : Nat} {rs : List Recorded}
  {f f' : Pattern → Option (List Recorded)}

namespace Pattern

theorem nodes_le_nodesAll (hc : c ∈ ps) : c.nodes ≤ nodesAll ps := by
  induction ps with
  | nil => cases hc
  | cons p ps ih =>
    rw [nodesAll]
    rcases List.mem_cons.mp hc with rfl | hc
    · exact Nat.le_add_right _ _
    · exact Nat.le_trans (ih hc) (Nat.le_add_left _ _)

theorem nodesAll_append (ps qs : List Pattern) : nodesAll (ps ++ qs) = nodesAll ps + nodesAll qs := by
  induction ps with
  | nil => rw [List.nil_append, nodesAll, Nat.zero_add]
  | cons p ps ih => rw [List.cons_append, nodesAll, nodesAll, ih, Nat.add_assoc]

theorem nodes_pos (p : Pattern) : 0 < p.nodes := by
  unfold nodes
  split <;> omega

end Pattern

/-! ## Bounds of a match -/

/-- A bound that a match keeps if it takes no option. -/
def Suffices (scope : Scope) : Nat → Pattern → Prop
  | 0, _ => False
  | n + 1, .group _ children _ => ∀ c ∈ children, Suffices scope n c
  | n + 1, .either branches => ∀ c ∈ branches, Suffices scope n c
  | n + 1, .shortcut s => ∀ e ∈ scope.visible s, Suffices scope n e
  | _ + 1, _ => True

/-- Behind a shortcut, there are the groups of the declared options only. -/
theorem Pattern.isEntry_of_mem_visible {sc : Shortcut} {e : Pattern} (he : e ∈ scope.visible sc) :
    e.IsEntry := by
  obtain ⟨⟨o, repeats⟩, ho, -⟩ := (Option.any_eq_true _ _).mp (List.mem_filter.mp he).2
  exact ⟨o, repeats, eq_of_entryOption? ho⟩

theorem suffices_of_nodes_le (h : p.nodes ≤ n) : Suffices scope (n + 2) p := by
  induction n generalizing p with
  | zero => exact absurd h (Nat.not_le_of_gt p.nodes_pos)
  | succ n ih =>
    have children {ps : List Pattern} (hps : Pattern.nodesAll ps + 1 ≤ n + 1) :
        ∀ c ∈ ps, Suffices scope (n + 2) c :=
      fun c hc => ih (Nat.le_trans (Pattern.nodes_le_nodesAll hc) (Nat.le_of_succ_le_succ hps))
    cases p with
    | option | command | argument => trivial
    | group | either => exact children h
    | shortcut s =>
      intro e hmem
      obtain ⟨o, a, rfl⟩ := Pattern.isEntry_of_mem_visible hmem
      exact List.forall_mem_singleton.mpr trivial

theorem suffices_fuel (scope : Scope) (p : Pattern) (a : Argv) : Suffices scope (scope.fuel p a) p := by
  have hdepth : p.nodes + 1 ≤ scope.depth p := by
    rw [Scope.depth]
    omega
  have hfuel := Nat.mul_le_mul hdepth (Nat.le_add_left 2 a.size)
  obtain ⟨k, hk⟩ := Nat.exists_eq_add_of_le (show p.nodes + 2 ≤ scope.fuel p a by
    rw [Scope.fuel]
    omega)
  rw [hk, Nat.add_right_comm]
  exact suffices_of_nodes_le (Nat.le_add_right _ _)

/-! ## Bounds of a record -/

/-- Declared options do not lead back to a shortcut. -/
def Scope.Grounded (scope : Scope) : Prop :=
  ∀ e ∈ scope.registry.entries, ∀ q, Pattern.Reaches scope e q → q.shortcut? = none

namespace Pattern

theorem mapM_flatten_of_isSome (h : ∀ p ∈ ps, (f p).isSome) :
    (ps.mapM f).map List.flatten = some (ps.flatMap fun p => (f p).getD []) := by
  induction ps with
  | nil => rfl
  | cons p ps ih =>
    obtain ⟨hp, hps⟩ := List.forall_mem_cons.mp h
    obtain ⟨rs, hrs⟩ := Option.isSome_iff_exists.mp hp
    obtain ⟨rss, hrss, he⟩ := Option.map_eq_some_iff.mp (ih hps)
    simp [List.mapM_cons, hrs, hrss, he]

theorem isSome_mapM_flatten (h : ∀ p ∈ ps, (f p).isSome) : ((ps.mapM f).map List.flatten).isSome := by
  rw [mapM_flatten_of_isSome h]
  rfl

/-- Without shortcuts, the nodes are all that there is to enter. -/
theorem recorded?_isSome_of_nodes_le (h : ∀ q, Reaches scope p q → q.shortcut? = none)
    (hn : p.nodes ≤ n) : (p.recorded? scope n).isSome := by
  induction n generalizing p with
  | zero => exact absurd hn (Nat.not_le_of_gt p.nodes_pos)
  | succ n ih =>
    cases p with
    | command | argument => rfl
    | shortcut => cases h _ .refl
    | option o =>
      obtain ⟨names, value, fallback, slot⟩ := o
      cases value with
      | none => simp [recorded?]
      | some v =>
        have hv : (v.recorded? scope n).isSome :=
          ih (fun q hq => h q (.value rfl hq)) (Nat.le_of_succ_le_succ hn)
        obtain ⟨rs, hrs⟩ := Option.isSome_iff_exists.mp hv
        simp [recorded?, hrs]
    | group kind children repeats =>
      exact isSome_mapM_flatten fun c hc => ih (fun q hq => h q (.child hc hq))
        (Nat.le_trans (nodes_le_nodesAll hc) (Nat.le_of_succ_le_succ hn))
    | either branches =>
      exact isSome_mapM_flatten fun c hc => ih (fun q hq => h q (.branch hc hq))
        (Nat.le_trans (nodes_le_nodesAll hc) (Nat.le_of_succ_le_succ hn))

/-- Only the entries that a shortcut can stand for matter. -/
theorem recorded?_isSome_of_visible
    (hg : ∀ sc, ∀ e ∈ scope.visible sc, ∀ q, Reaches scope e q → q.shortcut? = none)
    (hn : p.nodes + nodesAll scope.registry.entries ≤ n) : (p.recorded? scope n).isSome := by
  induction n generalizing p with
  | zero => exact absurd (Nat.le_trans (Nat.le_add_right _ _) hn) (Nat.not_le_of_gt p.nodes_pos)
  | succ n ih =>
    have children {ps : List Pattern}
        (hps : nodesAll ps + 1 + nodesAll scope.registry.entries ≤ n + 1) :
        ∀ c ∈ ps, (c.recorded? scope n).isSome := by
      intro c hc
      have := nodes_le_nodesAll hc
      exact ih (by omega)
    cases p with
    | command | argument => rfl
    | option o =>
      obtain ⟨names, value, fallback, slot⟩ := o
      cases value with
      | none => simp [recorded?]
      | some v =>
        rw [nodes] at hn
        obtain ⟨rs, hrs⟩ := Option.isSome_iff_exists.mp (ih (p := v) (by omega))
        simp [recorded?, hrs]
    | group | either => exact isSome_mapM_flatten (children hn)
    | shortcut s =>
      refine isSome_mapM_flatten fun e he => ?_
      have hentry := mem_entries_of_visible he
      have := nodes_le_nodesAll hentry
      change 1 + nodesAll scope.registry.entries ≤ n + 1 at hn
      exact recorded?_isSome_of_nodes_le (hg s e he) (by omega)

theorem recorded?_isSome_of_grounded (hg : scope.Grounded)
    (hn : p.nodes + nodesAll scope.registry.entries ≤ n) : (p.recorded? scope n).isSome :=
  recorded?_isSome_of_visible (fun _ e he => hg e (mem_entries_of_visible he)) hn

theorem recorded?_isSome (hg : scope.Grounded) (p : Pattern) :
    (p.recorded? scope (scope.depth p)).isSome :=
  recorded?_isSome_of_grounded hg (by rw [Scope.depth]; omega)

theorem mapM_flatten_mono (h : (ps.mapM f).map List.flatten = some rs)
    (hf : ∀ p ∈ ps, ∀ rs, f p = some rs → f' p = some rs) :
    (ps.mapM f').map List.flatten = some rs := by
  have hsome := (mapM_flatten_some h).1
  have heq : ∀ p ∈ ps, f' p = f p := by
    intro p hp
    obtain ⟨rs, hrs⟩ := Option.isSome_iff_exists.mp (hsome p hp)
    rw [hrs, hf p hp rs hrs]
  rw [mapM_flatten_of_isSome fun p hp => heq p hp ▸ hsome p hp, ← h, mapM_flatten_of_isSome hsome]
  congr 1
  exact List.flatMap_congr fun p hp => by rw [heq p hp]

/-- What is recorded within a bound is all that is recorded. -/
theorem recorded?_mono (h : p.recorded? scope n = some rs) (hm : n ≤ m) :
    p.recorded? scope m = some rs := by
  induction n generalizing p rs m with
  | zero => cases h
  | succ n ih =>
    obtain ⟨m, rfl⟩ := Nat.exists_eq_add_of_lt (Nat.lt_of_succ_le hm)
    have inner {ps : List Pattern} {rs : List Recorded}
        (hps : (ps.mapM (recorded? scope n)).map List.flatten = some rs) :
        (ps.mapM (recorded? scope (n + m))).map List.flatten = some rs :=
      mapM_flatten_mono hps fun p _ rs hrs => ih hrs (Nat.le_add_right _ _)
    cases p with
    | command | argument => exact h
    | group | either | shortcut => exact inner h
    | option o =>
      simp only [recorded?, Option.bind_eq_bind, Option.bind_eq_some_iff] at h ⊢
      obtain ⟨rs, hrs, h⟩ := h
      exact ⟨rs, inner hrs, h⟩

/-! ## Records that end -/

theorem isSome_recorded?_mono (hm : n ≤ m) (h : (p.recorded? scope n).isSome) :
    (p.recorded? scope m).isSome := by
  obtain ⟨rs, hrs⟩ := Option.isSome_iff_exists.mp h
  exact Option.isSome_iff_exists.mpr ⟨rs, recorded?_mono hrs hm⟩

theorem nodesAll_le_of_sublist {qs : List Pattern} (h : ps.Sublist qs) :
    nodesAll ps ≤ nodesAll qs := by
  induction h with
  | slnil => exact le_rfl
  | cons p _ ih => exact Nat.le_trans ih (Nat.le_add_left _ _)
  | cons_cons p _ ih => exact Nat.add_le_add_left ih _

/-- A pattern that only the weaker condition lets through makes a difference of its nodes. -/
theorem nodesAll_filter_add_nodes {q r : Pattern → Bool} (h : q ≤ r) (hc : c ∈ ps)
    (hq : q c = false) (hr : r c = true) :
    nodesAll (ps.filter q) + c.nodes ≤ nodesAll (ps.filter r) := by
  obtain ⟨l₁, l₂, rfl⟩ := List.append_of_mem hc
  have h₁ := nodesAll_le_of_sublist (List.monotone_filter_right l₁ h)
  have h₂ := nodesAll_le_of_sublist (List.monotone_filter_right l₂ h)
  simp only [List.filter_append, List.filter_cons, hq, hr, Bool.false_eq_true, if_false, if_true,
    nodesAll_append, nodesAll]
  omega

/-- The nodes of the declared options that end within a bound. -/
def nodesWithin (scope : Scope) (n : Nat) : Nat :=
  nodesAll (scope.registry.entries.filter fun e => (e.recorded? scope n).isSome)

theorem nodesWithin_mono (h : n ≤ m) : nodesWithin scope n ≤ nodesWithin scope m :=
  nodesAll_le_of_sublist (List.monotone_filter_right _ fun _ => isSome_recorded?_mono h)

/-- Declared options that end do not lie within themselves, so on the way down each is
entered at most once. -/
theorem isSome_recorded?_nodes (h : (p.recorded? scope n).isSome) :
    (p.recorded? scope (p.nodes + nodesWithin scope (n - 1))).isSome := by
  induction n using Nat.strong_induction_on generalizing p with
  | h n ih =>
  cases n with
  | zero => cases h
  | succ n =>
    rw [Nat.add_sub_cancel]
    have inner {q : Pattern} {k : Nat} (hq : (q.recorded? scope n).isSome) (hk : q.nodes ≤ k) :
        (q.recorded? scope (k + nodesWithin scope n)).isSome := by
      have hless : nodesWithin scope (n - 1) ≤ nodesWithin scope n := nodesWithin_mono (Nat.sub_le n 1)
      exact isSome_recorded?_mono (by omega) (ih n (Nat.lt_succ_self n) hq)
    have all {ps : List Pattern} {f : Nat}
        (hps : ((ps.mapM (recorded? scope n)).map List.flatten).isSome)
        (hf : ∀ q ∈ ps, (q.recorded? scope n).isSome → (q.recorded? scope f).isSome) :
        ((ps.mapM (recorded? scope f)).map List.flatten).isSome := by
      obtain ⟨rs, hrs⟩ := Option.isSome_iff_exists.mp hps
      exact isSome_mapM_flatten fun q hq => hf q hq ((mapM_flatten_some hrs).1 q hq)
    cases p with
    | command | argument =>
      change (recorded? scope (1 + nodesWithin scope n) _).isSome
      rw [Nat.add_comm]
      rfl
    | option o =>
      obtain ⟨names, value, fallback, slot⟩ := o
      cases value with
      | none =>
        change (recorded? scope (1 + nodesWithin scope n) _).isSome
        rw [Nat.add_comm]
        rfl
      | some v =>
        have hv : (v.recorded? scope n).isSome := by
          cases hv : v.recorded? scope n with
          | none => simp [recorded?, hv] at h
          | some rs => rfl
        obtain ⟨rs, hrs⟩ := Option.isSome_iff_exists.mp (inner hv le_rfl)
        rw [nodes, Nat.add_right_comm]
        simp [recorded?, hrs]
    | group kind ps repeats =>
      rw [nodes, Nat.add_right_comm]
      exact all h fun q hq hsome => inner hsome (nodes_le_nodesAll hq)
    | either ps =>
      rw [nodes, Nat.add_right_comm]
      exact all h fun q hq hsome => inner hsome (nodes_le_nodesAll hq)
    | shortcut sc =>
      change (recorded? scope (1 + nodesWithin scope n) _).isSome
      rw [Nat.add_comm]
      refine all h fun e he hsome => ?_
      -- The least bound of an entry leaves the entry itself out.
      have hexists : ∃ k, (e.recorded? scope k).isSome := ⟨n, hsome⟩
      have hleast := Nat.find_min' hexists hsome
      obtain ⟨k, hk⟩ : ∃ k, Nat.find hexists = k + 1 := by
        refine Nat.exists_eq_succ_of_ne_zero fun hzero => ?_
        have hfind := Nat.find_spec hexists
        rw [hzero] at hfind
        cases hfind
      have hout : (e.recorded? scope k).isSome = false := by
        simpa using Nat.find_min hexists (show k < Nat.find hexists by omega)
      have hin := ih (k + 1) (by omega) (hk ▸ Nat.find_spec hexists)
      refine isSome_recorded?_mono ?_ hin
      rw [Nat.add_sub_cancel, Nat.add_comm]
      exact nodesAll_filter_add_nodes (fun _ => isSome_recorded?_mono (by omega))
        (mem_entries_of_visible he) hout hsome

/-- A record that ends at all ends within the bound of the match. -/
theorem isSome_recorded?_depth (h : ∃ n, (p.recorded? scope n).isSome) :
    (p.recorded? scope (scope.depth p)).isSome := by
  obtain ⟨n, hn⟩ := h
  refine isSome_recorded?_mono ?_ (isSome_recorded?_nodes hn)
  have hall : nodesWithin scope (n - 1) ≤ nodesAll scope.registry.entries :=
    nodesAll_le_of_sublist List.filter_sublist
  rw [Scope.depth]
  omega

end Pattern

end Synopsis
