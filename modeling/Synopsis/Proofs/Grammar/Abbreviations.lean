import Synopsis.Proofs.Argv.Reading
import Synopsis.Proofs.Grammar.Options

/-! # Abbreviated names

A name that is not known stands for the known name that begins with it, if there is only one.
It is names that are counted: two names of one option make an abbreviation ambiguous, too. In
full, a name means itself, so that tokenizing twice is as good as once.
-/

namespace Synopsis

/-! ## The names of a table -/

namespace OptionTable

variable {wanted : Option Nat} {entries : List (String × Option Nat)} {t : OptionTable}
  {name key stem token : String} {o : OptionAtom} {os : List OptionAtom}

theorem map_fst_insertName : (insertName wanted entries name).map (·.1) =
    if name ∈ entries.map (·.1) then entries.map (·.1) else entries.map (·.1) ++ [name] := by
  have hmem : entries.any (·.1 == name) = true ↔ name ∈ entries.map (·.1) := by simp
  unfold insertName
  split
  next h => simp [if_pos (hmem.mp h), Function.comp_def]
  next h => simp [if_neg (mt hmem.mpr h)]

theorem mem_names_insert : key ∈ (t.insert o).names ↔ key ∈ t.names ∨ key ∈ o.names.toList := by
  have hnames (added : List String) (entries : List (String × Option Nat)) :
      key ∈ (added.foldl (insertName (reserved o)) entries).map (·.1) ↔
        key ∈ entries.map (·.1) ∨ key ∈ added := by
    induction added generalizing entries with
    | nil => simp
    | cons name added ih =>
      rw [List.foldl_cons, ih, map_fst_insertName, List.mem_cons, ← or_assoc]
      refine or_congr_left ?_
      split
      next hmem => exact ⟨.inl, fun h => h.elim id (· ▸ hmem)⟩
      next => rw [List.mem_append, List.mem_singleton]
  exact hnames o.names.toList t.entries

theorem nodup_names_insert (h : t.names.Nodup) : (t.insert o).names.Nodup := by
  have hnames (added : List String) (entries : List (String × Option Nat))
      (h : (entries.map (·.1)).Nodup) :
      ((added.foldl (insertName (reserved o)) entries).map (·.1)).Nodup := by
    induction added generalizing entries with
    | nil => exact h
    | cons name added ih =>
      refine ih _ ?_
      rw [map_fst_insertName]
      split
      next => exact h
      next hnew => exact List.nodup_append_comm.mp (List.nodup_cons.mpr ⟨hnew, h⟩)
  exact hnames o.names.toList t.entries h

theorem mem_names_ofList : key ∈ (ofList os).names ↔ ∃ o ∈ os, key ∈ o.names.toList := by
  suffices h : ∀ t : OptionTable, key ∈ (os.foldl insert t).names ↔
      key ∈ t.names ∨ ∃ o ∈ os, key ∈ o.names.toList by
    exact (h {}).trans (or_iff_right (by simp [names]))
  induction os with
  | nil => simp
  | cons o os ih =>
    intro t
    rw [List.foldl_cons, ih, mem_names_insert]
    simp [or_assoc]

theorem nodup_names_ofList : (ofList os).names.Nodup := by
  suffices h : ∀ t : OptionTable, t.names.Nodup → (os.foldl insert t).names.Nodup from h {} .nil
  induction os with
  | nil => exact fun _ h => h
  | cons o os ih => exact fun t h => ih _ (nodup_names_insert h)

/-! ## What an abbreviation stands for -/

theorem mem_extensions : name ∈ t.extensions stem ↔
    name ∈ t.names ∧ 2 < name.utf8ByteSize ∧ name.startsWith stem = true := by
  simp [extensions]

section

variable (h : t.contains stem = false)
include h

theorem resolve_eq_ok_iff : t.resolve stem token = .ok name ↔ t.extensions stem = [name] := by
  rw [resolve, if_neg (by simp [h])]
  split
  next known hk => rw [hk, Except.ok.injEq, List.singleton_inj]
  next hk => simp [hk]
  next hne _ => exact iff_of_false (by simp) (hne name)

theorem resolve_eq_unknown_iff {token' : String} :
    t.resolve stem token = .error (.unknownOption name token') ↔
      name = stem ∧ token' = token ∧ t.extensions stem = [] := by
  rw [resolve, if_neg (by simp [h])]
  split
  next known hk => simp [hk]
  next hk => simp [hk, eq_comm]
  next hne => exact iff_of_false (by simp) fun hk => hne hk.2.2

theorem resolve_eq_ambiguous_iff {candidates : List String} :
    t.resolve stem token = .error (.ambiguousPrefix name candidates) ↔
      name = stem ∧ candidates = t.extensions stem ∧ 2 ≤ (t.extensions stem).length := by
  rw [resolve, if_neg (by simp [h])]
  split
  next known hk => simp [hk]
  next hk => simp [hk]
  next hone hnil =>
    have hlength : 2 ≤ (t.extensions stem).length := by
      rcases hk : t.extensions stem with _ | ⟨known, _ | ⟨_, _⟩⟩
      · exact absurd hk hnil
      · exact absurd hk (hone known)
      · simp
    simp [hlength, eq_comm]

end

end OptionTable

namespace Grammar

variable {g : Grammar} {config : Config} {doc stem : String} {names : List String}

/-- All of the names belong to one option. -/
def OfOne (g : Grammar) (names : List String) : Prop :=
  ∃ o ∈ g.options, ∀ name ∈ names, name ∈ o.names.toList

/-- Two of the names belong to different options. -/
def OfSeveral (g : Grammar) (names : List String) : Prop :=
  ∃ name ∈ names, ∃ other ∈ names, ∀ o ∈ g.options, name ∈ o.names.toList → other ∉ o.names.toList

instance : Decidable (g.OfOne names) := inferInstanceAs (Decidable (∃ o ∈ _, _))

theorem OfOne.not_ofSeveral (h : g.OfOne names) : ¬ g.OfSeveral names := by
  obtain ⟨o, ho, hall⟩ := h
  rintro ⟨name, hname, other, hother, hdiffer⟩
  exact hdiffer o ho (hall name hname) (hall other hother)

/-- Options do not share names, so that any one name tells which option is meant. -/
theorem Coherent.ofOne_of_not_ofSeveral (hc : g.Coherent) (hne : names ≠ [])
    (hk : ∀ name ∈ names, ∃ o ∈ g.options, name ∈ o.names.toList) (h : ¬ g.OfSeveral names) :
    g.OfOne names := by
  obtain ⟨name, hname⟩ := List.exists_mem_of_ne_nil names hne
  obtain ⟨o, ho, hmem⟩ := hk name hname
  refine ⟨o, ho, fun other hother => ?_⟩
  by_contra hnot
  refine h ⟨name, hname, other, hother, fun p hp hmem' hother' => hnot ?_⟩
  rwa [(hc.agree o ho p hp name hmem hmem').names_eq]

theorem OfSeveral.two_le_length (h : g.OfSeveral names)
    (hk : ∀ name ∈ names, ∃ o ∈ g.options, name ∈ o.names.toList) : 2 ≤ names.length := by
  obtain ⟨name, hname, other, hother, hdiffer⟩ := h
  obtain ⟨o, ho, hmem⟩ := hk name hname
  have hne : name ≠ other := fun he => hdiffer o ho hmem (he ▸ hmem)
  rcases names with _ | ⟨only, _ | ⟨_, _⟩⟩
  · cases hname
  · rw [List.mem_singleton] at hname hother
    exact absurd (hname.trans hother.symm) hne
  · simp

theorem Coherent.two_le_length_iff (hc : g.Coherent)
    (hk : ∀ name ∈ names, ∃ o ∈ g.options, name ∈ o.names.toList) :
    2 ≤ names.length ↔ g.OfSeveral names ∨ g.OfOne names ∧ 2 ≤ names.length := by
  refine ⟨fun hlength => ?_, fun h => h.elim (·.two_le_length hk) And.right⟩
  by_cases hseveral : g.OfSeveral names
  · exact .inl hseveral
  · have hne : names ≠ [] := List.ne_nil_of_length_pos (Nat.lt_of_lt_of_le Nat.zero_lt_two hlength)
    exact .inr ⟨hc.ofOne_of_not_ofSeveral hne hk hseveral, hlength⟩

theorem table_eq (h : compile config doc = .ok g) : g.table = .ofList g.options := by
  obtain ⟨_, _, _, _, -, -, -, hb⟩ := parts_of_compile h
  exact (eq_of_build hb).2.2.2.2.2

/-- An abbreviation is completed if one known name begins with it, unknown if none does, and
ambiguous if several do, which are listed in the order of the table. Either they belong to
several options, or they are several names of one option. -/
theorem resolve_abbreviation (h : compile config doc = .ok g) (hs : g.table.contains stem = false)
    (token : String) :
    let known := g.table.extensions stem
    known.Sublist g.table.names ∧ known.Nodup ∧
    (∀ name, name ∈ known ↔ (∃ o ∈ g.options, name ∈ o.names.toList) ∧ 2 < name.utf8ByteSize ∧
      name.startsWith stem = true) ∧
    (∀ name, g.table.resolve stem token = .ok name ↔ known = [name]) ∧
    (∀ stem' candidates, g.table.resolve stem token = .error (.ambiguousPrefix stem' candidates) ↔
      stem' = stem ∧ candidates = known ∧ (g.OfSeveral known ∨ g.OfOne known ∧ 2 ≤ known.length)) ∧
    (∀ name token', g.table.resolve stem token = .error (.unknownOption name token') ↔
      name = stem ∧ token' = token ∧ known = []) ∧
    ((known ≠ [] → g.OfOne known → ∃ name ∈ known, g.table.resolve stem token = .ok name) ↔
      ¬ (g.OfOne known ∧ 2 ≤ known.length)) ∧
    ((∀ stem' candidates, g.table.resolve stem token = .error (.ambiguousPrefix stem' candidates) →
      g.OfSeveral known) ↔ ¬ (g.OfOne known ∧ 2 ≤ known.length)) := by
  intro known
  have hmem (name : String) : name ∈ known ↔ (∃ o ∈ g.options, name ∈ o.names.toList) ∧
      2 < name.utf8ByteSize ∧ name.startsWith stem = true := by
    rw [OptionTable.mem_extensions, table_eq h, OptionTable.mem_names_ofList]
  have hseveral := (coherent_of_compile h).two_le_length_iff fun name hname => ((hmem name).mp hname).1
  have hok (name : String) : g.table.resolve stem token = .ok name ↔ known = [name] :=
    OptionTable.resolve_eq_ok_iff hs
  have hambiguous (stem' : String) (candidates : List String) :
      g.table.resolve stem token = .error (.ambiguousPrefix stem' candidates) ↔
        stem' = stem ∧ candidates = known ∧ 2 ≤ known.length := OptionTable.resolve_eq_ambiguous_iff hs
  refine ⟨List.filter_sublist, ?_, hmem, hok, ?_, ?_, ?_, ?_⟩
  · exact (table_eq h ▸ OptionTable.nodup_names_ofList).filter _
  · intro stem' candidates
    rw [hambiguous, ← hseveral]
  · intro name token'
    exact OptionTable.resolve_eq_unknown_iff hs
  · constructor
    · rintro himp ⟨hone, hlength⟩
      have hne : known ≠ [] := List.ne_nil_of_length_pos (Nat.lt_of_lt_of_le Nat.zero_lt_two hlength)
      obtain ⟨name, -, hname⟩ := himp hne hone
      rw [(hok name).mp hname] at hlength
      simp at hlength
    · intro hnot hne hone
      rcases known with _ | ⟨name, _ | ⟨_, _⟩⟩
      · exact absurd rfl hne
      · exact ⟨name, List.mem_singleton_self name, (hok name).mpr rfl⟩
      · exact absurd ⟨hone, by simp⟩ hnot
  · constructor
    · rintro himp ⟨hone, hlength⟩
      exact hone.not_ofSeveral (himp stem known ((hambiguous stem known).mpr ⟨rfl, rfl, hlength⟩))
    · intro hnot stem' candidates hr
      exact (hseveral.mp ((hambiguous stem' candidates).mp hr).2.2).resolve_right hnot

/-- `--co` begins two options. `--cou` begins one, and that has one name only. -/
theorem several_options_are_ambiguous :
    ∃ g, compile {} "Usage: prog [options]\n\nOptions:\n  --color  Color.\n  -c, --count  Count." = .ok g ∧
      g.table.contains "--co" = false ∧ g.table.contains "--cou" = false ∧
      g.table.resolve "--co" "--co" = .error (.ambiguousPrefix "--co" ["--color", "--count"]) ∧
      g.OfSeveral (g.table.extensions "--co") ∧
      g.table.resolve "--cou" "--cou=1" = .ok "--count" := by
  obtain ⟨g, hg, hco, hcou, hlists, hone, hends⟩ : ∃ g,
      compile {} "Usage: prog [options]\n\nOptions:\n  --color  Color.\n  -c, --count  Count." = .ok g ∧
        g.table.contains "--co" = false ∧ g.table.contains "--cou" = false ∧
        g.table.resolve "--co" "--co" = .error (.ambiguousPrefix "--co" ["--color", "--count"]) ∧
        ¬ g.OfOne (g.table.extensions "--co") ∧ g.table.extensions "--cou" = ["--count"] := by
    decide +kernel
  obtain ⟨-, -, -, -, -, -, -, hseveral⟩ := resolve_abbreviation hg hco "--co"
  obtain ⟨-, -, -, hok, -⟩ := resolve_abbreviation hg hcou "--cou=1"
  exact ⟨g, hg, hco, hcou, hlists, hseveral.mpr (fun h => hone h.1) _ _ hlists, (hok "--count").mpr hends⟩

/-- Both names that begin with `--col` are names of the only option. -/
theorem aliases_are_ambiguous :
    ∃ g, compile {} "Usage: prog [options]\n\nOptions:\n  --color, --colour  Use color." = .ok g ∧
      g.table.contains "--col" = false ∧ g.table.extensions "--col" ≠ [] ∧
      g.OfOne (g.table.extensions "--col") ∧
      g.table.resolve "--col" "--col" = .error (.ambiguousPrefix "--col" ["--color", "--colour"]) := by
  decide +kernel

end Grammar

/-! ## Full names -/

namespace Argv

open Grammar (compile)

/-- Tokenizing the texts of the tokens changes nothing more, whether or not options have been
put in full, values reserved and a `--` put in. No name in a table has a `=`, if the table is
that of a compiled grammar. -/
theorem tokenize_texts :
    (∀ (t : OptionTable) (c : Config) (raw : List String) (a : Argv), (∀ name ∈ t.names, '=' ∉ name.toList) →
      tokenize raw t c = .ok a → tokenize a.texts t c = .ok a) ∧
    ∀ config doc g, compile config doc = .ok g → ∀ name ∈ g.table.names, '=' ∉ name.toList := by
  constructor
  · intro t c raw a hu h
    obtain ⟨ts, hts, h⟩ := Except.bind_eq_ok.mp h
    obtain rfl := Except.ok.inj h
    have hagain := ((tokenizes_of_tokensOf hts).again hu).tokensOf_eq
    exact Except.bind_eq_ok.mpr ⟨ts, hagain, rfl⟩
  · intro config doc g h name hname
    rw [Grammar.table_eq h, OptionTable.mem_names_ofList] at hname
    obtain ⟨o, ho, hname⟩ := hname
    exact ((Grammar.coherent_of_compile h).optionName o ho name hname).unassigned

/-- `--prefix` is a name in full although another one begins with it, and the `--` that was put
in is there once. -/
theorem full_names_are_kept :
    let t : OptionTable := ⟨[("--prefix", some 2), ("--prefixes", none), ("--verbose", none)]⟩
    let c : Config := { optionsFirst := true, attachedShortValues := false }
    (∃ a, tokenize ["--verb=1", "--prefix", "--v", "-x", "run", "--verb"] t c = .ok a ∧
      a.texts = ["--verbose=1", "--prefix", "--v", "-x", "--", "run", "--verb"] ∧
      tokenize a.texts t c = .ok a) ∧
    ∃ g, compile {} "Usage: prog --at=<x>" = .ok g ∧ ∀ name ∈ g.table.names, '=' ∉ name.toList := by
  intro t c
  have hu : ∀ name ∈ t.names, '=' ∉ name.toList := by decide +kernel
  obtain ⟨a, ha, htexts⟩ : ∃ a, tokenize ["--verb=1", "--prefix", "--v", "-x", "run", "--verb"] t c = .ok a ∧
      a.texts = ["--verbose=1", "--prefix", "--v", "-x", "--", "run", "--verb"] := by decide +kernel
  obtain ⟨g, hg, -⟩ : ∃ g, compile {} "Usage: prog --at=<x>" = .ok g ∧ True := by decide +kernel
  exact ⟨⟨a, ha, htexts, tokenize_texts.1 t c _ a hu ha⟩, g, hg, tokenize_texts.2 {} _ g hg⟩

end Argv

end Synopsis
