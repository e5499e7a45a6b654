import Synopsis.Proofs.Grammar.Numbering
import Synopsis.Proofs.Record.Pattern
import Synopsis.Record.Grammar

/-! # A written grammar is read back

All parts of a grammar's record are read as they were written, and building a
grammar from them gives back its slots and its option table.
-/

namespace Synopsis

open Datum (Textual)

/-! ## Records -/

namespace Datum

theorem knownFields?_named {names : List String} {fields : List (String × Datum)}
    (hsub : ∀ f ∈ fields, f.1 ∈ names) (hnodup : (fields.map (·.1)).Nodup) :
    knownFields? names (fields.map fun f => (.str f.1, f.2)) = some fields := by
  induction fields with
  | nil => rfl
  | cons f fields ih =>
    obtain ⟨hf, hfields⟩ := List.forall_mem_cons.mp hsub
    obtain ⟨hnew, hrest⟩ := List.nodup_cons.mp hnodup
    have hany : fields.any (·.1 == f.1) = false := by
      simp only [List.any_eq_false, beq_iff_eq]
      exact fun g hg he => hnew (List.mem_map.mpr ⟨g, hg, he⟩)
    simp [knownFields?, string?, ih hfields hrest, hf, hany]

theorem fields?_record {positional : Bool} {names : List String} {fields : List (String × Datum)}
    (hsub : ∀ f ∈ fields, f.1 ∈ names) (hnodup : (fields.map (·.1)).Nodup) :
    (Datum.record fields).fields? positional names = some fields :=
  knownFields?_named hsub hnodup

end Datum

theorem mapM_map_some {α β γ : Type} {f : α → Option β} {g : γ → α} {h : γ → β} {items : List γ}
    (hf : ∀ x ∈ items, f (g x) = some (h x)) : (items.map g).mapM f = some (items.map h) := by
  induction items with
  | nil => rfl
  | cons x items ih =>
    obtain ⟨hx, hitems⟩ := List.forall_mem_cons.mp hf
    simp [List.mapM_cons, hx, ih hitems]

/-! ## Settings and texts -/

theorem Config.textual_toDatum (c : Config) : Textual c.toDatum := by
  refine .record ?_
  cases c.programName <;> simp [Textual.bool, Textual.str, Textual.null]

theorem Config.ofDatum?_toDatum (positional : Bool) (c : Config) :
    Config.ofDatum? positional c.toDatum = some c := by
  rw [Config.ofDatum?, toDatum, Datum.fields?_record (by simp [fieldNames]) (by simp)]
  cases c with
  | mk _ _ _ _ name =>
    cases name <;>
      simp [Datum.fieldOr?, List.lookup_cons, Datum.bool?, Datum.string?, Datum.optionalString?]

theorem SectionText.textual_toDatum (s : SectionText) : Textual s.toDatum := by
  refine .record ?_
  simp [Textual.str]

theorem SectionText.ofDatum?_toDatum (positional : Bool) (s : SectionText) :
    SectionText.ofDatum? positional s.toDatum = some s := by
  rw [SectionText.ofDatum?, toDatum, Datum.fields?_record (by simp) (by simp)]
  simp [Datum.requiredField?, List.lookup_cons, Datum.string?]

theorem SourceText.textual_toDatum (s : SourceText) : Textual s.toDatum := by
  have := Textual.list (List.forall_mem_map.mpr fun t (_ : t ∈ s.options) => t.textual_toDatum)
  refine .record ?_
  simp [Textual.str, this]

theorem SourceText.ofDatum?_toDatum (positional : Bool) (s : SourceText) :
    SourceText.ofDatum? positional s.toDatum = some s := by
  have hsections : (s.options.map SectionText.toDatum).mapM (SectionText.ofDatum? positional) =
      some s.options := by
    rw [mapM_map_some fun t _ => SectionText.ofDatum?_toDatum positional t, List.map_id']
  rw [SourceText.ofDatum?, toDatum, Datum.fields?_record (by simp) (by simp)]
  simp [Datum.requiredField?, Datum.fieldOr?, List.lookup_cons, Datum.string?, Datum.list?, hsections]

/-! ## Declared options -/

/-- The group as its datum describes it. -/
def OptionGroup.unnumbered (g : OptionGroup) : OptionGroup :=
  { g with entries := Pattern.unnumberedAll g.entries }

theorem mapM_decode?_toDatum (ps : List Pattern) :
    (ps.map Pattern.toDatum).mapM Pattern.decode? = some (Pattern.unnumberedAll ps) := by
  rw [mapM_map_some fun p _ => p.decode?_toDatum, Pattern.unnumberedAll_eq_map]

theorem textual_patterns (ps : List Pattern) : Textual (.list (ps.map Pattern.toDatum)) :=
  .list (List.forall_mem_map.mpr fun p _ => p.textual_toDatum)

theorem OptionGroup.textual_toDatum (g : OptionGroup) : Textual g.toDatum := by
  refine .record ?_
  simp [Textual.str, textual_patterns]

theorem OptionGroup.ofDatum?_toDatum (positional : Bool) (g : OptionGroup) :
    OptionGroup.ofDatum? positional g.toDatum = some g.unnumbered := by
  rw [OptionGroup.ofDatum?, toDatum, Datum.fields?_record (by simp) (by simp)]
  simp [Datum.requiredField?, List.lookup_cons, Datum.string?, Datum.list?, mapM_decode?_toDatum,
    unnumbered, -List.mapM_map]

namespace Registry

/-- The registry as its datum describes it. -/
def unnumbered (r : Registry) : Registry := ⟨r.groups.map OptionGroup.unnumbered⟩

theorem textual_toDatum (r : Registry) : Textual r.toDatum :=
  .list (List.forall_mem_map.mpr fun g _ => g.textual_toDatum)

theorem ofDatum?_toDatum (positional : Bool) (r : Registry) :
    Registry.ofDatum? positional r.toDatum = some r.unnumbered := by
  simp [Registry.ofDatum?, toDatum, Datum.list?,
    mapM_map_some fun g _ => OptionGroup.ofDatum?_toDatum positional g, unnumbered]

/-- The slots of a numbered registry come back when it is numbered anew. -/
theorem number_unnumbered_number (next : Nat) (r : Registry) :
    (r.number next).1.unnumbered.number next = r.number next := by
  have hgroups (groups : List OptionGroup) (next : Nat) :
      number.go next ((number.go next groups).1.map OptionGroup.unnumbered) =
        number.go next groups := by
    induction groups generalizing next with
    | nil => rfl
    | cons g groups ih =>
      simp only [number.go, List.map_cons, OptionGroup.unnumbered,
        Pattern.numberAll_unnumberedAll_numberAll, ih]
  simp only [number, unnumbered, hgroups]

/-- Which sections there are does not depend on slots. -/
theorem hasGroupFor_unnumbered_number (next : Nat) (r : Registry) (s : Shortcut) :
    (r.number next).1.unnumbered.hasGroupFor s = r.hasGroupFor s := by
  have htitles (groups : List OptionGroup) (next : Nat) :
      ((number.go next groups).1.map OptionGroup.unnumbered).map (·.title) =
        groups.map (·.title) := by
    induction groups generalizing next with
    | nil => rfl
    | cons g groups ih => simp only [number.go, List.map_cons, OptionGroup.unnumbered, ih]
  have hany (r : Registry) : r.hasGroupFor s =
      (r.groups.map (·.title)).any fun title => normalizeTitle title == normalizeTitle s.title := by
    rw [List.any_map]
    rfl
  rw [hany, hany]
  exact congrArg (List.any · _) (htitles r.groups next)

end Registry

/-! ## Grammars -/

mutual

theorem Pattern.shortcuts_unnumbered : ∀ p : Pattern, p.unnumbered.shortcuts = p.shortcuts
  | .option ⟨_, none, _, _⟩ | .option ⟨_, some _, _, _⟩ | .command _ | .argument _ | .shortcut _ => rfl
  | .group _ ps _ | .either ps => by
    have ih := Pattern.shortcuts_unnumberedAll ps
    simp only [Pattern.unnumbered, Pattern.shortcuts, Pattern.leaves,
      Pattern.leavesAll_eq_flatMap, List.filterMap_flatMap]
    exact ih

theorem Pattern.shortcuts_unnumberedAll : ∀ ps : List Pattern,
    (Pattern.unnumberedAll ps).flatMap Pattern.shortcuts = ps.flatMap Pattern.shortcuts
  | [] => rfl
  | p :: ps => by
    rw [Pattern.unnumberedAll, List.flatMap_cons, List.flatMap_cons, p.shortcuts_unnumbered,
      Pattern.shortcuts_unnumberedAll ps]

end

theorem GrammarRecord.textual_toDatum (r : GrammarRecord) : Textual r.toDatum := by
  refine .record ?_
  simp [Textual.str, textual_patterns, r.config.textual_toDatum, r.source.textual_toDatum,
    r.registry.textual_toDatum]

theorem GrammarRecord.ofDatum?_toDatum (positional : Bool) (r : GrammarRecord) :
    GrammarRecord.ofDatum? positional r.toDatum =
      some { r with
        registry := r.registry.unnumbered
        usages := Pattern.unnumberedAll r.usages } := by
  rw [GrammarRecord.ofDatum?, toDatum, Datum.fields?_record (by simp [fieldNames]) (by simp)]
  simp [Datum.requiredField?, Datum.fieldOr?, List.lookup_cons, Datum.string?, Datum.list?,
    Config.ofDatum?_toDatum, SourceText.ofDatum?_toDatum, Registry.ofDatum?_toDatum,
    mapM_decode?_toDatum, -List.mapM_map]

namespace Grammar

variable {g : Grammar} {config : Config} {source : SourceText} {registry : Registry}
  {usages : List Pattern}

theorem build_congr {registry' : Registry} {usages' : List Pattern}
    (hs : unknownShortcut? registry' usages' = unknownShortcut? registry usages)
    (hr : registry'.number 0 = registry.number 0)
    (hu : ∀ next, Pattern.numberAll next usages' = Pattern.numberAll next usages) :
    build config source registry' usages' = build config source registry usages := by
  simp only [build, hs, hr, hu]

/-- Building a grammar from its written parts gives the grammar, slots and option table included. -/
theorem build_unnumbered (h : build config source registry usages = .ok g) :
    build g.config g.source g.registry.unnumbered (Pattern.unnumberedAll g.usages) = .ok g := by
  obtain ⟨hconfig, hsource, hregistry, husages, -⟩ := eq_of_build h
  rw [← h, hconfig, hsource, hregistry, husages, Pattern.unnumberedAll_numberAll]
  refine build_congr ?_ (registry.number_unnumbered_number 0)
    fun next => Pattern.numberAll_unnumberedAll next usages
  simp only [unknownShortcut?, Registry.hasGroupFor_unnumbered_number,
    Pattern.shortcuts_unnumberedAll]

/-- A grammar comes back from its JSON text if its record stands within the limit. -/
theorem ofJsonWithin_toJson (h : build config source registry usages = .ok g) {limit : Option Nat}
    (hfit : ∀ bound ∈ limit, g.toRecord.toDatum.height ≤ bound) :
    ofJsonWithin limit g.toJson = .ok g := by
  rw [ofJsonWithin, toJson, Json.parseWithin?_pretty (GrammarRecord.textual_toDatum _) 0 hfit,
    Option.bind_some, GrammarRecord.ofDatum?_toDatum]
  exact (if_pos rfl).trans (build_unnumbered h)

/-- A grammar that was built comes back from its JSON text with all its parts, slots and
option table included: always when nesting is not limited, and within the usual limit. -/
theorem ofJson_toJson (h : build config source registry usages = .ok g) :
    ofJsonWithin none g.toJson = .ok g ∧
      (g.toRecord.toDatum.height ≤ Json.maxDepth → ofJson g.toJson = .ok g) :=
  ⟨ofJsonWithin_toJson h nofun, fun hheight =>
    ofJsonWithin_toJson h fun _ hb => Option.some.inj hb ▸ hheight⟩

/-- The options `-o=<f>`, with a default, and `-q`. -/
def copyingOptions : Registry where
  groups := [{
    title := "Options:"
    entries := [
      .optional [.option
        { names := .singleton "-o", value := some (.argumentNamed "<f>"), default := some "x" }],
      .group .optional [.optionNamed "-q"] true] }]

/-- The usage `[options] (copy | move) [<x>...]`. -/
def copyingUsages : List Pattern :=
  [.required [.optional [.shortcut { title := "" }],
    .required [.either [.commandNamed "copy", .commandNamed "move"]],
    .group .optional [.argumentNamed "<x>"] true]]

theorem copying_grammar : ∃ g, build {} {} copyingOptions copyingUsages = .ok g ∧
    g.slotCount = 6 ∧ g.toRecord.toDatum.height ≤ Json.maxDepth :=
  ⟨_, rfl, rfl, by decide⟩

theorem copying_survives : ∃ g, build {} {} copyingOptions copyingUsages = .ok g ∧
    g.slotCount = 6 ∧ ofJsonWithin none g.toJson = .ok g ∧ ofJson g.toJson = .ok g := by
  obtain ⟨g, hg, hslots, hheight⟩ := copying_grammar
  have hread := ofJson_toJson hg
  exact ⟨g, hg, hslots, hread.1, hread.2 hheight⟩

end Grammar

end Synopsis
