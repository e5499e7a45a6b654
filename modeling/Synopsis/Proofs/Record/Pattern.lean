import Synopsis.Pattern.Slots
import Synopsis.Proofs.Collections
import Synopsis.Proofs.Data.Json
import Synopsis.Record.Pattern

/-! # Patterns survive as data

A pattern is read as it was written, but for its slots, which are not written.
Numbering does not depend on the slots that were there before, so that numbering
what is read gives the slots that the pattern had.
-/

namespace Synopsis.Pattern

open Datum (Textual)

mutual

/-- The pattern as its datum describes it. -/
def unnumbered : Pattern → Pattern
  | .option ⟨names, none, fallback, _⟩ => .option { names, default := fallback }
  | .option ⟨names, some value, fallback, _⟩ =>
    .option { names, value := some (unnumbered value), default := fallback }
  | .command leaf => .command { names := leaf.names }
  | .argument leaf => .argument { names := leaf.names }
  | .group kind children repeats => .group kind (unnumberedAll children) repeats
  | .either branches => .either (unnumberedAll branches)
  | .shortcut s => .shortcut s

def unnumberedAll : List Pattern → List Pattern
  | [] => []
  | p :: ps => unnumbered p :: unnumberedAll ps

end

@[simp] theorem unnumberedAll_eq_map (ps : List Pattern) :
    unnumberedAll ps = ps.map unnumbered := by
  induction ps with
  | nil => rfl
  | cons p ps ih => rw [unnumberedAll, ih, List.map_cons]

@[simp] theorem toDatumAll_eq_map (ps : List Pattern) : toDatumAll ps = ps.map toDatum := by
  induction ps with
  | nil => rfl
  | cons p ps ih => rw [toDatumAll, ih, List.map_cons]

/-! ## Numbering -/

mutual

theorem number_unnumbered (next : Nat) : ∀ p : Pattern, number next (unnumbered p) = number next p
  | .option ⟨_, none, _, _⟩ | .command _ | .argument _ | .shortcut _ => rfl
  | .option ⟨_, some v, _, _⟩ => by
    simp only [unnumbered, number, number_unnumbered (next + 1) v]
  | .group _ ps _ | .either ps => by
    simp only [unnumbered, number, numberAll_unnumberedAll next ps]

theorem numberAll_unnumberedAll (next : Nat) : ∀ ps : List Pattern,
    numberAll next (unnumberedAll ps) = numberAll next ps
  | [] => rfl
  | p :: ps => by
    simp only [unnumberedAll, numberAll, number_unnumbered next p,
      numberAll_unnumberedAll (number next p).2 ps]

end

mutual

theorem unnumbered_number (next : Nat) : ∀ p : Pattern, unnumbered (number next p).1 = unnumbered p
  | .option ⟨_, none, _, _⟩ | .command _ | .argument _ | .shortcut _ => rfl
  | .option ⟨_, some v, _, _⟩ => by
    simp only [unnumbered, number, unnumbered_number (next + 1) v]
  | .group _ ps _ | .either ps => by
    simp only [unnumbered, number, unnumberedAll_numberAll next ps]

theorem unnumberedAll_numberAll (next : Nat) : ∀ ps : List Pattern,
    unnumberedAll (numberAll next ps).1 = unnumberedAll ps
  | [] => rfl
  | p :: ps => by
    simp only [unnumberedAll, numberAll, unnumbered_number next p,
      unnumberedAll_numberAll (number next p).2 ps]

end

/-- The slots of numbered patterns come back when they are numbered anew. -/
theorem numberAll_unnumberedAll_numberAll (next : Nat) (ps : List Pattern) :
    numberAll next (unnumberedAll (numberAll next ps).1) = numberAll next ps := by
  rw [unnumberedAll_numberAll, numberAll_unnumberedAll]

/-! ## Data -/

theorem textual_optionDatum {names : Names} {value : Option Datum} {fallback : Option String}
    (h : ∀ d ∈ value, Textual d) : Textual (optionDatum names value fallback) := by
  refine .record fun f hf => ?_
  simp only [List.mem_append, List.mem_cons, List.not_mem_nil, or_false, Option.mem_toList,
    Option.map_eq_some_iff] at hf
  rcases hf with ((rfl | rfl) | ⟨d, hd, rfl⟩) | ⟨t, -, rfl⟩
  · exact .str _
  · exact .strings _
  · exact h d hd
  · exact .str t

mutual

theorem textual_toDatum : ∀ p : Pattern, Textual p.toDatum
  | .option ⟨_, none, _, _⟩ => textual_optionDatum nofun
  | .option ⟨_, some v, _, _⟩ => textual_optionDatum fun _ h => Option.mem_some.mp h ▸ textual_toDatum v
  | .command leaf | .argument leaf => by
    refine .record ?_
    simp [Textual.str, Textual.strings]
  | .group _ ps repeats => by
    refine .record ?_
    have := Textual.list (textual_toDatumAll ps)
    simp_all [Textual.str, Textual.bool]
  | .either ps => by
    refine .record ?_
    have := Textual.list (textual_toDatumAll ps)
    simp_all [Textual.str]
  | .shortcut _ => by
    refine .record ?_
    simp [Textual.str, Textual.strings]

theorem textual_toDatumAll : ∀ ps : List Pattern, ∀ d ∈ toDatumAll ps, Textual d
  | [] => nofun
  | p :: ps => List.forall_mem_cons.mpr ⟨textual_toDatum p, textual_toDatumAll ps⟩

end

theorem names?_strings (names : Names) : names? (.strings names.toList) = some names := by
  have hmap (ss : List String) : (ss.map Datum.str).mapM Datum.string? = some ss := by
    induction ss with
    | nil => rfl
    | cons s ss ih => simp [List.mapM_cons, ih, Datum.string?]
  simp [names?, Datum.strings?, Datum.strings, Datum.list?, hmap, OrderedSet.ofList_toList]

theorem exists_toDatum_eq_map (p : Pattern) : ∃ entries, p.toDatum = .map entries := by
  rcases p with ⟨_, _ | _, _, _⟩ | _ | _ | _ | _ | _ <;> exact ⟨_, rfl⟩

/-- A field with all the ways to read it. -/
def part (d : Datum) : Part := ⟨d, fun _ => ofDatum? true d, fun _ => ofData? d⟩

theorem parts_eq_map (entries : List (Datum × Datum)) :
    parts entries = entries.map fun e => (e.1, part e.2) := by
  induction entries with
  | nil => rfl
  | cons e entries ih => rw [parts, ih, List.map_cons]; rfl

theorem partFields?_named {names : List String} {fields : List (String × Part)}
    (hsub : ∀ f ∈ fields, f.1 ∈ names) (hnodup : (fields.map (·.1)).Nodup) :
    partFields? names (fields.map fun f => (.str f.1, f.2)) = some fields := by
  induction fields with
  | nil => rfl
  | cons f fields ih =>
    obtain ⟨hf, hfields⟩ := List.forall_mem_cons.mp hsub
    obtain ⟨hnew, hrest⟩ := List.nodup_cons.mp hnodup
    have hany : fields.any (·.1 == f.1) = false := by
      simp only [List.any_eq_false, beq_iff_eq]
      exact fun g hg he => hnew (List.mem_map.mpr ⟨g, hg, he⟩)
    simp [partFields?, fieldName?, ih hfields hrest, hf, hany]

theorem kind_notMem_fieldNames (kind : String) : "kind" ∉ fieldNames kind := by
  unfold fieldNames
  split <;> simp

/-- A record of a kind and fields of that kind is read from its fields. -/
theorem ofDatum?_record {inner : Bool} {kind : String} {fields : List (String × Datum)}
    (hsub : ∀ f ∈ fields, f.1 ∈ fieldNames kind) (hnodup : (fields.map (·.1)).Nodup) :
    ofDatum? inner (.record (("kind", .str kind) :: fields)) =
      ofFields? kind (fields.map fun f => (f.1, part f.2)) := by
  have hkey (f : String × Datum) (hf : f ∈ fields) : f.1 ≠ "kind" := fun he =>
    kind_notMem_fieldNames kind (he ▸ hsub f hf)
  have hnone : (fields.map fun f => (Datum.str f.1, f.2)).filter (isKindKey ·.1) = [] :=
    List.filter_eq_nil_iff.mpr <| List.forall_mem_map.mpr fun f hf => by
      simpa [isKindKey] using hkey f hf
  have hkind : kind? inner ((.str "kind", .str kind) :: fields.map fun f => (.str f.1, f.2)) =
      some kind := by
    rw [kind?, List.filter_cons_of_pos rfl, hnone]
    rfl
  have hrest : (parts ((.str "kind", .str kind) :: fields.map fun f => (.str f.1, f.2))).filter
      (fun e => !isKindKey e.1) = fields.map fun f => (.str f.1, part f.2) := by
    rw [parts_eq_map, List.map_cons, List.filter_cons_of_neg (by simp [isKindKey]), List.map_map,
      List.filter_eq_self.mpr]
    · rfl
    · exact List.forall_mem_map.mpr fun f hf => by simpa [isKindKey] using hkey f hf
  have hparts : partFields? (fieldNames kind) (fields.map fun f => (.str f.1, part f.2)) =
      some (fields.map fun f => (f.1, part f.2)) := by
    have := partFields?_named
      (List.forall_mem_map.mpr hsub : ∀ f ∈ fields.map fun f => (f.1, part f.2), f.1 ∈ fieldNames kind)
      (by simpa [Function.comp_def] using hnodup)
    rwa [List.map_map] at this
  rw [Datum.record, List.map_cons, ofDatum?, hkind, Option.bind_eq_bind, Option.bind_some, hrest]
  dsimp only
  rw [hparts]
  rfl

mutual

theorem ofDatum?_toDatum (inner : Bool) : ∀ p : Pattern, ofDatum? inner p.toDatum = some p.unnumbered
  | .option ⟨names, none, fallback, _⟩ => by
    rw [toDatum, optionDatum, List.cons_append, List.cons_append, ofDatum?_record]
    · cases fallback <;>
        simp [ofFields?, part, names?_strings, unnumbered, Datum.optionalString?, List.lookup_cons]
    · cases fallback <;> simp [fieldNames]
    · cases fallback <;> simp
  | .option ⟨names, some v, fallback, _⟩ => by
    have ih := ofDatum?_toDatum true v
    rw [toDatum, optionDatum, List.cons_append, List.cons_append, ofDatum?_record]
    · obtain ⟨entries, hentries⟩ := exists_toDatum_eq_map v
      rw [hentries] at ih ⊢
      cases fallback <;>
        simp [ofFields?, part, names?_strings, unnumbered, Datum.optionalString?, List.lookup_cons, ih]
    · cases fallback <;> simp [fieldNames]
    · cases fallback <;> simp
  | .command leaf | .argument leaf => by
    rw [toDatum, ofDatum?_record (by simp [fieldNames]) (by simp)]
    simp [ofFields?, part, names?_strings, unnumbered]
  | .group kind ps repeats => by
    have ih : ofData? (.list (toDatumAll ps)) = some (unnumberedAll ps) := ofItems?_toDatumAll ps
    rw [toDatum, ofDatum?_record (by cases kind <;> simp [fieldNames, GroupKind.name]) (by simp)]
    cases kind <;>
      simp [ofFields?, part, ih, GroupKind.name, List.lookup_cons, Datum.bool?, unnumbered,
        -toDatumAll_eq_map, -unnumberedAll_eq_map]
  | .either ps => by
    have ih : ofData? (.list (toDatumAll ps)) = some (unnumberedAll ps) := ofItems?_toDatumAll ps
    rw [toDatum, ofDatum?_record (by simp [fieldNames]) (by simp)]
    simp [ofFields?, part, ih, unnumbered, -toDatumAll_eq_map, -unnumberedAll_eq_map]
  | .shortcut s => by
    rw [toDatum, ofDatum?_record (by simp [fieldNames]) (by simp)]
    simp [ofFields?, part, names?_strings, List.lookup_cons, Datum.string?, unnumbered]

theorem ofItems?_toDatumAll : ∀ ps : List Pattern, ofItems? (toDatumAll ps) = some (unnumberedAll ps)
  | [] => rfl
  | p :: ps => by
    simp only [toDatumAll, ofItems?, ofDatum?_toDatum true p, ofItems?_toDatumAll ps, unnumberedAll]
    rfl

end

/-- A pattern is read as it was written, without its slots. -/
theorem decode?_toDatum (p : Pattern) : decode? p.toDatum = some p.unnumbered := by
  have htextual := textual_toDatum p
  rw [decode?, htextual.resolve_eq, if_pos htextual.isReadable, ofDatum?_toDatum]

end Synopsis.Pattern
