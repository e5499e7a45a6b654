import Mathlib.Data.List.Nodup
import Synopsis.Help.Compile
import Synopsis.Proofs.Help.Written

/-! # Declared options

Every entry of a registry that was read is an optional option, its names begin with
a hyphen and have no `=`, and no name is declared twice. So a name leads to one declared
option. Alternations in its value have branches.
-/

namespace Synopsis

namespace Except

variable {ε α β : Type} {f : α → β → Except ε α} {P : α → Prop}

/-- What every step of a fold keeps, the fold keeps. -/
theorem foldlM_keeps {bs : List β} {a a' : α}
    (step : ∀ b ∈ bs, ∀ a a', P a → f a b = .ok a' → P a')
    (h : bs.foldlM f a = .ok a') (ha : P a) : P a' := by
  induction bs generalizing a with
  | nil =>
    obtain rfl := Except.ok.inj h
    exact ha
  | cons b bs ih =>
    rw [List.foldlM_cons] at h
    obtain ⟨c, hc, h⟩ := Except.bind_eq_ok.mp h
    obtain ⟨hb, hbs⟩ := List.forall_mem_cons.mp step
    exact ih hbs h (hb a c ha hc)

theorem forall_of_mapM {f : α → Except ε β} {as : List α} {bs : List β} (h : as.mapM f = .ok bs) :
    ∀ b ∈ bs, ∃ a ∈ as, f a = .ok b := by
  induction as generalizing bs with
  | nil =>
    obtain rfl := Except.ok.inj h
    exact nofun
  | cons a as ih =>
    rw [List.mapM_cons] at h
    obtain ⟨b, hb, h⟩ := Except.bind_eq_ok.mp h
    obtain ⟨bs, hbs, h⟩ := Except.bind_eq_ok.mp h
    obtain rfl := Except.ok.inj h
    refine List.forall_mem_cons.mpr ⟨⟨a, List.mem_cons_self, hb⟩, fun c hc => ?_⟩
    obtain ⟨a', ha', hc⟩ := ih hbs c hc
    exact ⟨a', List.mem_cons_of_mem _ ha', hc⟩

theorem exists_of_mapM {f : α → Except ε β} {as : List α} {bs : List β} (h : as.mapM f = .ok bs) :
    ∀ a ∈ as, ∃ b ∈ bs, f a = .ok b := by
  induction as generalizing bs with
  | nil => exact nofun
  | cons a as ih =>
    rw [List.mapM_cons] at h
    obtain ⟨b, hb, h⟩ := Except.bind_eq_ok.mp h
    obtain ⟨bs, hbs, h⟩ := Except.bind_eq_ok.mp h
    obtain rfl := Except.ok.inj h
    refine List.forall_mem_cons.mpr ⟨⟨b, List.mem_cons_self, hb⟩, fun c hc => ?_⟩
    obtain ⟨b', hb', hc⟩ := ih hbs c hc
    exact ⟨b', List.mem_cons_of_mem _ hb', hc⟩

end Except

open Help (OptionName)

/-! ## Registries -/

/-- An entry as sections have them. -/
def Pattern.IsEntry (p : Pattern) : Prop := ∃ o repeats, p = .group .optional [.option o] repeats

theorem Pattern.eq_of_entryOption? {p : Pattern} {o : OptionAtom} {repeats : Bool}
    (h : p.entryOption? = some (o, repeats)) : p = .group .optional [.option o] repeats := by
  unfold entryOption? at h
  split at h
  · obtain ⟨rfl, rfl⟩ := Prod.mk.inj (Option.some.inj h)
    rfl
  · cases h

/-- The registry of some sections that were read. -/
structure Registry.Proper (r : Registry) : Prop where
  entry : ∀ e ∈ r.entries, e.IsEntry
  nodup : r.names.Nodup
  optionName : ∀ name ∈ r.names, OptionName name
  branched : ∀ x ∈ r.options, x.1.ValueBranched

namespace Registry

variable {r : Registry} {o p : OptionAtom} {a b : Bool} {name : String}

theorem names_eq_flatMap (r : Registry) :
    r.names = r.options.flatMap fun (o, _) => o.names.toList := by
  simp only [names, options, entries, List.filterMap_flatMap, List.flatMap_assoc]
  rfl

theorem mem_names : name ∈ r.names ↔ ∃ o repeats, (o, repeats) ∈ r.options ∧ name ∈ o.names.toList := by
  rw [names_eq_flatMap]
  simp

theorem mem_entries (ho : (o, a) ∈ r.options) : .group .optional [.option o] a ∈ r.entries := by
  obtain ⟨e, he, ho⟩ := List.mem_filterMap.mp ho
  exact Pattern.eq_of_entryOption? ho ▸ he

namespace Proper

variable (h : r.Proper)
include h

/-- A name belongs to one declared option. -/
theorem option_unique (ho : (o, a) ∈ r.options) (hp : (p, b) ∈ r.options)
    (hname : name ∈ o.names.toList) (hname' : name ∈ p.names.toList) : (o, a) = (p, b) := by
  have hnodup := r.names_eq_flatMap ▸ h.nodup
  obtain ⟨-, hdisjoint⟩ := List.nodup_flatMap.mp hnodup
  have : Std.Symm fun x y : OptionAtom × Bool => List.Disjoint x.1.names.toList y.1.names.toList :=
    ⟨fun _ _ h _ hi hj => h hj hi⟩
  by_contra hne
  exact hdisjoint.forall ho hp hne hname hname'

theorem filter_names {key : String} (ho : (o, a) ∈ r.options)
    (hkey : key ∈ o.names.toList) : r.options.filter (·.1.names = o.names) = [(o, a)] := by
  have hnodup := h.nodup
  rw [r.names_eq_flatMap] at hnodup
  generalize r.options = l at ho hnodup
  -- The names of the others are disjoint from those of the option.
  have others {l : List (OptionAtom × Bool)} (hl : ∀ x ∈ l, key ∉ x.1.names.toList) :
      l.filter (·.1.names = o.names) = [] := by
    refine List.filter_eq_nil_iff.mpr fun x hx he => hl x hx ?_
    rwa [of_decide_eq_true he]
  obtain ⟨l₁, l₂, rfl⟩ := List.append_of_mem ho
  rw [List.flatMap_append, List.flatMap_cons, List.nodup_append'] at hnodup
  obtain ⟨-, hrest, hfront⟩ := hnodup
  rw [List.filter_append, List.filter_cons_of_pos (by simp), others, others]
  · rfl
  · intro x hx hx'
    exact (List.nodup_append'.mp hrest).2.2 hkey (List.mem_flatMap.mpr ⟨x, hx, hx'⟩)
  · intro x hx hx'
    exact hfront (List.mem_flatMap.mpr ⟨x, hx, hx'⟩) (List.mem_append_left _ hkey)

theorem find?_eq_some_iff : r.find? name = some (o, a) ↔ (o, a) ∈ r.options ∧ name ∈ o.names.toList := by
  constructor
  · intro hfind
    have hname := List.find?_some hfind
    exact ⟨List.mem_of_find?_eq_some hfind, OrderedSet.contains_iff.mp hname⟩
  · rintro ⟨ho, hname⟩
    have hsome : (r.find? name).isSome :=
      List.find?_isSome.mpr ⟨_, ho, OrderedSet.contains_iff.mpr hname⟩
    obtain ⟨⟨p, b⟩, hp⟩ := Option.isSome_iff_exists.mp hsome
    have hname' := List.find?_some hp
    rw [hp, h.option_unique (List.mem_of_find?_eq_some hp) ho
      (OrderedSet.contains_iff.mp hname') hname]

end Proper

theorem find?_eq_none_iff : r.find? name = none ↔ name ∉ r.names := by
  rw [find?, List.find?_eq_none, mem_names]
  simp only [OptionOf.hasName, OrderedSet.contains_iff]
  exact ⟨fun h ⟨o, a, ho, hname⟩ => h (o, a) ho hname, fun h x hx hname => h ⟨x.1, x.2, hx, hname⟩⟩

theorem firstDuplicate?_eq_none {seen names : List String} (h : firstDuplicate? seen names = none) :
    names.Nodup ∧ ∀ name ∈ names, name ∉ seen := by
  induction names generalizing seen with
  | nil => exact ⟨.nil, nofun⟩
  | cons name names ih =>
    unfold firstDuplicate? at h
    split at h
    next => cases h
    next hnew =>
      obtain ⟨hnodup, hother⟩ := ih h
      simp only [List.contains_iff_mem] at hnew
      refine ⟨List.nodup_cons.mpr ⟨fun hmem => hother name hmem List.mem_cons_self, hnodup⟩, ?_⟩
      exact List.forall_mem_cons.mpr
        ⟨hnew, fun n hn hs => hother n hn (List.mem_cons_of_mem _ hs)⟩

theorem Proper.pushGroup {g : OptionGroup} {r' : Registry} (h : r.Proper)
    (hg : ∀ e ∈ g.entries, e.IsEntry) (hn : ∀ name ∈ g.names, OptionName name)
    (hb : ∀ x ∈ g.options, x.1.ValueBranched) (hr : r.pushGroup g = .ok r') : r'.Proper := by
  unfold Registry.pushGroup at hr
  split at hr
  next => cases hr
  next hdup =>
    obtain rfl := Except.ok.inj hr
    obtain ⟨hnodup, hnew⟩ := firstDuplicate?_eq_none hdup
    have hnames : Registry.names ⟨r.groups ++ [g]⟩ = r.names ++ g.names := by
      simp [Registry.names]
    have hentries : Registry.entries ⟨r.groups ++ [g]⟩ = r.entries ++ g.entries := by
      simp [Registry.entries]
    refine ⟨?_, ?_, ?_, ?_⟩
    · rw [hentries]
      exact List.forall_mem_append.mpr ⟨h.entry, hg⟩
    · rw [hnames]
      exact List.nodup_append'.mpr ⟨h.nodup, hnodup, fun name hr hg => hnew name hg hr⟩
    · rw [hnames]
      exact List.forall_mem_append.mpr ⟨h.optionName, hn⟩
    · rw [options, hentries, List.filterMap_append]
      exact List.forall_mem_append.mpr ⟨h.branched, hb⟩

end Registry

/-! ## Reading sections -/

namespace Help

variable {config : Config}

theorem optionName_addName {d : Declared} {standard : Bool} {word : List Char}
    (hd : ∀ name ∈ d.names.toList, OptionName name) (hw : word.head? = some '-') (hu : '=' ∉ word) :
    ∀ name ∈ (d.addName standard word).names.toList, OptionName name := by
  intro name hname
  rcases OrderedSet.mem_insert.mp hname with rfl | hname
  · obtain ⟨cs, rfl⟩ := List.head?_eq_some_iff.mp hw
    split
    · exact ⟨by simp [Hyphenated], by simpa using hu⟩
    · cases standard with
      | false => exact ⟨by simp [Hyphenated], by simpa using hu⟩
      | true =>
        refine ⟨by simp [Hyphenated, List.splitAt_eq], ?_⟩
        simp only [if_true, List.splitAt_eq, String.toList_ofList]
        exact fun hmem => hu (List.mem_of_mem_take hmem)
  · exact hd name hname

theorem names_addWords {d d' : Declared} {declaration : List Char} {words : List (List Char)}
    (h : d.addWords config declaration words = .ok d') : d'.names = d.names := by
  unfold Declared.addWords at h
  split at h
  · obtain rfl := Except.ok.inj h
    rfl
  · split at h
    · obtain rfl := Except.ok.inj h
      rfl
    · cases h
  · obtain ⟨elements, -, h⟩ := Except.bind_eq_ok.mp h
    obtain rfl := Except.ok.inj h
    rfl

theorem optionName_addAll {d d' : Declared} {declaration : List Char} {between words : List (List Char)}
    (hd : ∀ name ∈ d.names.toList, OptionName name) (hu : ∀ word ∈ words, '=' ∉ word)
    (h : Declared.addAll config declaration d between words = .ok d') :
    ∀ name ∈ d'.names.toList, OptionName name := by
  induction words generalizing d between with
  | nil => exact names_addWords h ▸ hd
  | cons word words ih =>
    obtain ⟨hword, hu⟩ := List.forall_mem_cons.mp hu
    unfold Declared.addAll at h
    split at h
    next hw =>
      obtain ⟨e, he, h⟩ := Except.bind_eq_ok.mp h
      exact ih (optionName_addName (names_addWords he ▸ hd) hw hword) hu h
    next => exact ih hd hu h

theorem branched_addName {d : Declared} {standard : Bool} {word : List Char}
    (hd : ∀ v ∈ d.values, v.Branched) : ∀ v ∈ (d.addName standard word).values, v.Branched := by
  unfold Declared.addName
  refine List.forall_mem_append.mpr ⟨hd, ?_⟩
  split
  · exact List.forall_mem_nil _
  · exact List.forall_mem_singleton.mpr (.group (List.forall_mem_singleton.mpr .argument))

theorem branched_addWords {d d' : Declared} {declaration : List Char} {words : List (List Char)}
    (hd : ∀ v ∈ d.values, v.Branched) (h : d.addWords config declaration words = .ok d') :
    ∀ v ∈ d'.values, v.Branched := by
  unfold Declared.addWords at h
  split at h
  · obtain rfl := Except.ok.inj h
    exact hd
  · split at h
    · obtain rfl := Except.ok.inj h
      exact hd
    · cases h
  · obtain ⟨elements, -, h⟩ := Except.bind_eq_ok.mp h
    obtain rfl := Except.ok.inj h
    refine List.forall_mem_append.mpr ⟨hd, fun v hv => ?_⟩
    exact Pattern.branched_simplifyWith (Option.mem_toList.mp hv)

theorem branched_addAll {d d' : Declared} {declaration : List Char} {between words : List (List Char)}
    (hd : ∀ v ∈ d.values, v.Branched)
    (h : Declared.addAll config declaration d between words = .ok d') :
    ∀ v ∈ d'.values, v.Branched := by
  induction words generalizing d between with
  | nil => exact branched_addWords hd h
  | cons word words ih =>
    unfold Declared.addAll at h
    split at h
    · obtain ⟨e, he, h⟩ := Except.bind_eq_ok.mp h
      exact ih (branched_addName (branched_addWords hd he)) h
    · exact ih hd h

theorem mem_values_of_value? {d : Declared} {v : Pattern} (h : d.value? = .ok (some v)) :
    v ∈ d.values := by
  unfold Declared.value? at h
  split at h
  · cases h
  next hvalues =>
    split at h
    · cases h
    · obtain rfl := Option.some.inj (Except.ok.inj h)
      exact hvalues ▸ List.mem_cons_self

theorem mem_of_mem_inkPieces {size : List Char → Nat} {cs word : List Char} {c : Char}
    (hword : word ∈ inkPieces size cs) (hc : c ∈ word) : c ∈ cs := by
  rw [← Text.flatten_pieces size cs]
  exact List.mem_flatten.mpr ⟨word, List.mem_of_mem_filter hword, hc⟩

theorem mem_of_mem_setApart {size : List Char → Nat} {cs : List Char} {c : Char}
    (h : c ∈ setApart size cs) : c ∈ cs ∨ c = ' ' := by
  obtain ⟨piece, hpiece, hc⟩ := List.mem_flatMap.mp h
  rw [← Text.flatten_pieces size cs]
  have hmem (hc : c ∈ piece) : c ∈ (Text.pieces size cs).flatten :=
    List.mem_flatten.mpr ⟨piece, hpiece, hc⟩
  split at hc
  · exact .inl (hmem hc)
  · simp only [List.cons_append, List.mem_cons, List.mem_append] at hc
    rcases hc with hc | hc | hc
    · exact .inr hc
    · exact .inl (hmem hc)
    · exact hc.elim .inr nofun

/-- In a declaration, a `=` stands for a blank. -/
theorem notMem_of_declarationWords {declaration word : List Char}
    (h : word ∈ declarationWords declaration) : '=' ∉ word := by
  intro hmem
  rcases mem_of_mem_setApart (mem_of_mem_inkPieces h hmem) with hspaced | hblank
  · obtain ⟨c, -, hc⟩ := List.mem_map.mp hspaced
    split at hc
    next => cases hc
    next hne => simp [hc] at hne
  · cases hblank

theorem proper_parseDeclaration {declaration : List Char} {o : OptionAtom} {repeats : Bool}
    (h : parseDeclaration config declaration = .ok (o, repeats)) :
    (∀ name ∈ o.names.toList, OptionName name) ∧ o.ValueBranched := by
  unfold parseDeclaration at h
  dsimp only at h
  split at h
  · cases h
  · obtain ⟨d, hd, h⟩ := Except.bind_eq_ok.mp h
    obtain ⟨value, hvalue, h⟩ := Except.bind_eq_ok.mp h
    obtain ⟨rfl, -⟩ := Prod.mk.inj (Except.ok.inj h)
    refine ⟨optionName_addAll (List.forall_mem_nil _) (fun _ => notMem_of_declarationWords) hd, ?_⟩
    rintro v rfl
    exact branched_addAll (List.forall_mem_nil _) hd v (mem_values_of_value? hvalue)

theorem proper_parseOptions {title : String} {body : List Char} {g : OptionGroup}
    (h : parseOptions config title body = .ok g) :
    (∀ e ∈ g.entries, e.IsEntry) ∧ (∀ name ∈ g.names, OptionName name) ∧
      ∀ x ∈ g.options, x.1.ValueBranched := by
  refine Except.foldlM_keeps (P := fun g => (∀ e ∈ g.entries, e.IsEntry) ∧
    (∀ name ∈ g.names, OptionName name) ∧ ∀ x ∈ g.options, x.1.ValueBranched) ?_ h
    ⟨nofun, nofun, nofun⟩
  intro entry _ g g' ⟨hentry, hnames, hvalues⟩ h
  obtain ⟨⟨o, repeats⟩, ho, h⟩ := Except.bind_eq_ok.mp h
  obtain rfl := Except.ok.inj h
  obtain ⟨hname, hvalue⟩ := proper_parseDeclaration ho
  have hoptions (g : OptionGroup) (o : OptionAtom) (repeats : Bool) :
      (g.push o repeats).options = g.options ++ [(o, repeats)] := by
    simp [OptionGroup.options, OptionGroup.push, Pattern.entryOption?]
  refine ⟨List.forall_mem_append.mpr ⟨hentry, List.forall_mem_singleton.mpr ⟨_, _, rfl⟩⟩, ?_, ?_⟩
  · rw [OptionGroup.names, hoptions, List.flatMap_append, List.flatMap_singleton]
    exact List.forall_mem_append.mpr ⟨hnames, hname⟩
  · rw [hoptions]
    exact List.forall_mem_append.mpr ⟨hvalues, List.forall_mem_singleton.mpr hvalue⟩

theorem proper_parseSections {sections : List Section} {registry : Registry}
    {texts : List SectionText} (h : parseSections config sections = .ok (registry, texts)) :
    registry.Proper := by
  refine Except.foldlM_keeps (P := fun state : Registry × List SectionText => state.1.Proper) ?_ h
    ⟨nofun, .nil, nofun, nofun⟩
  intro s _ ⟨r, texts⟩ ⟨r', texts'⟩ hr h
  obtain ⟨group, hgroup, h⟩ := Except.bind_eq_ok.mp h
  obtain ⟨next, hnext, h⟩ := Except.bind_eq_ok.mp h
  obtain ⟨rfl, -⟩ := Prod.mk.inj (Except.ok.inj h)
  obtain ⟨hentry, hnames, hvalues⟩ := proper_parseOptions hgroup
  exact hr.pushGroup hentry hnames hvalues hnext

end Help

end Synopsis
