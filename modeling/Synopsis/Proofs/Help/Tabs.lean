import Mathlib.Data.List.TakeWhile
import Synopsis.Proofs.Help.Declarations
import Synopsis.Proofs.Help.Gaps
import Synopsis.Proofs.Outcomes

/-! # Tabs in an options section

Tabs and the spaces that stand for them announce the same options, as long as lines are
divided into entries alike. That depends on how far the lines are indented, which is
counted in columns where an entry begins and in spaces where it goes on.
-/

namespace Synopsis.Help

variable {cs ds line : List Char} {c : Char}

/-! ## Defaults -/

/-- A marker stands at the front, of which the space may be a tab. -/
def Marked (cs : List Char) : Prop :=
  (cs.take defaultMarker.length).map (fun c => Text.fold (if c = '\t' then ' ' else c))
    = defaultMarker

/-- A tab stands in the default at the end of a line, or behind it. -/
def TabInDefault (line : List Char) : Prop :=
  ∃ before marked blanks, line = before ++ marked ++ ']' :: blanks ∧ Marked marked ∧
    (∀ c ∈ blanks, c = ' ' ∨ c = '\t') ∧ '\t' ∈ marked ++ blanks

theorem exists_cons_of_respaced (h : Text.Respaced cs (c :: ds)) :
    ∃ d rest, cs = d :: rest ∧ (d = c ∨ d = '\t') := by
  generalize hds : c :: ds = es at h
  cases h with
  | nil => cases hds
  | tab n h => exact ⟨_, _, rfl, .inr rfl⟩
  | cons d h => exact ⟨_, _, rfl, .inl (List.cons.inj hds).1.symm⟩

theorem TabInDefault.mem (h : TabInDefault line) : '\t' ∈ line ∧ ']' ∈ line := by
  obtain ⟨before, marked, blanks, rfl, -, -, htab⟩ := h
  refine ⟨?_, by simp⟩
  rcases List.mem_append.mp htab with htab | htab <;> simp [htab]

/-- What is a marker when tabs are spaces has been one before, but for its space. -/
theorem marked_of_respaced (h : Text.Respaced cs ds)
    (hmarker : (ds.take defaultMarker.length).map Text.fold = defaultMarker) : Marked cs := by
  obtain ⟨ink, last, htake, hink, hlast⟩ :=
    List.map_eq_append_iff.mp (hmarker.trans (show _ = "[default:".toList ++ [' '] from rfl))
  obtain ⟨c, rfl, hc⟩ := List.map_eq_singleton_iff.mp hlast
  have hnot {d : Char} (hd : Text.fold d ∉ "[default:".toList) : d ∉ ink :=
    fun hmem => hd (hink ▸ List.mem_map_of_mem hmem)
  have hds := List.take_append_drop defaultMarker.length ds
  rw [htake, List.append_assoc] at hds
  obtain ⟨rest, rfl, hrest⟩ := (hds ▸ h).to_append (hnot (by decide))
  obtain ⟨d, rest, rfl, hd⟩ := exists_cons_of_respaced hrest
  have hlength : ink.length + 1 = defaultMarker.length := by
    rw [← List.length_map (f := Text.fold), hink]
    rfl
  have hspace : Text.fold (if d = '\t' then ' ' else d) = ' ' := by
    rcases hd with rfl | rfl
    · split
      · rfl
      · exact hc
    · rfl
  have hmap : ink.map (fun c => Text.fold (if c = '\t' then ' ' else c)) = ink.map Text.fold :=
    List.map_congr_left fun c hmem => by
      rw [if_neg]
      rintro rfl
      exact hnot (by decide) hmem
  rw [Marked, ← hlength, List.take_length_add_append, List.map_append, hmap, hink]
  simp only [List.take_succ_cons, List.take_zero, List.map_cons, List.map_nil, hspace]
  rfl

theorem behindMarker?_cons
    (h : ((c :: cs).take defaultMarker.length).map Text.fold ≠ defaultMarker) :
    behindMarker? (c :: cs) = behindMarker? cs := by
  rw [behindMarker?, if_neg h]

theorem behindMarker?_replicate (n : Nat) (cs : List Char) :
    behindMarker? (List.replicate n ' ' ++ cs) = behindMarker? cs := by
  induction n with
  | zero => rfl
  | succ n ih =>
    rw [List.replicate_succ, List.cons_append, behindMarker?_cons, ih]
    intro h
    have hhead := congrArg List.head? h
    cases hhead

theorem exists_marked (h : behindMarker? cs = some ds) : ∃ rest, rest <:+ cs ∧ Marked rest := by
  induction cs with
  | nil => cases h
  | cons c cs ih =>
    rw [behindMarker?] at h
    split at h
    next hmarker => exact ⟨c :: cs, List.suffix_refl _, marked_of_respaced (.refl _) hmarker⟩
    next =>
      obtain ⟨rest, hs, hrest⟩ := ih h
      exact ⟨rest, hs.trans (List.suffix_cons c cs), hrest⟩

/-- Behind a marker no tab is expanded. -/
theorem behindMarker?_expandTabs (column : Nat)
    (h : ∀ rest, rest <:+ cs → Marked rest → '\t' ∉ rest) :
    behindMarker? (Text.expandTabs column cs) = behindMarker? cs := by
  induction cs generalizing column with
  | nil => rfl
  | cons c cs ih =>
    have htail column := ih column fun rest hs => h rest (hs.trans (List.suffix_cons c cs))
    by_cases hmarker : Marked (c :: cs)
    · rw [Text.expandTabs_eq_self column (h _ (List.suffix_refl _) hmarker)]
    have hcons : behindMarker? (c :: cs) = behindMarker? cs :=
      behindMarker?_cons fun hm => hmarker (marked_of_respaced (.refl _) hm)
    by_cases hc : c = '\t'
    · subst hc
      rw [hcons, Text.expandTabs_tab, behindMarker?_replicate, htail]
    · have hexpanded := Text.expandTabs_cons column hc cs
      rw [hcons, hexpanded, behindMarker?_cons, htail]
      intro hm
      rw [← hexpanded] at hm
      exact hmarker (marked_of_respaced (Text.respaced_expandTabs column _) hm)

theorem default?_append {blanks : List Char} (hblanks : ∀ d ∈ blanks, d = ' ') (hc : c ≠ ' ')
    (front : List Char) : default? (front ++ c :: blanks) =
      if c = ']' then (behindMarker? front).map String.ofList else none := by
  have hreverse : (front ++ c :: blanks).reverse = blanks.reverse ++ c :: front.reverse := by simp
  rw [default?, hreverse, List.dropWhile_append_of_pos (by simpa using hblanks),
    List.dropWhile_cons_of_neg (by simpa using hc)]
  split
  next before heq =>
    obtain ⟨rfl, rfl⟩ := List.cons.inj heq
    rw [if_pos rfl, List.reverse_reverse]
  next hne =>
    rw [if_neg]
    rintro rfl
    exact hne _ rfl

/-- The text up to the last character that is not in a class. -/
theorem exists_last (p : Char → Prop) [DecidablePred p] (cs : List Char) : (∀ c ∈ cs, p c) ∨
    ∃ front c rest, cs = front ++ c :: rest ∧ ¬ p c ∧ ∀ c ∈ rest, p c := by
  induction cs with
  | nil => exact .inl nofun
  | cons c cs ih =>
    rcases ih with hall | ⟨front, d, rest, rfl, hd, hrest⟩
    · by_cases hc : p c
      · exact .inl (List.forall_mem_cons.mpr ⟨hc, hall⟩)
      · exact .inr ⟨[], c, cs, rfl, hc, hall⟩
    · exact .inr ⟨c :: front, d, rest, rfl, hd, hrest⟩

theorem default?_of_spaces (h : ∀ c ∈ line, c = ' ') : default? line = none := by
  have hdrop : line.reverse.dropWhile (· = ' ') = [] :=
    List.dropWhile_eq_nil_iff.mpr (by simpa using h)
  rw [default?, hdrop]

theorem default?_of_tab {blanks : List Char} (hblanks : ∀ c ∈ blanks, c = ' ' ∨ c = '\t')
    (htab : '\t' ∈ blanks) (front : List Char) : default? (front ++ blanks) = none := by
  rcases exists_last (· = ' ') blanks with hall | ⟨inner, c, rest, rfl, hc, hrest⟩
  · exact absurd (hall _ htab) (by decide)
  · obtain rfl : c = '\t' := (hblanks c (by simp)).resolve_left hc
    rw [← List.append_assoc, default?_append hrest hc]
    rfl

theorem eq_space_of_mem_expandTabs {column : Nat} (h : ∀ c ∈ cs, c = ' ' ∨ c = '\t') :
    ∀ c ∈ Text.expandTabs column cs, c = ' ' := by
  induction cs generalizing column with
  | nil => exact nofun
  | cons c cs ih =>
    obtain ⟨hc, hcs⟩ := List.forall_mem_cons.mp h
    rcases hc with rfl | rfl
    · rw [Text.expandTabs_cons _ (by decide)]
      exact List.forall_mem_cons.mpr ⟨rfl, ih hcs⟩
    · rw [Text.expandTabs_tab]
      intro c hmem
      exact (List.mem_append.mp hmem).elim List.eq_of_mem_replicate (ih hcs c)

theorem behindMarker?_front {front blanks : List Char}
    (hblanks : ∀ c ∈ blanks, c = ' ' ∨ c = '\t') (h : ¬ TabInDefault (front ++ ']' :: blanks)) :
    behindMarker? (Text.expandTabs 0 front) = behindMarker? front ∧
      ('\t' ∈ blanks → behindMarker? front = none) := by
  have hmarked {rest : List Char} (hs : rest <:+ front) (hrest : Marked rest) :
      '\t' ∉ rest ++ blanks := by
    obtain ⟨before, rfl⟩ := hs
    exact fun htab => h ⟨before, rest, blanks, rfl, hrest, hblanks, htab⟩
  constructor
  · exact behindMarker?_expandTabs 0 fun rest hs hrest htab =>
      hmarked hs hrest (List.mem_append_left _ htab)
  · intro htab
    cases hvalue : behindMarker? front with
    | none => rfl
    | some value =>
      obtain ⟨rest, hs, hrest⟩ := exists_marked hvalue
      exact absurd (List.mem_append_right rest htab) (hmarked hs hrest)

/-- A line announces the same default with its tabs expanded. -/
theorem default?_expandTabs (h : ¬ TabInDefault line) :
    default? (Text.expandTabs 0 line) = default? line := by
  have hspaces {blanks : List Char} (hblanks : ∀ c ∈ blanks, c = ' ' ∨ c = '\t')
      (htab : '\t' ∉ blanks) : ∀ c ∈ blanks, c = ' ' :=
    fun c hc => (hblanks c hc).resolve_right fun heq => htab (heq ▸ hc)
  rcases exists_last (fun c => c = ' ' ∨ c = '\t') line with
    hblank | ⟨front, c, blanks, rfl, hc, hblanks⟩
  · rw [default?_of_spaces (eq_space_of_mem_expandTabs hblank)]
    by_cases htab : '\t' ∈ line
    · exact (default?_of_tab hblank htab []).symm
    · exact (default?_of_spaces (hspaces hblank htab)).symm
  rw [not_or] at hc
  rw [Text.expandTabs_append, Text.expandTabs_cons _ hc.2,
    default?_append (eq_space_of_mem_expandTabs hblanks) hc.1]
  -- a tab behind the last character hides the default, which is then not there at all
  by_cases htab : '\t' ∈ blanks
  · rw [List.append_cons, default?_of_tab hblanks htab]
    split
    next hclose =>
      obtain ⟨hfront, hnone⟩ := behindMarker?_front hblanks (hclose ▸ h)
      rw [hfront, hnone htab, Option.map_none]
    next => rfl
  · rw [default?_append (hspaces hblanks htab) hc.1]
    split
    next hclose => rw [(behindMarker?_front hblanks (hclose ▸ h)).1]
    next => rfl

/-! ## Lines that begin an entry -/

/-- What is asked of the tabs up to the description. Those behind it are free. -/
structure TabsApart (line : List Char) : Prop where
  indented : ¬ [' ', '\t'] <+: line
  placeholders : ¬ TabInPlaceholder (cutDeclaration line).1
  separated : ¬ CutByColumn 0 (cutDeclaration line)

theorem declaration_ofLine (line : List Char) :
    (Entry.ofLine line).declaration = Text.trim (cutDeclaration line).1 := rfl

theorem declarationWords_ofLine (h : TabsApart line) :
    declarationWords (Entry.ofLine (Text.expandTabs 0 line)).declaration
      = declarationWords (Entry.ofLine line).declaration := by
  obtain ⟨space, hspace, hbefore, -, -⟩ := cutDeclaration_expandTabs h.indented h.separated
  have htrim : Text.trim (cutDeclaration (Text.expandTabs 0 line)).1
      = Text.trim (Text.expandTabs 0 (cutDeclaration line).1) := by
    rw [← hbefore]
    rcases hspace with rfl | rfl
    · rw [List.append_nil]
    · rw [Text.trim_append_space]
  rw [declaration_ofLine, declaration_ofLine, htrim]
  exact declarationWords_respaced (Text.respaced_expandTabs 0 _).trim fun hplaceholder =>
    h.placeholders (hplaceholder.of_infix (Text.trim_infix _))

/-! ## Entries -/

/-- A line continues the entry that another line begins. -/
def Continues (first line : List Char) : Prop :=
  (Entry.ofLine first).indent ≤ Text.leadingSpaces line

instance (first line : List Char) : Decidable (Continues first line) :=
  inferInstanceAs (Decidable (_ ≤ _))

/-- The lines behind the first line of an entry, if there is one, continue it or begin
another one alike with their tabs and with spaces in place of them. -/
inductive ReadAlike : Option (List Char) → List (List Char) → Prop
  | nil {first? : Option (List Char)} : ReadAlike first? []
  | continues {first line : List Char} {lines : List (List Char)} (h : Continues first line)
    (h' : Continues (Text.expandTabs 0 first) (Text.expandTabs 0 line))
    (rest : ReadAlike (some first) lines) : ReadAlike (some first) (line :: lines)
  | begins {first? : Option (List Char)} {line : List Char} {lines : List (List Char)}
    (h : ∀ first ∈ first?, ¬ Continues first line)
    (h' : ∀ first ∈ first?, ¬ Continues (Text.expandTabs 0 first) (Text.expandTabs 0 line))
    (hline : TabsApart line) (rest : ReadAlike (some line) lines) :
    ReadAlike first? (line :: lines)

/-- Two entries announce the same option. -/
structure SameEntry (e e' : Entry) : Prop where
  words : declarationWords e'.declaration = declarationWords e.declaration
  lastLine : e'.lastLine = Text.expandTabs 0 e.lastLine

/-- What two runs over the lines have read when a line has begun the last entry. -/
inductive ReadSoFar : Option (List Char) → List Entry → List Entry → Prop
  | nothing : ReadSoFar none [] []
  | entry {first : List Char} {e e' : Entry} {es es' : List Entry} (he : SameEntry e e')
    (hindent : e.indent = (Entry.ofLine first).indent)
    (hindent' : e'.indent = (Entry.ofLine (Text.expandTabs 0 first)).indent)
    (rest : List.Forall₂ SameEntry es es') : ReadSoFar (some first) (e :: es) (e' :: es')

variable {first? : Option (List Char)} {es es' : List Entry}

theorem ReadSoFar.same (h : ReadSoFar first? es es') : List.Forall₂ SameEntry es es' := by
  cases h with
  | nothing => exact .nil
  | entry he _ _ rest => exact .cons he rest

theorem addEntryLine_of_le {e : Entry} (h : e.indent ≤ Text.leadingSpaces line) :
    addEntryLine (e :: es) line = { e with lastLine := line } :: es := if_pos h

theorem addEntryLine_of_not_le {e : Entry} (h : ¬ e.indent ≤ Text.leadingSpaces line) :
    addEntryLine (e :: es) line = .ofLine line :: e :: es := if_neg h

theorem ReadSoFar.continues {first : List Char} (hes : ReadSoFar (some first) es es')
    (h : Continues first line)
    (h' : Continues (Text.expandTabs 0 first) (Text.expandTabs 0 line)) :
    ReadSoFar (some first) (addEntryLine es line)
      (addEntryLine es' (Text.expandTabs 0 line)) := by
  cases hes with
  | entry he hindent hindent' rest =>
    rw [addEntryLine_of_le (hindent ▸ h), addEntryLine_of_le (hindent' ▸ h')]
    exact .entry ⟨he.words, rfl⟩ hindent hindent' rest

theorem ReadSoFar.begins (hes : ReadSoFar first? es es') (hline : TabsApart line)
    (h : ∀ first ∈ first?, ¬ Continues first line)
    (h' : ∀ first ∈ first?, ¬ Continues (Text.expandTabs 0 first) (Text.expandTabs 0 line)) :
    ReadSoFar (some line) (addEntryLine es line) (addEntryLine es' (Text.expandTabs 0 line)) := by
  have hsame : SameEntry (.ofLine line) (.ofLine (Text.expandTabs 0 line)) :=
    ⟨declarationWords_ofLine hline, rfl⟩
  cases hes with
  | nothing => exact .entry hsame rfl rfl .nil
  | entry he hindent hindent' rest =>
    rw [addEntryLine_of_not_le (hindent ▸ h _ rfl), addEntryLine_of_not_le (hindent' ▸ h' _ rfl)]
    exact .entry hsame rfl rfl (.cons he rest)

theorem ReadAlike.foldl {lines : List (List Char)} (h : ReadAlike first? lines)
    (hes : ReadSoFar first? es es') : List.Forall₂ SameEntry (lines.foldl addEntryLine es)
      ((lines.map (Text.expandTabs 0)).foldl addEntryLine es') := by
  induction h generalizing es es' with
  | nil => exact hes.same
  | continues h h' _ ih => exact ih (hes.continues h h')
  | begins h h' hline _ ih => exact ih (hes.begins hline h h')

/-- The lines of a body that are not blank. -/
def inkLines (body : List Char) : List (List Char) :=
  (Text.lines body).filter (!Text.isAllBlank ·)

theorem inkLines_expandTabs (body : List Char) :
    inkLines (Text.expandTabs 0 body) = (inkLines body).map (Text.expandTabs 0) := by
  have hblank (line : List Char) :
      (!Text.isAllBlank (Text.expandTabs 0 line)) = !Text.isAllBlank line :=
    congrArg Bool.not (Text.respaced_expandTabs 0 line).isAllBlank_eq
  rw [inkLines, Text.lines_expandTabs, List.filter_map]
  exact congrArg (List.map (Text.expandTabs 0)) (List.filter_congr fun line _ => hblank line)

theorem entries_expandTabs {body : List Char} (h : ReadAlike none (inkLines body)) :
    List.Forall₂ SameEntry (entries body) (entries (Text.expandTabs 0 body)) := by
  have hfold := h.foldl .nothing
  rw [← inkLines_expandTabs] at hfold
  exact List.rel_reverse hfold

/-! ## Lines that are measured alike -/

/-- Spaces indent the line, and its gap is as wide as at the start of a line. -/
structure Measured (line : List Char) : Prop where
  ink : ¬ Text.isAllBlank line
  apart : TabsApart line
  spaces : Text.indentation line = Text.leadingSpaces line
  gap : (Text.expandTabs (Text.columnBehind 0 (cutDeclaration line).1)
    (cutDeclaration line).2.1).length = Text.width (cutDeclaration line).2.1

theorem indent_ofLine (line : List Char) : (Entry.ofLine line).indent =
    if Text.isAllBlank (cutDeclaration line).2.2 then 2 + Text.indentation (cutDeclaration line).1
    else Text.width (cutDeclaration line).1 + Text.width (cutDeclaration line).2.1 := rfl

theorem leadingSpaces_append (h : ¬ Text.isAllBlank cs) (ds : List Char) :
    Text.leadingSpaces (cs ++ ds) = Text.leadingSpaces cs := by
  induction cs with
  | nil => exact absurd rfl h
  | cons c cs ih =>
    by_cases hc : c = ' '
    · subst hc
      have hcs : ¬ Text.isAllBlank cs := h
      exact congrArg (· + 1) (ih hcs)
    · simp [Text.leadingSpaces, hc]

theorem isAllBlank_append (cs ds : List Char) :
    Text.isAllBlank (cs ++ ds) = (Text.isAllBlank cs && Text.isAllBlank ds) := List.all_append

namespace CutAlike

variable {cut cut' : List Char × List Char × List Char} {column : Nat}

theorem notMem (h : CutAlike column cut cut') : '\t' ∉ cut'.1 ∧ '\t' ∉ cut'.2.1 := by
  obtain ⟨space, hspace, hbefore, hgap, -⟩ := h
  refine ⟨fun hmem => ?_, ?_⟩
  · exact Text.notMem_expandTabs column cut.1 (hbefore ▸ List.mem_append_left space hmem)
  · rw [hgap, List.mem_append, not_or]
    refine ⟨?_, Text.notMem_expandTabs _ _⟩
    rcases hspace with rfl | rfl <;> decide

/-- What stands before the gap is indented as it was. -/
theorem leadingSpaces_eq (h : CutAlike column cut cut') (hink : ¬ Text.isAllBlank cut.1) :
    Text.leadingSpaces cut'.1 = Text.leadingSpaces (Text.expandTabs column cut.1) := by
  obtain ⟨space, hspace, hbefore, -, -⟩ := h
  rw [← hbefore, leadingSpaces_append]
  intro hblank
  have hspaces : Text.isAllBlank space := by rcases hspace with rfl | rfl <;> rfl
  rw [← (Text.respaced_expandTabs column cut.1).isAllBlank_eq, ← hbefore, isAllBlank_append,
    hblank, hspaces] at hink
  exact hink rfl

/-- The text and the gap end in the same column, where the gap is measured in its place. -/
theorem width_eq (h : CutAlike column cut cut') : Text.width cut'.1 + Text.width cut'.2.1 =
    (Text.expandTabs column cut.1).length +
      (Text.expandTabs (Text.columnBehind column cut.1) cut.2.1).length := by
  obtain ⟨htab, hgaptab⟩ := h.notMem
  obtain ⟨space, -, hbefore, hgap, -⟩ := h
  rw [Text.width, Text.expandTabs_eq_self 0 htab, Text.width, Text.expandTabs_eq_self 0 hgaptab,
    ← hbefore, hgap, List.length_append, List.length_append, Nat.add_assoc]

end CutAlike

theorem ink_of_not_isAllBlank (hink : ¬ Text.isAllBlank line)
    (hblank : Text.isAllBlank (cutDeclaration line).2.2) :
    ¬ Text.isAllBlank (cutDeclaration line).1 := by
  intro hbefore
  rw [← cutDeclaration_append line, isAllBlank_append, isAllBlank_append, hbefore, hblank,
    isAllBlank_gap] at hink
  exact hink rfl

theorem Measured.indent_expandTabs (h : Measured line) :
    (Entry.ofLine (Text.expandTabs 0 line)).indent = (Entry.ofLine line).indent := by
  have halike := cutDeclaration_expandTabs h.apart.indented h.apart.separated
  have hbehind : Text.isAllBlank (cutDeclaration (Text.expandTabs 0 line)).2.2 =
      Text.isAllBlank (cutDeclaration line).2.2 := by
    obtain ⟨-, -, -, -, hbehind⟩ := halike
    exact hbehind
  rw [indent_ofLine, indent_ofLine, hbehind]
  split
  next hblank =>
    rw [Text.indentation, Text.indentation, Text.expandTabs_eq_self 0 halike.notMem.1,
      halike.leadingSpaces_eq (ink_of_not_isAllBlank h.ink hblank)]
  next =>
    rw [halike.width_eq, h.gap]
    rfl

theorem Measured.continues_iff {first : List Char} (hfirst : Measured first)
    (hline : Measured line) :
    Continues (Text.expandTabs 0 first) (Text.expandTabs 0 line) ↔ Continues first line := by
  rw [Continues, Continues, hfirst.indent_expandTabs, ← hline.spaces, Text.indentation]

theorem readAlike_of_measured {lines : List (List Char)} (h : ∀ line ∈ lines, Measured line) :
    ∀ {first? : Option (List Char)}, (∀ first ∈ first?, Measured first) →
      ReadAlike first? lines := by
  induction lines with
  | nil => exact fun _ => .nil
  | cons line lines ih =>
    intro first? hfirst
    obtain ⟨hline, hlines⟩ := List.forall_mem_cons.mp h
    have hrest := @ih hlines (some line) fun first hfirst => Option.some.inj hfirst ▸ hline
    cases first? with
    | none => exact .begins nofun nofun hline.apart hrest
    | some first =>
      have hiff := (hfirst first rfl).continues_iff hline
      by_cases hcontinues : Continues first line
      · exact .continues hcontinues (hiff.mpr hcontinues) (ih hlines hfirst)
      · refine .begins ?_ ?_ hline.apart hrest
        · rintro _ ⟨⟩
          exact hcontinues
        · rintro _ ⟨⟩
          exact fun h' => hcontinues (hiff.mp h')

/-! ## Sections -/

variable (config : Config) (title : String)

theorem parseOptions_of_sameEntries {body : List Char}
    (hdefault : ∀ e ∈ entries body, ¬ TabInDefault e.lastLine)
    (hsame : List.Forall₂ SameEntry (entries body) (entries (Text.expandTabs 0 body))) :
    SameOutcome (parseOptions config title (Text.expandTabs 0 body))
      (parseOptions config title body) := by
  refine .foldlM hsame (fun e he e' hsame g => ?_) _
  rw [hsame.lastLine, default?_expandTabs (hdefault e he)]
  exact (parseDeclaration_sameOutcome config hsame.words).bind fun _ => .refl _

/-- Where every line is measured alike, the tabs of a body are as good as spaces. -/
theorem parseOptions_measured {body : List Char}
    (hdefault : ∀ e ∈ entries body, ¬ TabInDefault e.lastLine)
    (hlines : ∀ line ∈ inkLines body, Measured line) :
    SameOutcome (parseOptions config title (Text.expandTabs 0 body))
      (parseOptions config title body) :=
  parseOptions_of_sameEntries config title hdefault
    (entries_expandTabs (readAlike_of_measured hlines nofun))

/-- Tabs and spaces in place of them announce the same options, or are refused alike. -/
theorem parseOptions_expandTabs {body : List Char}
    (hdefault : ∀ e ∈ entries body, ¬ TabInDefault e.lastLine)
    (hread : ReadAlike none (inkLines body)) :
    SameOutcome (parseOptions config title (Text.expandTabs 0 body))
      (parseOptions config title body) :=
  parseOptions_of_sameEntries config title hdefault (entries_expandTabs hread)

/-- The first tab ends where the default begins on the next line. -/
theorem tab_before_description :
    let body :=
      "  -o, --out=FILE\tWrite\tit.\n                        [default: a]\n\t-v  Loud.".toList
    (∃ g, parseOptions {} "" body = .ok g ∧ g.options.map (·.1.default) = [some "a", none]) ∧
      SameOutcome (parseOptions {} "" (Text.expandTabs 0 body)) (parseOptions {} "" body) := by
  intro body
  have hdefault : ∀ e ∈ entries body, ¬ ('\t' ∈ e.lastLine ∧ ']' ∈ e.lastLine) := by
    decide +kernel
  have hlines : inkLines body = ["  -o, --out=FILE\tWrite\tit.".toList,
      "                        [default: a]".toList, "\t-v  Loud.".toList] := by decide +kernel
  have hread : ReadAlike none (inkLines body) := by
    rw [hlines]
    have hout : TabsApart "  -o, --out=FILE\tWrite\tit.".toList :=
      ⟨by decide, fun h => absurd h.mem (by decide +kernel), by decide +kernel⟩
    have hloud : TabsApart "\t-v  Loud.".toList :=
      ⟨by decide, fun h => absurd h.mem (by decide +kernel), by decide +kernel⟩
    refine .begins nofun nofun hout (.continues (by decide +kernel) (by decide +kernel) ?_)
    exact .begins (by decide +kernel) (by decide +kernel) hloud .nil
  refine ⟨by decide +kernel, ?_⟩
  exact parseOptions_expandTabs {} "" (fun e he h => hdefault e he h.mem) hread

/-- A tab separates where it spans a single column too, and one space does not. -/
theorem narrow_tab_separates : ¬ SameOutcome
    (parseOptions {} "" (Text.expandTabs 0 "  --all\tAll.".toList))
    (parseOptions {} "" "  --all\tAll.".toList) := by
  obtain ⟨g, hg, hvalue⟩ : ∃ g, parseOptions {} "" "  --all\tAll.".toList = .ok g ∧
      g.options.map (·.1.takesValue) = [false] := by decide +kernel
  obtain ⟨g', hg', hvalue'⟩ : ∃ g, parseOptions {} "" (Text.expandTabs 0 "  --all\tAll.".toList)
      = .ok g ∧ g.options.map (·.1.takesValue) = [true] := by decide +kernel
  rw [hg, hg']
  intro h
  obtain rfl := Except.ok.inj h.eq_ok
  rw [hvalue] at hvalue'
  cases hvalue'

end Synopsis.Help
