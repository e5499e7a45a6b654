import Synopsis.Help.Declaration
import Synopsis.Proofs.Text.Tabs

/-! # Where a declaration ends

A line is cut at the first gap behind its indentation that stands outside
brackets. When its tabs are expanded it is cut at the same place, unless a tab
by itself makes the gap and spans a single column only.
-/

namespace Synopsis.Help

variable {cs ds line : List Char} {c : Char} {depth : Int} {column : Nat}

/-! ## Reading character by character -/

/-- The text before the first gap outside brackets, that gap, and the rest. -/
def cutFrom (depth : Int) : List Char → List Char × List Char × List Char
  | [] => ([], [], [])
  | c :: cs =>
    if isGap (c :: cs) ∧ depth = 0 then
      ([], (c :: cs).takeWhile Text.isBlank, (c :: cs).dropWhile Text.isBlank)
    else (cutFrom (depth + bracketBalance [c]) cs).map (c :: ·) id

theorem bracketBalance_cons (c : Char) (cs : List Char) :
    bracketBalance (c :: cs) = bracketBalance [c] + bracketBalance cs := by
  simp only [bracketBalance, List.foldr_cons, List.foldr_nil]
  split_ifs <;> omega

theorem bracketBalance_blank (hc : Text.isBlank c) : bracketBalance [c] = 0 := by
  have hopen : ¬ "([<".toList.contains c := fun h => by
    obtain rfl | rfl | rfl : c = '(' ∨ c = '[' ∨ c = '<' := by simpa using h
    all_goals exact absurd hc (by decide)
  have hclose : ¬ ")]>".toList.contains c := fun h => by
    obtain rfl | rfl | rfl : c = ')' ∨ c = ']' ∨ c = '>' := by simpa using h
    all_goals exact absurd hc (by decide)
  rw [bracketBalance, List.foldr_cons, if_neg hopen, if_neg hclose, List.foldr_nil]

theorem bracketBalance_of_isAllBlank (h : Text.isAllBlank cs) : bracketBalance cs = 0 := by
  induction cs with
  | nil => rfl
  | cons c cs ih =>
    simp only [Text.isAllBlank, List.all_cons, Bool.and_eq_true] at h
    rw [bracketBalance_cons, bracketBalance_blank h.1, ih h.2, Int.add_zero]

theorem isBlank_of_isGap (h : isGap (c :: cs)) : Text.isBlank c := by
  unfold isGap at h
  split at h
  next heq => cases heq; rfl
  next heq => cases heq; rfl
  next => cases h

theorem cutFrom_of_isGap (h : isGap cs) :
    cutFrom 0 cs = ([], cs.takeWhile Text.isBlank, cs.dropWhile Text.isBlank) := by
  cases cs with
  | nil => rfl
  | cons c cs => simp [cutFrom, h]

theorem cutFrom_cons (h : ¬ (isGap (c :: cs) ∧ depth = 0)) : cutFrom depth (c :: cs) =
    (cutFrom (depth + bracketBalance [c]) cs).map ([c] ++ ·) id := by
  rw [cutFrom, if_neg h]
  rfl

/-- Inside brackets blanks make no gap. -/
theorem cutFrom_blanks (hdepth : depth ≠ 0) {blanks : List Char} (h : Text.isAllBlank blanks)
    (cs : List Char) : cutFrom depth (blanks ++ cs) = (cutFrom depth cs).map (blanks ++ ·) id := by
  induction blanks with
  | nil => rfl
  | cons c blanks ih =>
    simp only [Text.isAllBlank, List.all_cons, Bool.and_eq_true] at h
    rw [List.cons_append, cutFrom_cons (fun hgap => hdepth hgap.2), bracketBalance_blank h.1,
      Int.add_zero, ih h.2]
    rfl

theorem cutFrom_text (depth : Int) (cs : List Char) : cutFrom depth cs =
    (cutFrom (depth + bracketBalance (cs.take (sizeUpToGap cs))) (cs.drop (sizeUpToGap cs))).map
      (cs.take (sizeUpToGap cs) ++ ·) id := by
  induction cs generalizing depth with
  | nil => rfl
  | cons c cs ih =>
    rw [sizeUpToGap]
    split
    next => simp [bracketBalance]; rfl
    next h =>
      rw [cutFrom_cons (fun hgap => h hgap.1), ih, List.take_succ_cons, List.drop_succ_cons,
        bracketBalance_cons c (cs.take _), Int.add_assoc]
      rfl

theorem isGap_drop_sizeUpToGap (cs : List Char) :
    isGap (cs.drop (sizeUpToGap cs)) ∨ cs.drop (sizeUpToGap cs) = [] := by
  induction cs with
  | nil => exact .inr rfl
  | cons c cs ih =>
    rw [sizeUpToGap]
    split
    next h => exact .inl h
    next => exact ih

/-! ## Reading piece by piece -/

theorem pieces_of_isGap (h : isGap cs) : Text.pieces gapOrTextSize cs =
    cs.takeWhile Text.isBlank :: Text.pieces gapOrTextSize (cs.dropWhile Text.isBlank) := by
  have happend := List.takeWhile_append_dropWhile (p := Text.isBlank) (l := cs)
  have hne : cs.takeWhile Text.isBlank ≠ [] := by
    cases cs with
    | nil => cases h
    | cons c cs => simp [isBlank_of_isGap h]
  have hpieces := @Text.pieces_append gapOrTextSize _ (cs.dropWhile Text.isBlank) hne
    (by rw [happend]; exact if_pos h)
  rwa [happend] at hpieces

theorem sizeUpToGap_pos (h : ¬ isGap (c :: cs)) : 0 < sizeUpToGap (c :: cs) := by
  rw [sizeUpToGap, if_neg h]
  exact Nat.succ_pos _

theorem sizeUpToGap_le_length (cs : List Char) : sizeUpToGap cs ≤ cs.length := by
  induction cs with
  | nil => exact Nat.le_refl _
  | cons c cs ih =>
    rw [sizeUpToGap]
    split
    next => exact Nat.zero_le _
    next => exact Nat.succ_le_succ ih

theorem pieces_of_not_isGap (h : ¬ isGap (c :: cs)) : Text.pieces gapOrTextSize (c :: cs) =
    (c :: cs).take (sizeUpToGap (c :: cs))
      :: Text.pieces gapOrTextSize ((c :: cs).drop (sizeUpToGap (c :: cs))) := by
  have happend := List.take_append_drop (sizeUpToGap (c :: cs)) (c :: cs)
  have hlength : ((c :: cs).take (sizeUpToGap (c :: cs))).length = sizeUpToGap (c :: cs) :=
    List.length_take_of_le (sizeUpToGap_le_length _)
  have hne : (c :: cs).take (sizeUpToGap (c :: cs)) ≠ [] :=
    List.length_pos_iff.mp (by rw [hlength]; exact sizeUpToGap_pos h)
  have hpieces := @Text.pieces_append gapOrTextSize _ ((c :: cs).drop (sizeUpToGap (c :: cs))) hne
    (by rw [happend, hlength]; exact if_neg h)
  rwa [happend] at hpieces

theorem width_takeWhile_of_isGap (h : isGap cs) : 2 ≤ Text.width (cs.takeWhile Text.isBlank) := by
  unfold isGap at h
  split at h
  next cs =>
    have heq : (' ' :: ' ' :: cs).takeWhile Text.isBlank
        = ' ' :: ' ' :: cs.takeWhile Text.isBlank := rfl
    rw [heq, Text.width, Text.expandTabs_cons _ (by decide), Text.expandTabs_cons _ (by decide)]
    simp
  next cs =>
    have heq : ('\t' :: cs).takeWhile Text.isBlank = '\t' :: cs.takeWhile Text.isBlank := rfl
    rw [heq, Text.width, Text.expandTabs_tab, List.length_append, List.length_replicate]
    exact Nat.le_add_right_of_le (by decide)
  next => cases h

/-- The first piece of a text is a gap or has ink in it. Other blanks in front are taken for
indentation before the pieces are read. -/
def Unindented (cs : List Char) : Prop :=
  isGap cs ∨ cs = [] ∨ ¬ Text.isAllBlank (cs.take (sizeUpToGap cs))

theorem unindented_dropWhile (cs : List Char) : Unindented (cs.dropWhile Text.isBlank) := by
  by_cases hgap : isGap (cs.dropWhile Text.isBlank)
  · exact .inl hgap
  · cases hrest : cs.dropWhile Text.isBlank with
    | nil => exact .inr (.inl rfl)
    | cons c rest =>
      rw [hrest] at hgap
      have hc : Text.isBlank c = false := by
        have := List.head?_dropWhile_not Text.isBlank cs
        rw [hrest] at this
        simpa using this
      refine .inr (.inr ?_)
      rw [sizeUpToGap, if_neg hgap, List.take_succ_cons]
      simp [Text.isAllBlank, hc]

theorem unindented_drop (cs : List Char) : Unindented (cs.drop (sizeUpToGap cs)) :=
  (isGap_drop_sizeUpToGap cs).imp id .inl

/-- Gaps fall at the ends of pieces, so reading piece by piece finds the same one. -/
theorem cutAtGap_pieces (h : Unindented cs) :
    cutAtGap depth (Text.pieces gapOrTextSize cs) = cutFrom depth cs := by
  induction hn : cs.length using Nat.strongRecOn generalizing cs depth with
  | ind n ih =>
  cases cs with
  | nil =>
    rw [Text.pieces_nil]
    rfl
  | cons c cs =>
    by_cases hgap : isGap (c :: cs)
    · have hbalance := bracketBalance_of_isAllBlank (Text.isAllBlank_takeWhile (c :: cs))
      rw [pieces_of_isGap hgap, cutAtGap, hbalance, Int.add_zero]
      dsimp only
      by_cases hdepth : depth = 0
      · subst hdepth
        rw [if_pos (by simp [Text.isAllBlank_takeWhile, width_takeWhile_of_isGap hgap]),
          cutFrom_of_isGap hgap, Text.flatten_pieces]
      · have hlt : ((c :: cs).dropWhile Text.isBlank).length < n := by
          rw [List.dropWhile_cons_of_pos (isBlank_of_isGap hgap), ← hn]
          exact Nat.lt_succ_of_le (List.dropWhile_sublist _).length_le
        rw [if_neg (by simp [hdepth]), ih _ hlt (unindented_dropWhile _) rfl]
        conv_rhs => rw [← List.takeWhile_append_dropWhile (p := Text.isBlank) (l := c :: cs)]
        rw [cutFrom_blanks hdepth (Text.isAllBlank_takeWhile _)]
        rfl
    · have hpos := sizeUpToGap_pos hgap
      have hink : ¬ Text.isAllBlank ((c :: cs).take (sizeUpToGap (c :: cs))) :=
        (h.resolve_left hgap).resolve_left nofun
      have hlt : ((c :: cs).drop (sizeUpToGap (c :: cs))).length < n := by
        rw [← hn, List.length_drop, List.length_cons]
        omega
      rw [pieces_of_not_isGap hgap, cutAtGap]
      dsimp only
      rw [if_neg (by simp [hink]), ih _ hlt (unindented_drop _) rfl, cutFrom_text depth (c :: cs)]
      rfl

theorem cutDeclaration_of_isGap (h : isGap line) : cutDeclaration line =
    (cutFrom 0 (line.dropWhile Text.isBlank)).map (line.takeWhile Text.isBlank ++ ·) id := by
  rw [cutDeclaration, pieces_of_isGap h]
  dsimp only
  rw [if_pos (Text.isAllBlank_takeWhile line), cutAtGap_pieces (unindented_dropWhile line)]
  rfl

theorem cutDeclaration_of_not_isGap (h : ¬ isGap line) : cutDeclaration line = cutFrom 0 line := by
  cases line with
  | nil =>
    rw [cutDeclaration, Text.pieces_nil]
    rfl
  | cons c cs =>
    rw [cutDeclaration, pieces_of_not_isGap h]
    dsimp only
    split
    next hblank =>
      rw [cutAtGap_pieces (unindented_drop _), cutFrom_text 0 (c :: cs),
        bracketBalance_of_isAllBlank hblank]
      rfl
    next hink =>
      rw [← pieces_of_not_isGap h, cutAtGap_pieces (.inr (.inr hink))]

/-! ## What a line is cut into -/

theorem cutFrom_append (depth : Int) (cs : List Char) :
    (cutFrom depth cs).1 ++ ((cutFrom depth cs).2.1 ++ (cutFrom depth cs).2.2) = cs := by
  induction cs generalizing depth with
  | nil => rfl
  | cons c cs ih =>
    rw [cutFrom]
    split
    next => exact List.takeWhile_append_dropWhile
    next => exact congrArg (c :: ·) (ih _)

theorem cutDeclaration_append (line : List Char) : (cutDeclaration line).1 ++
    ((cutDeclaration line).2.1 ++ (cutDeclaration line).2.2) = line := by
  by_cases h : isGap line
  · rw [cutDeclaration_of_isGap h, Prod.map_fst, Prod.map_snd, id, List.append_assoc,
      cutFrom_append, List.takeWhile_append_dropWhile]
  · rw [cutDeclaration_of_not_isGap h, cutFrom_append]

theorem isAllBlank_gap_cutFrom (depth : Int) (cs : List Char) :
    Text.isAllBlank (cutFrom depth cs).2.1 := by
  induction cs generalizing depth with
  | nil => rfl
  | cons c cs ih =>
    rw [cutFrom]
    split
    next => exact Text.isAllBlank_takeWhile _
    next => exact ih _

theorem isAllBlank_gap (line : List Char) : Text.isAllBlank (cutDeclaration line).2.1 := by
  by_cases h : isGap line
  · rw [cutDeclaration_of_isGap h]
    exact isAllBlank_gap_cutFrom _ _
  · rw [cutDeclaration_of_not_isGap h]
    exact isAllBlank_gap_cutFrom _ _

/-! ## Cutting an expanded text -/

variable {cut cut' : List Char × List Char × List Char}

/-- Nothing but a tab stands behind the text before the gap, and it ends in the
next column. -/
def CutByColumn (column : Nat) (cut : List Char × List Char × List Char) : Prop :=
  cut.2.1.head? = some '\t' ∧
    Text.columnBehind column cut.1 % Text.tabWidth + 1 = Text.tabWidth ∧
    cut.1.getLast? ≠ some ' ' ∧ ∀ c ∈ cut.2.1.tail.head?, c ≠ ' ' ∧ c ≠ '\t'

instance : Decidable (CutByColumn column cut) := inferInstanceAs (Decidable (_ ∧ _ ∧ _ ∧ _))

/-- A text and its expansion are cut at the same place. A space before the tab
belongs to the gap when the tab is expanded. -/
def CutAlike (column : Nat) (cut cut' : List Char × List Char × List Char) : Prop :=
  ∃ space, (space = [] ∨ space = [' ']) ∧
    cut'.1 ++ space = Text.expandTabs column cut.1 ∧
    cut'.2.1 = space ++ Text.expandTabs (Text.columnBehind column cut.1) cut.2.1 ∧
    Text.isAllBlank cut'.2.2 = Text.isAllBlank cut.2.2

theorem CutByColumn.append {front : List Char}
    (h : CutByColumn (Text.columnBehind column front) cut)
    (hfront : front.getLast? = some ' ' → cut.1 ≠ []) :
    CutByColumn column (cut.map (front ++ ·) id) := by
  obtain ⟨htab, hcolumn, hlast, hnext⟩ := h
  refine ⟨htab, ?_, ?_, hnext⟩
  · rwa [Text.columnBehind, Prod.map_fst, List.foldl_append]
  · rw [Prod.map_fst, List.getLast?_append]
    cases hbefore : cut.1.getLast? with
    | none => simpa using fun h => hfront h (List.getLast?_eq_none_iff.mp hbefore)
    | some d => simpa [hbefore] using hlast

theorem CutAlike.append {front front' : List Char}
    (hfront : Text.expandTabs column front = front')
    (h : CutAlike (Text.columnBehind column front) cut cut') :
    CutAlike column (cut.map (front ++ ·) id) (cut'.map (front' ++ ·) id) := by
  obtain ⟨space, hspace, hbefore, hgap, hbehind⟩ := h
  refine ⟨space, hspace, ?_, ?_, hbehind⟩
  · rw [Prod.map_fst, Prod.map_fst, Text.expandTabs_append, ← hbefore, hfront, List.append_assoc]
  · rwa [Text.columnBehind, Prod.map_fst, List.foldl_append]

/-- The cut of a text that begins with a gap, and of its expansion. -/
theorem cutAlike_of_isGap (h : isGap cs) (h' : isGap (Text.expandTabs column cs)) :
    CutAlike column (cutFrom 0 cs) (cutFrom 0 (Text.expandTabs column cs)) := by
  rw [cutFrom_of_isGap h, cutFrom_of_isGap h']
  refine ⟨[], .inl rfl, rfl, Text.takeWhile_expandTabs column cs, ?_⟩
  exact (Text.respaced_expandTabs column cs).dropWhile_isBlank.isAllBlank_eq

theorem isGap_space_expandTabs_tab (column : Nat) (cs : List Char) :
    isGap (' ' :: Text.expandTabs column ('\t' :: cs)) := by
  obtain ⟨n, hn⟩ := Text.exists_width_tab column
  rw [Text.expandTabs_tab, hn]
  rfl

theorem isGap_expandTabs (h : isGap cs) (hcut : ¬ CutByColumn column (cutFrom 0 cs)) :
    isGap (Text.expandTabs column cs) := by
  rw [cutFrom_of_isGap h] at hcut
  unfold isGap at h
  split at h
  next => rfl
  next cs =>
    obtain ⟨n, hn⟩ := Text.exists_width_tab column
    rw [Text.expandTabs_tab, hn]
    cases n with
    | succ n => rfl
    | zero =>
      have hcolumn : column % Text.tabWidth + 1 = Text.tabWidth := by omega
      obtain ⟨c, hc, hblank⟩ : ∃ c ∈ (cs.takeWhile Text.isBlank).head?, c = ' ' ∨ c = '\t' := by
        by_contra hnext
        refine hcut ⟨rfl, hcolumn, nofun, fun c hc => ?_⟩
        exact not_or.mp fun hblank => hnext ⟨c, hc, hblank⟩
      cases cs with
      | nil => cases hc
      | cons d rest =>
        rw [List.head?_takeWhile] at hc
        obtain rfl : d = c := Option.some.inj (Option.eq_some_of_filter_eq_some hc)
        rcases hblank with rfl | rfl
        · rw [Text.expandTabs_cons _ (by decide)]
          rfl
        · exact isGap_space_expandTabs_tab _ rest
  next => cases h

/-- A gap that only the expansion has begins at a space before a tab. -/
theorem eq_tab_of_isGap (h : ¬ isGap (c :: cs)) (hc : c ≠ '\t')
    (h' : isGap (c :: Text.expandTabs column cs)) : c = ' ' ∧ ∃ rest, cs = '\t' :: rest := by
  cases cs with
  | nil => exact absurd h' h
  | cons d rest =>
    by_cases hd : d = '\t'
    · subst hd
      unfold isGap at h'
      split at h'
      next heq => exact ⟨(List.cons.inj heq).1, rest, rfl⟩
      next heq => exact absurd (List.cons.inj heq).1 hc
      next => cases h'
    · rw [Text.expandTabs_cons _ hd] at h'
      refine absurd ?_ h
      unfold isGap at h' ⊢
      split at h'
      next heq =>
        simp only [List.cons.injEq] at heq
        obtain ⟨rfl, rfl, -⟩ := heq
        rfl
      next heq => exact absurd (List.cons.inj heq).1 hc
      next => cases h'

theorem eq_tab_of_cutFrom (h : (cutFrom depth cs).1 = [])
    (htab : (cutFrom depth cs).2.1.head? = some '\t') : depth = 0 ∧ ∃ rest, cs = '\t' :: rest := by
  cases cs with
  | nil => cases htab
  | cons c cs =>
    rw [cutFrom] at h htab
    split at htab
    next hcut =>
      rw [List.takeWhile_cons_of_pos (isBlank_of_isGap hcut.1)] at htab
      obtain rfl : c = '\t' := Option.some.inj htab
      exact ⟨hcut.2, cs, rfl⟩
    next hcut =>
      rw [if_neg hcut] at h
      cases h

/-- The induction is on the text; what has been read stays in front of both cuts. -/
theorem cutFrom_expandTabs (h : ¬ CutByColumn column (cutFrom depth cs)) :
    CutAlike column (cutFrom depth cs) (cutFrom depth (Text.expandTabs column cs)) := by
  induction cs generalizing depth column with
  | nil => exact ⟨[], .inl rfl, rfl, rfl, rfl⟩
  | cons c cs ih =>
    by_cases hgap : isGap (c :: cs) ∧ depth = 0
    · obtain ⟨hgap, rfl⟩ := hgap
      exact cutAlike_of_isGap hgap (isGap_expandTabs hgap h)
    rw [cutFrom_cons hgap] at h ⊢
    by_cases htab : c = '\t'
    · subst htab
      have hdepth : depth ≠ 0 := fun hdepth => hgap ⟨rfl, hdepth⟩
      rw [bracketBalance_blank rfl, Int.add_zero] at h ⊢
      rw [Text.expandTabs_tab, cutFrom_blanks hdepth (Text.isAllBlank_replicate _)]
      exact .append (List.append_nil _) (ih fun hcut => h (hcut.append nofun))
    rw [Text.expandTabs_cons _ htab]
    by_cases hspace : isGap (c :: Text.expandTabs (Text.nextColumn column c) cs) ∧ depth = 0
    · -- the space before the tab that makes the gap
      obtain ⟨hgap', rfl⟩ := hspace
      obtain ⟨rfl, rest, rfl⟩ := eq_tab_of_isGap (fun h => hgap ⟨h, rfl⟩) htab hgap'
      rw [bracketBalance_blank rfl, Int.add_zero, cutFrom_of_isGap rfl, cutFrom_of_isGap hgap']
      refine ⟨[' '], .inr rfl, rfl, ?_, ?_⟩
      · rw [List.takeWhile_cons_of_pos rfl, Text.takeWhile_expandTabs]
        rfl
      · dsimp only [Prod.map, id]
        rw [List.dropWhile_cons_of_pos rfl]
        exact (Text.respaced_expandTabs _ _).dropWhile_isBlank.isAllBlank_eq
    · rw [cutFrom_cons hspace]
      refine .append (Text.expandTabs_cons column htab []) (ih fun hcut => h (hcut.append ?_))
      intro hlast hnil
      obtain rfl : c = ' ' := Option.some.inj hlast
      obtain ⟨hdepth, rest, rfl⟩ := eq_tab_of_cutFrom hnil hcut.1
      rw [bracketBalance_blank rfl, Int.add_zero] at hdepth
      exact hspace ⟨isGap_space_expandTabs_tab _ _, hdepth⟩

theorem isGap_expandTabs_zero (h : isGap line) : isGap (Text.expandTabs 0 line) := by
  unfold isGap at h
  split at h
  next => rfl
  next => rfl
  next => cases h

/-- A line is cut as its expansion is, unless one space and a tab indent it, or a
tab that spans a single column separates the description. -/
theorem cutDeclaration_expandTabs (hindent : ¬ [' ', '\t'] <+: line)
    (h : ¬ CutByColumn 0 (cutDeclaration line)) :
    CutAlike 0 (cutDeclaration line) (cutDeclaration (Text.expandTabs 0 line)) := by
  by_cases hgap : isGap line
  · rw [cutDeclaration_of_isGap hgap] at h ⊢
    rw [cutDeclaration_of_isGap (isGap_expandTabs_zero hgap), Text.takeWhile_expandTabs,
      Text.dropWhile_expandTabs]
    refine .append rfl (cutFrom_expandTabs fun hcut => h (hcut.append fun _ hnil => ?_))
    obtain ⟨-, rest, hrest⟩ := eq_tab_of_cutFrom hnil hcut.1
    have hink := List.head?_dropWhile_not Text.isBlank line
    rw [hrest] at hink
    cases hink
  · rw [cutDeclaration_of_not_isGap hgap] at h ⊢
    rw [cutDeclaration_of_not_isGap]
    · exact cutFrom_expandTabs h
    · intro hexpanded
      cases line with
      | nil => cases hexpanded
      | cons c cs =>
        have htab : c ≠ '\t' := fun htab => hgap (htab ▸ rfl)
        rw [Text.expandTabs_cons _ htab] at hexpanded
        obtain ⟨rfl, rest, rfl⟩ := eq_tab_of_isGap hgap htab hexpanded
        exact hindent ⟨rest, rfl⟩

end Synopsis.Help
