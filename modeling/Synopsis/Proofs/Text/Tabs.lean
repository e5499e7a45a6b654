import Mathlib.Data.List.Basic
import Synopsis.Text.Blank
import Synopsis.Text.Columns

/-! # Expanding tabs

A text with its tabs expanded has the same lines, and each of them the same ink.
Only the number of blanks differs where a tab has been.
-/

namespace Synopsis.Text

/-- The column behind a character. -/
def nextColumn (column : Nat) (c : Char) : Nat :=
  if c = '\t' then column + (tabWidth - column % tabWidth)
  else if c = '\n' ∨ c = '\r' then 0
  else column + 1

/-- The column behind text that begins at a column. -/
def columnBehind (column : Nat) (cs : List Char) : Nat := cs.foldl nextColumn column

variable {cs ds : List Char} {c : Char} (column : Nat)

@[simp] theorem columnBehind_nil : columnBehind column [] = column := rfl

@[simp] theorem columnBehind_cons (c : Char) (cs : List Char) :
    columnBehind column (c :: cs) = columnBehind (nextColumn column c) cs := rfl

/-! ## Expansion -/

@[simp] theorem expandTabs_nil : expandTabs column [] = [] := rfl

theorem expandTabs_tab (cs : List Char) : expandTabs column ('\t' :: cs) =
    List.replicate (tabWidth - column % tabWidth) ' ' ++ expandTabs (nextColumn column '\t') cs :=
  rfl

theorem expandTabs_cons (h : c ≠ '\t') (cs : List Char) :
    expandTabs column (c :: cs) = c :: expandTabs (nextColumn column c) cs := by
  by_cases hline : c = '\n' ∨ c = '\r' <;> simp [expandTabs, nextColumn, h, hline]

/-- A tab stands for one space at least. -/
theorem exists_width_tab : ∃ n, tabWidth - column % tabWidth = n + 1 := by
  have hlt : column % tabWidth < tabWidth := Nat.mod_lt _ (by decide)
  exact ⟨tabWidth - column % tabWidth - 1, by omega⟩

theorem expandTabs_append (cs ds : List Char) : expandTabs column (cs ++ ds) =
    expandTabs column cs ++ expandTabs (columnBehind column cs) ds := by
  induction cs generalizing column with
  | nil => rfl
  | cons c cs ih =>
    by_cases hc : c = '\t'
    · subst hc
      simp [expandTabs_tab, ih]
    · simp [expandTabs_cons _ hc, ih]

theorem expandTabs_eq_self (h : '\t' ∉ cs) : expandTabs column cs = cs := by
  induction cs generalizing column with
  | nil => rfl
  | cons c cs ih =>
    rw [List.mem_cons, not_or] at h
    rw [expandTabs_cons _ (Ne.symm h.1), ih _ h.2]

theorem isEmpty_expandTabs (cs : List Char) : (expandTabs column cs).isEmpty = cs.isEmpty := by
  cases cs with
  | nil => rfl
  | cons c cs =>
    by_cases hc : c = '\t'
    · obtain ⟨n, hn⟩ := exists_width_tab column
      rw [hc, expandTabs_tab, hn]
      rfl
    · rw [expandTabs_cons _ hc]
      rfl

theorem notMem_expandTabs (cs : List Char) : '\t' ∉ expandTabs column cs := by
  induction cs generalizing column with
  | nil => simp
  | cons c cs ih =>
    by_cases hc : c = '\t'
    · subst hc
      simp [expandTabs_tab, List.mem_replicate, ih]
    · simp [expandTabs_cons _ hc, ih, Ne.symm hc]

theorem isAllBlank_replicate (n : Nat) : isAllBlank (List.replicate n ' ') := by
  rw [isAllBlank, List.all_replicate, ite_eq_left_iff]
  exact fun _ => rfl

theorem isAllBlank_takeWhile (cs : List Char) : isAllBlank (cs.takeWhile isBlank) :=
  List.all_takeWhile

/-- The blanks at the front are expanded by themselves, and so is what follows. -/
theorem takeWhile_expandTabs (cs : List Char) :
    (expandTabs column cs).takeWhile isBlank = expandTabs column (cs.takeWhile isBlank) := by
  induction cs generalizing column with
  | nil => rfl
  | cons c cs ih =>
    by_cases hc : c = '\t'
    · subst hc
      have hspaces := List.all_eq_true.mp (isAllBlank_replicate (tabWidth - column % tabWidth))
      rw [expandTabs_tab, List.takeWhile_append_of_pos hspaces, ih, List.takeWhile_cons_of_pos rfl,
        expandTabs_tab]
    · by_cases hblank : isBlank c
      · simp [expandTabs_cons _ hc, hblank, ih]
      · simp [expandTabs_cons _ hc, hblank]

theorem dropWhile_expandTabs (cs : List Char) : (expandTabs column cs).dropWhile isBlank =
    expandTabs (columnBehind column (cs.takeWhile isBlank)) (cs.dropWhile isBlank) := by
  have h := List.takeWhile_append_dropWhile (p := isBlank) (l := expandTabs column cs)
  conv_rhs at h => rw [← List.takeWhile_append_dropWhile (p := isBlank) (l := cs)]
  rw [takeWhile_expandTabs, expandTabs_append] at h
  exact List.append_cancel_left h

/-! ## Lines -/

theorem splitAt_append {sep : Char → Bool} {front piece : List Char} {pieces : List (List Char)}
    (h : ∀ c ∈ front, sep c = false) (hcs : splitAt sep cs = piece :: pieces) :
    splitAt sep (front ++ cs) = (front ++ piece) :: pieces := by
  induction front with
  | nil => exact hcs
  | cons c front ih =>
    obtain ⟨hc, hfront⟩ := List.forall_mem_cons.mp h
    simp [splitAt, hc, ih hfront]

theorem splitAt_ne_nil (sep : Char → Bool) (cs : List Char) : splitAt sep cs ≠ [] := by
  cases cs with
  | nil => simp [splitAt]
  | cons c cs =>
    rw [splitAt]
    split <;> [simp; split <;> simp]

theorem splitAt_expandTabs {piece : List Char} {pieces : List (List Char)}
    (h : splitAt (· = '\n') cs = piece :: pieces) :
    splitAt (· = '\n') (expandTabs column cs)
      = expandTabs column piece :: pieces.map (expandTabs 0) := by
  induction cs generalizing column piece pieces with
  | nil =>
    obtain ⟨rfl, rfl⟩ := List.cons.inj h
    rfl
  | cons c cs ih =>
    obtain ⟨next, others, hrest⟩ := List.exists_cons_of_ne_nil (splitAt_ne_nil (· = '\n') cs)
    rw [splitAt, hrest] at h
    by_cases hline : c = '\n'
    · subst hline
      obtain ⟨rfl, rfl⟩ := List.cons.inj h
      rw [expandTabs_cons _ (by decide), splitAt, ih _ hrest]
      rfl
    · rw [if_neg (by simpa using hline)] at h
      obtain ⟨rfl, rfl⟩ := List.cons.inj h
      by_cases hc : c = '\t'
      · subst hc
        rw [expandTabs_tab, expandTabs_tab, splitAt_append (by simp) (ih _ hrest)]
      · rw [expandTabs_cons _ hc, expandTabs_cons _ hc, splitAt, ih _ hrest]
        simp [hline]

theorem dropFinalReturn_expandTabs (line : List Char) :
    dropFinalReturn (expandTabs 0 line) = expandTabs 0 (dropFinalReturn line) := by
  rcases line.eq_nil_or_concat with rfl | ⟨front, c, rfl⟩
  · rfl
  · rw [List.concat_eq_append]
    by_cases hc : c = '\t'
    · obtain ⟨n, hn⟩ := exists_width_tab (columnBehind 0 front)
      simp [dropFinalReturn, hc, expandTabs_append, expandTabs_tab, hn, List.getLast?_append,
        List.getLast?_replicate]
    · by_cases hreturn : c = '\r' <;>
        simp [dropFinalReturn, hreturn, expandTabs_append, expandTabs_cons, hc]

/-- The lines of the expanded text are the expanded lines. -/
theorem lines_expandTabs (cs : List Char) :
    lines (expandTabs 0 cs) = (lines cs).map (expandTabs 0) := by
  obtain ⟨piece, pieces, hcs⟩ := List.exists_cons_of_ne_nil (splitAt_ne_nil (· = '\n') cs)
  have hmap : splitAt (· = '\n') (expandTabs 0 cs)
      = (splitAt (· = '\n') cs).map (expandTabs 0) := by
    rw [splitAt_expandTabs 0 hcs, hcs, List.map_cons]
  simp only [lines, hmap, List.map_append, ← List.map_dropLast, List.map_map, List.getLast?_map]
  congr 1
  · exact List.map_congr_left fun line _ => dropFinalReturn_expandTabs line
  · cases (splitAt (· = '\n') cs).getLast? with
    | none => rfl
    | some last => simp [List.filter_cons, isEmpty_expandTabs, apply_ite (List.map (expandTabs 0))]

/-! ## Other spaces for the same tabs -/

/-- The second text has spaces, one at least, where the first one has a tab. -/
inductive Respaced : List Char → List Char → Prop
  | nil : Respaced [] []
  | tab (n : Nat) {cs ds : List Char} (h : Respaced cs ds) :
    Respaced ('\t' :: cs) (List.replicate (n + 1) ' ' ++ ds)
  | cons (c : Char) {cs ds : List Char} (h : Respaced cs ds) : Respaced (c :: cs) (c :: ds)

theorem respaced_expandTabs (cs : List Char) : Respaced cs (expandTabs column cs) := by
  induction cs generalizing column with
  | nil => exact .nil
  | cons c cs ih =>
    by_cases hc : c = '\t'
    · obtain ⟨n, hn⟩ := exists_width_tab column
      rw [hc, expandTabs_tab, hn]
      exact .tab n (ih _)
    · rw [expandTabs_cons _ hc]
      exact .cons c (ih _)

namespace Respaced

theorem refl : ∀ cs : List Char, Respaced cs cs
  | [] => .nil
  | c :: cs => .cons c (refl cs)

theorem append {cs' ds' : List Char} (h : Respaced cs ds) (h' : Respaced cs' ds') :
    Respaced (cs ++ cs') (ds ++ ds') := by
  induction h with
  | nil => exact h'
  | tab n _ ih =>
    rw [List.cons_append, List.append_assoc]
    exact .tab n ih
  | cons c _ ih => exact .cons c ih

/-- Without a tab, the text at the front stays as it is. -/
theorem of_append {piece rest : List Char} (h : Respaced (piece ++ rest) ds)
    (hpiece : '\t' ∉ piece) : ∃ rest', ds = piece ++ rest' ∧ Respaced rest rest' := by
  induction piece generalizing ds with
  | nil => exact ⟨ds, rfl, h⟩
  | cons c piece ih =>
    rw [List.mem_cons, not_or] at hpiece
    cases h with
    | tab => exact absurd rfl hpiece.1
    | cons c h =>
      obtain ⟨rest', rfl, hrest⟩ := ih h hpiece.2
      exact ⟨rest', rfl, hrest⟩

/-- Without a space, the text at the front has been as it is. -/
theorem to_append {piece rest : List Char} (h : Respaced cs (piece ++ rest))
    (hpiece : ' ' ∉ piece) : ∃ rest', cs = piece ++ rest' ∧ Respaced rest' rest := by
  induction piece generalizing cs with
  | nil => exact ⟨cs, rfl, h⟩
  | cons c piece ih =>
    rw [List.mem_cons, not_or] at hpiece
    generalize hds : c :: piece ++ rest = ds at h
    cases h with
    | nil => cases hds
    | tab n h =>
      rw [List.replicate_succ] at hds
      exact absurd (List.cons.inj hds).1.symm hpiece.1
    | cons d h =>
      obtain ⟨rfl, rfl⟩ := List.cons.inj hds
      obtain ⟨rest', rfl, hrest⟩ := ih h hpiece.2
      exact ⟨rest', rfl, hrest⟩

theorem reverse (h : Respaced cs ds) : Respaced cs.reverse ds.reverse := by
  induction h with
  | nil => exact .nil
  | tab n _ ih =>
    rw [List.reverse_cons, List.reverse_append, List.reverse_replicate]
    exact ih.append (List.append_nil (List.replicate (n + 1) ' ') ▸ .tab n .nil)
  | cons c _ ih =>
    rw [List.reverse_cons, List.reverse_cons]
    exact ih.append (.cons c .nil)

theorem dropWhile_isBlank (h : Respaced cs ds) :
    Respaced (cs.dropWhile isBlank) (ds.dropWhile isBlank) := by
  induction h with
  | nil => exact .nil
  | tab n _ ih =>
    rw [List.dropWhile_append_of_pos (List.all_eq_true.mp (isAllBlank_replicate _))]
    exact ih
  | cons c h ih =>
    by_cases hc : isBlank c
    · simpa [hc] using ih
    · simpa [hc] using .cons c h

theorem trim (h : Respaced cs ds) : Respaced (trim cs) (trim ds) :=
  h.dropWhile_isBlank.reverse.dropWhile_isBlank.reverse

theorem isAllBlank_eq (h : Respaced cs ds) : isAllBlank ds = isAllBlank cs := by
  unfold isAllBlank
  induction h with
  | nil => rfl
  | tab n _ ih =>
    rw [List.all_append, ih, List.all_replicate]
    rfl
  | cons c _ ih => rw [List.all_cons, List.all_cons, ih]

theorem map {f : Char → Char} (htab : f '\t' = '\t') (hspace : f ' ' = ' ') (h : Respaced cs ds) :
    Respaced (cs.map f) (ds.map f) := by
  induction h with
  | nil => exact .nil
  | tab n _ ih =>
    rw [List.map_cons, List.map_append, List.map_replicate, htab, hspace]
    exact .tab n ih
  | cons c _ ih => exact .cons (f c) ih

end Respaced

/-! ## Trimming -/

theorem trim_infix (cs : List Char) : trim cs <:+: cs := by
  have hend : trim cs <+: trimStart cs := by
    rw [← List.reverse_suffix, trim, trimEnd, List.reverse_reverse]
    exact List.dropWhile_suffix _
  exact hend.isInfix.trans (List.dropWhile_suffix _).isInfix

theorem trim_append_space (cs : List Char) : trim (cs ++ [' ']) = trim cs := by
  have hend (cs : List Char) : trimEnd (cs ++ [' ']) = trimEnd cs := by
    rw [trimEnd, List.reverse_append]
    rfl
  have hstart : trimStart (cs ++ [' ']) =
      if (trimStart cs).isEmpty then [] else trimStart cs ++ [' '] := List.dropWhile_append
  rw [trim, hstart, trim]
  split
  next hempty => rw [List.isEmpty_iff.mp hempty]
  next => exact hend _

end Synopsis.Text
