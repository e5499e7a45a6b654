import Synopsis.Proofs.Help.Declarations

/-! # Words between blanks

What stands between two blanks is read by itself: marks are set apart from it without a look
at its neighbours, and so it is cut into words. Only a `<` that is not closed before the
blank reaches over it, to the next `>` of the line.
-/

namespace Synopsis

variable {c : Char} {cs rest : List Char}

namespace Text

/-- Pieces are not changed by what follows if their sizes are not. -/
theorem pieces_append_pieces {size : List Char → Nat} (hle : ∀ cs, size cs ≤ cs.length)
    (hsize : ∀ cs, cs ≠ [] → size (cs ++ rest) = size cs) (cs : List Char) :
    pieces size (cs ++ rest) = pieces size cs ++ pieces size rest := by
  fun_induction pieces size cs with
  | case1 => rfl
  | case2 c cs n ih =>
    have hn : n ≤ cs.length := by
      have := hle (c :: cs)
      rw [List.length_cons] at this
      omega
    have hsame : size (c :: (cs ++ rest)) - 1 = n := congrArg (· - 1) (hsize (c :: cs) (List.cons_ne_nil c cs))
    rw [List.cons_append, pieces, hsame, List.take_append_of_le_length hn,
      List.drop_append_of_le_length hn, ih, List.cons_append]

theorem takeWhile_append_of_head? {p : Char → Bool} (h : ∀ c ∈ rest.head?, p c = false) :
    (cs ++ rest).takeWhile p = cs.takeWhile p := by
  have hrest : rest.takeWhile p = [] := by
    cases rest with
    | nil => rfl
    | cons c rest => exact List.takeWhile_cons_of_neg (by simp [h c rfl])
  rw [List.takeWhile_append, hrest, List.append_nil]
  split
  next h => exact ((List.takeWhile_prefix p).eq_of_length h).symm
  next => rfl

/-- A text is what is left of it when it is trimmed, with blanks on both sides. -/
theorem exists_trim (cs : List Char) : ∃ before behind, cs = before ++ trim cs ++ behind ∧
    (∀ c ∈ before, isBlank c) ∧ ∀ c ∈ behind, isBlank c := by
  have hend (cs : List Char) : ∃ behind, cs = trimEnd cs ++ behind ∧ ∀ c ∈ behind, isBlank c := by
    refine ⟨(cs.reverse.takeWhile isBlank).reverse, ?_, fun c hc => ?_⟩
    · rw [trimEnd, ← List.reverse_append, List.takeWhile_append_dropWhile, List.reverse_reverse]
    · exact List.mem_takeWhile_imp (List.mem_reverse.mp hc)
  obtain ⟨behind, heq, hbehind⟩ := hend (trimStart cs)
  refine ⟨cs.takeWhile isBlank, behind, ?_, fun c hc => List.mem_takeWhile_imp hc, hbehind⟩
  rw [List.append_assoc, trim, ← heq, trimStart, List.takeWhile_append_dropWhile]

end Text

namespace Help

/-! ## Marks -/

/-- What a title may be made of. -/
def inTitle (c : Char) : Bool := !Text.isBlank c && c ≠ '[' && c ≠ ']'

/-- The shortcut of which the inside is given, and the text behind that. -/
def shortcutOf? (inside : List Char) : List Char → Option (List Char × List Char)
  | ']' :: rest => do
    let (title, last) := inside.splitAt (inside.length - optionsWord.length)
    guard (last.map Text.fold = optionsWord ∧ title.head? ≠ some '-')
    some (title, rest)
  | _ => none

theorem shortcutOf?_eq_none {inside : List Char} (h : cs.head? ≠ some ']') :
    shortcutOf? inside cs = none := by
  unfold shortcutOf?
  split
  next => exact absurd rfl h
  next => rfl

theorem shortcutOf?_append {inside : List Char} (hne : cs ≠ []) (rest : List Char) :
    shortcutOf? inside (cs ++ rest) = (shortcutOf? inside cs).map fun s => (s.1, s.2 ++ rest) := by
  cases cs with
  | nil => exact absurd rfl hne
  | cons c cs =>
    by_cases hc : c = ']'
    · subst hc
      rw [List.cons_append]
      simp only [shortcutOf?, guard]
      split <;> rfl
    · have hhead : (c :: cs).head? ≠ some ']' := fun h => hc (Option.some.inj h)
      rw [shortcutOf?_eq_none hhead, List.cons_append, shortcutOf?_eq_none]
      · rfl
      · exact hhead

theorem eq_of_shortcutOf? {inside title : List Char} (h : shortcutOf? inside cs = some (title, rest)) :
    cs = ']' :: rest := by
  unfold shortcutOf? at h
  split at h
  next =>
    simp only [guard] at h
    split at h
    next => rw [(Prod.mk.inj (Option.some.inj h)).2]
    next => cases h
  next => cases h

theorem shortcut?_bracket (cs : List Char) :
    shortcut? ('[' :: cs) = shortcutOf? (cs.takeWhile inTitle) (cs.dropWhile inTitle) := by
  have hdrop : cs.drop (cs.takeWhile inTitle).length = cs.dropWhile inTitle := by
    have h := @List.drop_left _ (cs.takeWhile inTitle) (cs.dropWhile inTitle)
    rwa [List.takeWhile_append_dropWhile] at h
  rw [← hdrop]
  rfl

theorem shortcut?_of_ne (h : c ≠ '[') : shortcut? (c :: cs) = none := by
  unfold shortcut?
  split
  next heq => exact absurd (List.cons.inj heq).1 h
  next => rfl

/-- No mark and no shortcut reaches into the text from in front of it. -/
structure Severed (rest : List Char) : Prop where
  dot : rest.head? ≠ some '.'
  close : (rest.dropWhile inTitle).head? ≠ some ']'

theorem severed_of_blank (h : ∀ c ∈ rest.head?, Text.isBlank c) : Severed rest := by
  cases rest with
  | nil => exact ⟨nofun, nofun⟩
  | cons c rest =>
    have hc : Text.isBlank c = true := h c rfl
    have hdrop : (c :: rest).dropWhile inTitle = c :: rest :=
      List.dropWhile_cons_of_neg (by simp [inTitle, hc])
    constructor
    · rintro ⟨⟩
      exact absurd hc (by decide)
    · rw [hdrop]
      rintro ⟨⟩
      exact absurd hc (by decide)

theorem severed_close : Severed ['>'] := ⟨nofun, nofun⟩

theorem shortcut?_append (h : Severed rest) (hne : cs ≠ []) :
    shortcut? (cs ++ rest) = (shortcut? cs).map fun s => (s.1, s.2 ++ rest) := by
  cases cs with
  | nil => exact absurd rfl hne
  | cons c cs =>
    by_cases hc : c = '['
    · subst hc
      rw [List.cons_append, shortcut?_bracket, shortcut?_bracket, List.dropWhile_append]
      by_cases hall : cs.dropWhile inTitle = []
      · rw [hall, List.isEmpty_nil, if_pos rfl, shortcutOf?_eq_none h.close]
        rfl
      · have htitle : (cs ++ rest).takeWhile inTitle = cs.takeWhile inTitle := by
          rw [List.takeWhile_append, if_neg]
          intro hlength
          have happend := congrArg List.length
            (List.takeWhile_append_dropWhile (p := inTitle) (l := cs))
          rw [List.length_append, hlength, Nat.add_eq_left, List.length_eq_zero_iff] at happend
          exact hall happend
        rw [if_neg (by simpa using hall), htitle, shortcutOf?_append hall]
    · rw [List.cons_append, shortcut?_of_ne hc, shortcut?_of_ne hc]
      rfl

theorem markSize_cons (c : Char) (cs : List Char) : markSize (c :: cs) =
    if c = '.' ∧ ['.', '.'] <+: cs then 3 else if isMarkChar c then 1 else 0 := by
  unfold markSize
  split
  next heq =>
    obtain ⟨rfl, rfl⟩ := List.cons.inj heq
    exact (if_pos ⟨rfl, _, rfl⟩).symm
  next hne heq =>
    obtain ⟨rfl, rfl⟩ := List.cons.inj heq
    have hdots : ¬ (c = '.' ∧ ['.', '.'] <+: cs) := by
      rintro ⟨rfl, _, rfl⟩
      exact hne _ rfl rfl
    rw [if_neg hdots]
  next heq => cases heq

theorem markSize_append (h : Severed rest) (hne : cs ≠ []) :
    markSize (cs ++ rest) = markSize cs := by
  cases cs with
  | nil => exact absurd rfl hne
  | cons c cs =>
    have hdots : ['.', '.'] <+: cs ++ rest ↔ ['.', '.'] <+: cs := by
      refine ⟨fun hprefix => ?_, fun hprefix => hprefix.trans (List.prefix_append _ _)⟩
      obtain ⟨behind, heq⟩ := hprefix
      have hdot := h.dot
      rcases cs with - | ⟨d, - | ⟨e, cs⟩⟩
      · exact absurd (congrArg List.head? heq.symm) hdot
      · exact absurd (congrArg List.head? (List.cons.inj heq.symm).2) hdot
      · simp only [List.cons_append, List.cons.injEq] at heq
        obtain ⟨rfl, rfl, -⟩ := heq
        exact ⟨cs, rfl⟩
    simp only [List.cons_append, markSize_cons, hdots]

/-! ## Marks set apart -/

/-- The text with marks and shortcuts set apart. -/
abbrev spaced (cs : List Char) : List Char := setApart shortcutOrMarkSize cs

theorem spaced_nil : spaced [] = [] := by rw [spaced, setApart, Text.pieces_nil, List.flatMap_nil]

theorem shortcutOrMarkSize_append (h : Severed rest) (hne : cs ≠ []) :
    shortcutOrMarkSize (cs ++ rest) = shortcutOrMarkSize cs := by
  rw [shortcutOrMarkSize, shortcutOrMarkSize, shortcut?_append h hne]
  cases shortcut? cs with
  | none => exact markSize_append h hne
  | some s =>
    show (cs ++ rest).length - (s.2 ++ rest).length = cs.length - s.2.length
    rw [List.length_append, List.length_append, Nat.add_sub_add_right]

theorem shortcutOrMarkSize_le (cs : List Char) : shortcutOrMarkSize cs ≤ cs.length := by
  unfold shortcutOrMarkSize
  split
  next => exact Nat.sub_le _ _
  next =>
    unfold markSize
    split
    next => simp
    next => split <;> simp
    next => simp

theorem spaced_append (h : Severed rest) (cs : List Char) :
    spaced (cs ++ rest) = spaced cs ++ spaced rest := by
  rw [spaced, setApart, Text.pieces_append_pieces shortcutOrMarkSize_le
    fun _ => shortcutOrMarkSize_append h, List.flatMap_append]
  rfl

theorem shortcutOrMarkSize_of_ne (h : c ≠ '[') (cs : List Char) :
    shortcutOrMarkSize (c :: cs) = markSize (c :: cs) := by
  rw [shortcutOrMarkSize, shortcut?_of_ne h]

theorem shortcutOrMarkSize_bracket (cs : List Char) : shortcutOrMarkSize ('[' :: cs) ≠ 0 := by
  unfold shortcutOrMarkSize
  split
  next title rest h =>
    rw [shortcut?_bracket] at h
    have hlength := (List.dropWhile_suffix (l := cs) inTitle).length_le
    rw [eq_of_shortcutOf? h, List.length_cons] at hlength
    rw [List.length_cons]
    omega
  next =>
    rw [markSize_cons, if_neg (by simp)]
    decide

theorem ne_bracket_of_size (h : shortcutOrMarkSize (c :: cs) = 0) : c ≠ '[' := by
  rintro rfl
  exact shortcutOrMarkSize_bracket cs h

theorem shortcutOrMarkSize_blank (h : Text.isBlank c) : shortcutOrMarkSize (c :: cs) = 0 := by
  have hne {d : Char} (hd : Text.isBlank d = false) : c ≠ d := by
    rintro rfl
    exact absurd h (hd ▸ nofun)
  have hmark : isMarkChar c = false := by
    have hmarks : c ≠ '|' ∧ c ≠ '[' ∧ c ≠ ']' ∧ c ≠ '(' ∧ c ≠ ')' :=
      ⟨hne rfl, hne rfl, hne rfl, hne rfl, hne rfl⟩
    simpa [isMarkChar] using hmarks
  rw [shortcutOrMarkSize_of_ne (hne rfl), markSize_cons, if_neg fun hdots => hne rfl hdots.1, hmark]
  rfl

theorem spaced_cons (h : shortcutOrMarkSize (c :: cs) = 0) : spaced (c :: cs) = c :: spaced cs := by
  have hc := ne_bracket_of_size h
  rw [shortcutOrMarkSize_of_ne hc] at h
  refine setApart_cons ?_ ?_
  · rw [shortcutOrMarkSize_of_ne hc, h]
  · rw [shortcutOrMarkSize_of_ne hc, markSize_singleton h]

theorem spaced_blanks {blanks : List Char} (h : ∀ c ∈ blanks, Text.isBlank c) (cs : List Char) :
    spaced (blanks ++ cs) = blanks ++ spaced cs := by
  induction blanks with
  | nil => rfl
  | cons b blanks ih =>
    obtain ⟨hb, hblanks⟩ := List.forall_mem_cons.mp h
    rw [List.cons_append, spaced_cons (shortcutOrMarkSize_blank hb), ih hblanks, List.cons_append]

/-! ## Placeholders that are left open -/

/-- Neither what closes a placeholder nor the end of the line occurs. -/
def isUnclosed (cs : List Char) : Bool := cs.all fun c => c ≠ '>' && c ≠ '\n'

/-- A `<` of the word in front is not closed. -/
def opensPlaceholder : List Char → Bool
  | [] => false
  | c :: cs => !Text.isBlank c && (c = '<' && isUnclosed cs || opensPlaceholder cs)

/-- A word begins somewhere of which a `<` is not closed. -/
inductive LeavesOpen : List Char → Prop
  | word {cs : List Char} (hshortcut : shortcut? cs = none) (h : opensPlaceholder cs = true) :
      LeavesOpen cs
  | behind {piece rest : List Char} (hne : piece ≠ [])
      (hsize : wordSize (piece ++ rest) = piece.length) (h : LeavesOpen rest) :
      LeavesOpen (piece ++ rest)

theorem isUnclosed_iff : isUnclosed cs = true ↔ ∀ c ∈ cs, c ≠ '>' ∧ c ≠ '\n' := by
  simp [isUnclosed]

theorem behindClose?_append_of (h : isUnclosed cs = true → behindClose? rest = none) :
    behindClose? (cs ++ rest) = (behindClose? cs).map (· ++ rest) := by
  induction cs with
  | nil => exact h rfl
  | cons c cs ih =>
    rw [List.cons_append, behindClose?, behindClose?]
    split_ifs with hclose hline
    · rfl
    · rfl
    · exact ih fun hcs => h (by simpa [isUnclosed, hclose, hline] using hcs)

theorem behindPlaceholder?_of_blank (h : ∀ c ∈ cs.head?, Text.isBlank c) :
    behindPlaceholder? cs = none := by
  cases cs with
  | nil => rfl
  | cons c cs => exact if_pos (h c rfl)

theorem behindPlaceholder?_append (hrest : ∀ c ∈ rest.head?, Text.isBlank c)
    (h : opensPlaceholder cs = true → behindClose? rest = none) :
    behindPlaceholder? (cs ++ rest) = (behindPlaceholder? cs).map (· ++ rest) := by
  induction cs with
  | nil => exact behindPlaceholder?_of_blank hrest
  | cons c cs ih =>
    rw [List.cons_append, behindPlaceholder?, behindPlaceholder?]
    by_cases hc : Text.isBlank c
    · rw [if_pos hc, if_pos hc]
      rfl
    · have hopens : opensPlaceholder (c :: cs) =
          (c = '<' && isUnclosed cs || opensPlaceholder cs) := by simp [opensPlaceholder, hc]
      rw [hopens] at h
      rw [if_neg hc, if_neg hc, ih fun hcs => h (by rw [hcs, Bool.or_true])]
      split
      next hopen =>
        rw [behindClose?_append_of fun hcs => h (by simp [hopen, hcs]), Option.map_or]
      next => rw [Option.or_none, Option.or_none]

theorem exists_of_behindPlaceholder? {behind : List Char} (h : behindPlaceholder? cs = some behind) :
    ∃ front, cs = front ++ '>' :: behind := by
  induction cs with
  | nil => cases h
  | cons c cs ih =>
    rw [behindPlaceholder?] at h
    split at h
    next => cases h
    next =>
      rw [Option.or_eq_some_iff] at h
      rcases h with h | ⟨-, h⟩
      · obtain ⟨front, rfl⟩ := ih h
        exact ⟨c :: front, rfl⟩
      · split at h
        next =>
          obtain ⟨inner, rfl, -⟩ := exists_of_behindClose? h
          exact ⟨c :: inner, rfl⟩
        next => cases h

/-- An open `<` is closed by the first `>` that follows. -/
theorem behindPlaceholder?_append_of_opens {behind : List Char}
    (hrest : ∀ c ∈ rest.head?, Text.isBlank c) (hclose : behindClose? rest = some behind)
    (h : opensPlaceholder cs = true) : behindPlaceholder? (cs ++ rest) = some behind := by
  induction cs with
  | nil => cases h
  | cons c cs ih =>
    rw [opensPlaceholder, Bool.and_eq_true, Bool.not_eq_true', Bool.or_eq_true] at h
    obtain ⟨hc, h⟩ := h
    rw [List.cons_append, behindPlaceholder?, if_neg (by simp [hc])]
    by_cases hopens : opensPlaceholder cs = true
    · rw [ih hopens, Option.some_or]
    · obtain ⟨hopen, hcs⟩ := Bool.and_eq_true_iff.mp (h.resolve_right hopens)
      have hinner := isUnclosed_iff.mp hcs
      have hnone : behindPlaceholder? cs = none := by
        cases hfound : behindPlaceholder? cs with
        | none => rfl
        | some found =>
          obtain ⟨front, rfl⟩ := exists_of_behindPlaceholder? hfound
          exact absurd rfl (hinner '>' (List.mem_append_right _ List.mem_cons_self)).1
      rw [behindPlaceholder?_append hrest fun h => absurd h hopens, hnone,
        if_pos (of_decide_eq_true hopen), behindClose?_append hinner, hclose]
      rfl

/-! ## Pieces -/

theorem blankSize_eq_zero_iff : blankSize (c :: cs) = 0 ↔ Text.isBlank c = false := by
  cases hc : Text.isBlank c <;> simp [blankSize, hc]

theorem blankSize_append (hne : cs ≠ []) (rest : List Char) :
    blankSize (cs ++ rest) = 0 ↔ blankSize cs = 0 := by
  cases cs with
  | nil => exact absurd rfl hne
  | cons c cs => rw [List.cons_append, blankSize_eq_zero_iff, blankSize_eq_zero_iff]

theorem blankSize_le (cs : List Char) : blankSize cs ≤ cs.length :=
  (List.takeWhile_prefix _).length_le

theorem inkSize_le (cs : List Char) : inkSize cs ≤ cs.length :=
  (List.takeWhile_prefix _).length_le

theorem wordSize_eq (h : blankSize cs = 0) : wordSize cs =
    if (shortcut? cs).isSome then inkSize cs
    else match behindPlaceholder? cs with
      | some rest => cs.length - rest.length + inkSize rest
      | none => inkSize cs := if_neg (by omega)

theorem wordSize_le (cs : List Char) : wordSize cs ≤ cs.length := by
  unfold wordSize
  split
  next => exact blankSize_le cs
  next =>
    split
    next => exact inkSize_le cs
    next =>
      split
      next rest h =>
        obtain ⟨front, rfl⟩ := exists_of_behindPlaceholder? h
        have := inkSize_le rest
        simp only [List.length_append, List.length_cons]
        omega
      next => exact inkSize_le cs

theorem wordSize_pos (hne : cs ≠ []) : 0 < wordSize cs := by
  cases cs with
  | nil => exact absurd rfl hne
  | cons c cs =>
    cases hc : Text.isBlank c with
    | true =>
      have hblank : 0 < blankSize (c :: cs) := by simp [blankSize, hc]
      rwa [wordSize, if_pos hblank]
    | false =>
      have hink : 0 < inkSize (c :: cs) := by simp [inkSize, hc]
      rw [wordSize_eq (blankSize_eq_zero_iff.mpr hc)]
      split
      next => exact hink
      next =>
        split
        next rest h =>
          obtain ⟨front, hfront⟩ := exists_of_behindPlaceholder? h
          rw [hfront, List.length_append, List.length_cons]
          omega
        next => exact hink

/-- A word does not depend on what stands behind a blank, unless that closes a `<` of it. -/
theorem wordSize_append (hrest : ∀ c ∈ rest.head?, Text.isBlank c) (hne : cs ≠ [])
    (hink : blankSize cs = 0)
    (h : shortcut? cs = none → opensPlaceholder cs = true → behindClose? rest = none) :
    wordSize (cs ++ rest) = wordSize cs := by
  have hinkSize (cs : List Char) : inkSize (cs ++ rest) = inkSize cs :=
    congrArg List.length (Text.takeWhile_append_of_head? fun c hc => by simp [hrest c hc])
  rw [wordSize_eq ((blankSize_append hne rest).mpr hink), wordSize_eq hink,
    shortcut?_append (severed_of_blank hrest) hne, Option.isSome_map, hinkSize]
  split
  next => rfl
  next hshortcut =>
    rw [behindPlaceholder?_append hrest (h (by simpa using hshortcut))]
    cases behindPlaceholder? cs with
    | none => rfl
    | some behind =>
      show (cs ++ rest).length - (behind ++ rest).length + inkSize (behind ++ rest) = _
      rw [hinkSize, List.length_append, List.length_append, Nat.add_sub_add_right]

theorem exists_piece (hne : cs ≠ []) : ∃ piece behind, cs = piece ++ behind ∧ piece ≠ [] ∧
    wordSize (piece ++ behind) = piece.length := by
  have hlength : (cs.take (wordSize cs)).length = wordSize cs :=
    List.length_take_of_le (wordSize_le cs)
  refine ⟨_, _, (List.take_append_drop (wordSize cs) cs).symm, ?_, ?_⟩
  · rw [← List.length_pos_iff, hlength]
    exact wordSize_pos hne
  · rw [List.take_append_drop, hlength]

theorem blankSize_of_opens (h : opensPlaceholder cs = true) : blankSize cs = 0 := by
  cases cs with
  | nil => rfl
  | cons c cs =>
    rw [opensPlaceholder, Bool.and_eq_true, Bool.not_eq_true'] at h
    exact blankSize_eq_zero_iff.mpr h.1

section Piece

variable {piece behind : List Char}

theorem isBlank_of_piece (hblank : 0 < blankSize (piece ++ behind))
    (hsize : wordSize (piece ++ behind) = piece.length) : ∀ c ∈ piece, Text.isBlank c := by
  rw [wordSize, if_pos hblank] at hsize
  have hpiece : (piece ++ behind).takeWhile Text.isBlank = piece :=
    List.IsPrefix.eq_of_length
      (List.prefix_of_prefix_length_le (List.takeWhile_prefix _) (List.prefix_append _ _) hsize.le)
      hsize
  rw [← hpiece]
  exact fun c hc => List.mem_takeWhile_imp hc

theorem isAllBlank_eq_false (hne : piece ≠ []) (hink : blankSize piece = 0) :
    Text.isAllBlank piece = false := by
  cases piece with
  | nil => exact absurd rfl hne
  | cons c piece =>
    rw [Text.isAllBlank, List.all_cons, blankSize_eq_zero_iff.mp hink, Bool.false_and]

theorem inkPieces_of_ink (hne : piece ≠ []) (hink : blankSize piece = 0)
    (hsize : wordSize (piece ++ behind) = piece.length) :
    inkPieces wordSize (piece ++ behind) = piece :: inkPieces wordSize behind := by
  rw [inkPieces_append hne hsize, isAllBlank_eq_false hne hink]
  rfl

end Piece

/-! ## Words -/

theorem inkPieces_nil (size : List Char → Nat) : inkPieces size [] = [] := by
  rw [inkPieces, Text.pieces_nil]
  rfl

theorem inkPieces_trimStart (cs : List Char) :
    inkPieces wordSize (cs.dropWhile Text.isBlank) = inkPieces wordSize cs := by
  by_cases h : 0 < blankSize cs
  · exact (inkPieces_dropWhile (if_pos h) h).symm
  · have hnone : cs.takeWhile Text.isBlank = [] :=
      List.length_eq_zero_iff.mp (Nat.eq_zero_of_not_pos h)
    have happend := List.takeWhile_append_dropWhile (p := Text.isBlank) (l := cs)
    rw [hnone, List.nil_append] at happend
    rw [happend]

theorem inkPieces_blanks {blanks : List Char} (h : ∀ c ∈ blanks, Text.isBlank c)
    (cs : List Char) : inkPieces wordSize (blanks ++ cs) = inkPieces wordSize cs := by
  rw [← inkPieces_trimStart (blanks ++ cs), ← inkPieces_trimStart cs,
    List.dropWhile_append_of_pos h]

/-- Words on both sides of a blank are read apart, unless a `<` in front of it is closed
only behind it. -/
theorem inkPieces_append_blank (hrest : ∀ c ∈ rest.head?, Text.isBlank c)
    (h : LeavesOpen cs → behindClose? rest = none) : inkPieces wordSize (cs ++ rest) =
      inkPieces wordSize cs ++ inkPieces wordSize rest := by
  induction hn : cs.length using Nat.strongRecOn generalizing cs with
  | ind n ih =>
  subst hn
  by_cases hnil : cs = []
  · subst hnil
    rw [inkPieces_nil]
    rfl
  obtain ⟨piece, behind, rfl, hne, hsize⟩ := exists_piece hnil
  have hlt : behind.length < (piece ++ behind).length := by
    simpa using List.length_pos_iff.mpr hne
  have ih := ih _ hlt (fun hopen => h (.behind hne hsize hopen)) rfl
  rw [List.append_assoc]
  by_cases hblank : 0 < blankSize (piece ++ behind)
  · have hpiece := isBlank_of_piece hblank hsize
    rw [inkPieces_blanks hpiece, inkPieces_blanks hpiece, ih]
  · have hink : blankSize (piece ++ behind) = 0 := Nat.eq_zero_of_not_pos hblank
    have hpiece := (blankSize_append hne behind).mp hink
    have hsize' := wordSize_append hrest hnil hink fun hshortcut hopens => h (.word hshortcut hopens)
    rw [hsize, List.append_assoc] at hsize'
    rw [inkPieces_of_ink hne hpiece hsize, inkPieces_of_ink hne hpiece hsize', ih,
      List.cons_append]

section Closed

variable {behind : List Char} (hrest : ∀ c ∈ rest.head?, Text.isBlank c)
  (hclose : behindClose? rest = some behind) (hbehind : ∀ c ∈ behind.head?, Text.isBlank c)
include hrest hclose hbehind

/-- A word of which a `<` is closed only behind a blank goes on to where it is closed. -/
theorem inkPieces_of_opens (hshortcut : shortcut? cs = none) (hopens : opensPlaceholder cs = true) :
    ∃ word, inkPieces wordSize (cs ++ rest) = word :: inkPieces wordSize behind := by
  obtain ⟨inner, rfl, -⟩ := exists_of_behindClose? hclose
  have hne : cs ≠ [] := by
    rintro rfl
    cases hopens
  have hink := blankSize_of_opens hopens
  have hend : inkSize behind = 0 :=
    congrArg List.length (@Text.takeWhile_append_of_head? [] behind _ fun c hc => by
      simp [hbehind c hc])
  have hword : cs ++ inner ++ ['>'] ≠ [] := by simp
  have happend : cs ++ (inner ++ '>' :: behind) = cs ++ inner ++ ['>'] ++ behind := by simp
  have hsize : wordSize (cs ++ inner ++ ['>'] ++ behind) = (cs ++ inner ++ ['>']).length := by
    rw [← happend, wordSize_eq ((blankSize_append hne _).mpr hink),
      shortcut?_append (severed_of_blank hrest) hne, hshortcut,
      behindPlaceholder?_append_of_opens hrest hclose hopens, happend, List.length_append]
    show _ - _ + inkSize behind = _
    rw [hend, Nat.add_sub_cancel]
    rfl
  rw [happend]
  refine ⟨_, inkPieces_of_ink hword ?_ hsize⟩
  rw [List.append_assoc]
  exact (blankSize_append hne _).mpr hink

/-- There are fewer words then than on both sides of the blank. -/
theorem length_inkPieces_of_leavesOpen (h : LeavesOpen cs) :
    (inkPieces wordSize (cs ++ rest)).length ≤
      (inkPieces wordSize cs).length + (inkPieces wordSize behind).length := by
  have merged {cs : List Char} (hshortcut : shortcut? cs = none)
      (hopens : opensPlaceholder cs = true) : (inkPieces wordSize (cs ++ rest)).length ≤
        (inkPieces wordSize cs).length + (inkPieces wordSize behind).length := by
    obtain ⟨word, hword⟩ := inkPieces_of_opens hrest hclose hbehind hshortcut hopens
    have hne : cs ≠ [] := by
      rintro rfl
      cases hopens
    obtain ⟨piece, behind', rfl, hpiece, hsize⟩ := exists_piece hne
    have hink := (blankSize_append hpiece _).mp (blankSize_of_opens hopens)
    rw [hword, inkPieces_of_ink hpiece hink hsize, List.length_cons, List.length_cons]
    omega
  induction h with
  | word hshortcut hopens => exact merged hshortcut hopens
  | @behind piece cs hne hsize _ ih =>
    by_cases hblank : 0 < blankSize (piece ++ cs)
    · have hpiece := isBlank_of_piece hblank hsize
      rwa [List.append_assoc, inkPieces_blanks hpiece, inkPieces_blanks hpiece]
    by_cases hopens : shortcut? (piece ++ cs) = none ∧ opensPlaceholder (piece ++ cs) = true
    · exact merged hopens.1 hopens.2
    · have hink : blankSize (piece ++ cs) = 0 := Nat.eq_zero_of_not_pos hblank
      have hpiece := (blankSize_append hne cs).mp hink
      have hsize' := wordSize_append hrest (by simp [hne]) hink
        fun hshortcut h => absurd ⟨hshortcut, h⟩ hopens
      rw [hsize, List.append_assoc] at hsize'
      rw [List.append_assoc, inkPieces_of_ink hne hpiece hsize, inkPieces_of_ink hne hpiece hsize',
        List.length_cons, List.length_cons]
      omega

end Closed

/-- Trimming a line makes no difference to its words. -/
theorem lex_eq (line : List Char) : lex line = (inkPieces wordSize (spaced line)).map .ofWord := by
  obtain ⟨before, behind, hline, hbefore, hbehind⟩ := Text.exists_trim line
  have hhead : ∀ c ∈ behind.head?, Text.isBlank c := fun c hc =>
    hbehind c (List.mem_of_head? hc)
  have hend : spaced behind = behind := by
    simpa [spaced, setApart] using spaced_blanks hbehind []
  have hnone : behindClose? behind = none := by
    cases hfound : behindClose? behind with
    | none => rfl
    | some found =>
      obtain ⟨inner, rfl, -⟩ := exists_of_behindClose? hfound
      exact absurd (hbehind '>' (List.mem_append_right _ List.mem_cons_self)) (by decide)
  have hnothing : inkPieces wordSize behind = [] := by
    simpa [inkPieces_nil] using inkPieces_blanks hbehind []
  conv_rhs => rw [hline, List.append_assoc, spaced_blanks hbefore, inkPieces_blanks hbefore,
    spaced_append (severed_of_blank hhead), hend,
    inkPieces_append_blank hhead fun _ => hnone, hnothing, List.append_nil]
  rfl

end Help

end Synopsis
