import Synopsis.Proofs.Grammar.Arguments
import Synopsis.Proofs.Help.Words
import Synopsis.Proofs.Outcomes

/-! # Placeholders of a usage line

A placeholder between blanks is one word, whatever stands inside of it, and the text on
both sides of it is read as if it stood alone. Marks are set apart inside the placeholder too,
so it is called what was written only if there are none.
-/

namespace Synopsis.Help

variable {c : Char} {cs before gap inner behind rest : List Char}

/-- The placeholder with a text inside. -/
def placeholder (inner : List Char) : List Char := '<' :: inner ++ ['>']

/-! ## Marks inside -/

/-- Neither a bracket nor a bar nor an ellipsis occurs. -/
structure Unmarked (cs : List Char) : Prop where
  marks : ∀ c ∈ cs, isMarkChar c = false
  ellipses : ¬ ['.', '.', '.'] <:+: cs

theorem unmarked_cons : Unmarked (c :: cs) ↔
    (isMarkChar c = false ∧ ¬ (c = '.' ∧ ['.', '.'] <+: cs)) ∧ Unmarked cs := by
  have hellipses : ['.', '.', '.'] <:+: c :: cs ↔
      (c = '.' ∧ ['.', '.'] <+: cs) ∨ ['.', '.', '.'] <:+: cs := by
    rw [List.infix_cons_iff, List.cons_prefix_cons, @eq_comm _ '.' c]
  constructor
  · rintro ⟨hmarks, hnone⟩
    rw [hellipses, not_or] at hnone
    obtain ⟨hc, hcs⟩ := List.forall_mem_cons.mp hmarks
    exact ⟨⟨hc, hnone.1⟩, hcs, hnone.2⟩
  · rintro ⟨⟨hc, hdots⟩, hmarks, hnone⟩
    exact ⟨List.forall_mem_cons.mpr ⟨hc, hmarks⟩, fun h => (hellipses.mp h).elim hdots hnone⟩

theorem shortcutOrMarkSize_eq_zero_iff (c : Char) (cs : List Char) :
    shortcutOrMarkSize (c :: cs) = 0 ↔ isMarkChar c = false ∧ ¬ (c = '.' ∧ ['.', '.'] <+: cs) := by
  by_cases hbracket : c = '['
  · subst hbracket
    exact iff_of_false (shortcutOrMarkSize_bracket cs) fun h => absurd h.1 (by decide)
  · rw [shortcutOrMarkSize_of_ne hbracket, markSize_cons]
    split_ifs with hdots hmark
    · exact iff_of_false nofun fun h => h.2 hdots
    · exact iff_of_false nofun fun h => absurd hmark (by simp [h.1])
    · exact iff_of_true rfl ⟨by simpa using hmark, hdots⟩

/-- What is set apart has a space in front of it. -/
theorem head?_spaced (h : shortcutOrMarkSize (c :: cs) ≠ 0) :
    (spaced (c :: cs)).head? = some ' ' := by
  have hpiece : shortcutOrMarkSize (c :: cs.take (shortcutOrMarkSize (c :: cs) - 1)) ≠ 0 := by
    rw [ne_eq, shortcutOrMarkSize_eq_zero_iff]
    rintro ⟨hmark, hdots⟩
    rw [ne_eq, shortcutOrMarkSize_eq_zero_iff] at h
    refine h ⟨hmark, ?_⟩
    rintro ⟨rfl, rest, rfl⟩
    refine hdots ⟨rfl, ?_⟩
    rw [shortcutOrMarkSize_of_ne (by decide)]
    exact List.prefix_refl _
  rw [spaced, setApart, Text.pieces, List.flatMap_cons, if_neg hpiece]
  rfl

theorem spaced_eq_self_iff : spaced cs = cs ↔ Unmarked cs := by
  induction cs with
  | nil => exact iff_of_true spaced_nil ⟨nofun, by simp⟩
  | cons c cs ih =>
    rw [unmarked_cons, ← ih, ← shortcutOrMarkSize_eq_zero_iff]
    by_cases h : shortcutOrMarkSize (c :: cs) = 0
    · rw [spaced_cons h, List.cons.injEq]
      exact ⟨fun heq => ⟨h, heq.2⟩, fun heq => ⟨rfl, heq.2⟩⟩
    · refine iff_of_false (fun heq => ?_) fun heq => h heq.1
      have hhead := head?_spaced h
      rw [heq, List.head?_cons, Option.some.injEq] at hhead
      exact h (shortcutOrMarkSize_blank (hhead ▸ rfl))

theorem spaced_placeholder (inner : List Char) :
    spaced (placeholder inner) = placeholder (spaced inner) := by
  have hopen : shortcutOrMarkSize ('<' :: (inner ++ ['>'])) = 0 :=
    (shortcutOrMarkSize_eq_zero_iff _ _).mpr ⟨rfl, fun h => absurd h.1 (by decide)⟩
  have hclose : spaced ['>'] = ['>'] := spaced_eq_self_iff.mpr
    ⟨by simp [isMarkChar], fun h => absurd h.length_le (by simp)⟩
  rw [placeholder, List.cons_append, spaced_cons hopen, spaced_append severed_close, hclose]
  rfl

/-! ## One word -/

/-- Nothing inside begins or ends a placeholder, and all of it is on one line. -/
def IsInner (inner : List Char) : Prop := ∀ c ∈ inner, c ≠ '<' ∧ c ≠ '>' ∧ c ≠ '\n'

theorem IsInner.spaced (h : IsInner inner) : IsInner (spaced inner) := by
  intro c hc
  rcases mem_of_mem_setApart hc with hc | rfl
  · exact h c hc
  · decide

theorem classOf_placeholder (h : '\n' ∉ inner) : classOf (placeholder inner) = .argument := by
  have hplain : isPlainWord (placeholder inner) = false := by
    rw [placeholder, List.cons_append, isPlainWord, show isWordChar '<' = false by decide +kernel,
      Bool.false_and]
  have hplaceholder : isPlaceholder (placeholder inner) = true := by
    have hlast : (placeholder inner).getLast? = some '>' := List.getLast?_concat
    have hline : (placeholder inner).contains '\n' = false := by simpa [placeholder] using h
    rw [isPlaceholder, hlast, hline]
    simp [placeholder]
  show (if isPlainWord (placeholder inner) then _ else
    if isPlaceholder (placeholder inner) then _ else _) = _
  rw [hplain, hplaceholder]
  rfl

theorem ofWord_placeholder (h : '\n' ∉ inner) :
    Lexeme.ofWord (placeholder inner) = .argument (String.ofList (placeholder inner)) := by
  have hatom : Lexeme.ofWord (placeholder inner) = Lexeme.ofAtom (placeholder inner) := rfl
  rw [hatom]
  unfold Lexeme.ofAtom
  rw [classOf_placeholder h]
  rfl

theorem behindPlaceholder?_of_notMem (h : '<' ∉ cs) : behindPlaceholder? cs = none := by
  induction cs with
  | nil => rfl
  | cons c cs ih =>
    rw [List.mem_cons, not_or] at h
    rw [behindPlaceholder?, ih h.2, if_neg (Ne.symm h.1), Option.or_none, ite_self]

theorem opensPlaceholder_append_close (cs : List Char) : opensPlaceholder (cs ++ ['>']) = false := by
  induction cs with
  | nil => rfl
  | cons c cs ih =>
    rw [List.cons_append, opensPlaceholder, ih]
    simp [isUnclosed]

theorem wordSize_placeholder (h : IsInner inner) :
    wordSize (placeholder inner) = (placeholder inner).length := by
  have hopen : '<' ∉ inner ++ ['>'] := by
    simpa using fun hmem => (h '<' hmem).1 rfl
  have hclose : behindClose? (inner ++ ['>']) = some [] :=
    behindClose?_append (fun c hc => (h c hc).2) ['>']
  have hfound : behindPlaceholder? (placeholder inner) = some [] := by
    rw [placeholder, List.cons_append, behindPlaceholder?, behindPlaceholder?_of_notMem hopen, hclose]
    rfl
  rw [wordSize_eq rfl, hfound]
  rfl

theorem inkPieces_placeholder_append (h : IsInner inner)
    (hbehind : ∀ c ∈ behind.head?, Text.isBlank c) :
    inkPieces wordSize (placeholder inner ++ behind) =
      placeholder inner :: inkPieces wordSize behind := by
  have hne : placeholder inner ≠ [] := nofun
  refine inkPieces_of_ink hne rfl ?_
  rw [wordSize_append hbehind hne rfl, wordSize_placeholder h]
  intro _ hopens
  rw [placeholder, opensPlaceholder_append_close] at hopens
  cases hopens

/-! ## Placeholders between blanks -/

theorem head?_spaced_of_blank (h : ∀ c ∈ rest.head?, Text.isBlank c) :
    ∀ c ∈ (spaced rest).head?, Text.isBlank c := by
  cases rest with
  | nil =>
    rw [spaced_nil]
    exact nofun
  | cons b rest =>
    rw [spaced_cons (shortcutOrMarkSize_blank (h b rfl))]
    exact h

theorem lex_nil : lex [] = [] := by
  rw [lex_eq, spaced_nil, inkPieces_nil]
  rfl

theorem lex_append_blank (hrest : ∀ c ∈ rest.head?, Text.isBlank c)
    (h : LeavesOpen (spaced before) → behindClose? (spaced rest) = none) :
    lex (before ++ rest) = lex before ++ lex rest := by
  rw [lex_eq, lex_eq, lex_eq, spaced_append (severed_of_blank hrest),
    inkPieces_append_blank (head?_spaced_of_blank hrest) h, List.map_append]

theorem lex_blanks (h : ∀ c ∈ gap, Text.isBlank c) (cs : List Char) :
    lex (gap ++ cs) = lex cs := by
  rw [lex_eq, lex_eq, spaced_blanks h, inkPieces_blanks h]

theorem lex_placeholder_append (h : IsInner inner) (hbehind : ∀ c ∈ behind.head?, Text.isBlank c) :
    lex (placeholder inner ++ behind) =
      .argument (String.ofList (placeholder (spaced inner))) :: lex behind := by
  have hline : '\n' ∉ spaced inner := fun hmem => (h.spaced _ hmem).2.2 rfl
  rw [lex_eq, lex_eq, spaced_append (severed_of_blank hbehind), spaced_placeholder,
    inkPieces_placeholder_append h.spaced (head?_spaced_of_blank hbehind), List.map_cons,
    ofWord_placeholder hline]

theorem exists_of_opensPlaceholder (h : opensPlaceholder cs = true) :
    ∃ tail ∈ cs.tails, tail.head? = some '<' ∧ isUnclosed tail.tail = true := by
  induction cs with
  | nil => cases h
  | cons c cs ih =>
    rw [opensPlaceholder, Bool.and_eq_true, Bool.or_eq_true, Bool.and_eq_true] at h
    rw [List.tails_cons]
    rcases h.2 with ⟨hopen, hcs⟩ | h
    · exact ⟨_, List.mem_cons_self, congrArg some (of_decide_eq_true hopen), hcs⟩
    · obtain ⟨tail, htail, hopen⟩ := ih h
      exact ⟨tail, List.mem_cons_of_mem _ htail, hopen⟩

/-- What leaves a placeholder open has a `<` that is not closed. -/
theorem LeavesOpen.exists_unclosed (h : LeavesOpen cs) :
    ∃ tail ∈ cs.tails, tail.head? = some '<' ∧ isUnclosed tail.tail = true := by
  induction h with
  | word _ h => exact exists_of_opensPlaceholder h
  | behind _ _ _ ih =>
    obtain ⟨tail, htail, hopen⟩ := ih
    rw [List.mem_tails] at htail
    exact ⟨tail, (List.mem_tails _ _).mpr (htail.trans (List.suffix_append _ _)), hopen⟩

/-- A `<` in front of a gap is still open there, and the line goes on. -/
def RunsOver (before gap : List Char) : Prop := LeavesOpen (spaced before) ∧ '\n' ∉ gap

theorem ne_close_of_isBlank (h : Text.isBlank c) : c ≠ '>' := by
  rintro rfl
  exact absurd h (by decide)

theorem behindClose?_of_mem (hgap : ∀ c ∈ gap, Text.isBlank c) (h : '\n' ∈ gap) (cs : List Char) :
    behindClose? (gap ++ cs) = none := by
  induction gap with
  | nil => cases h
  | cons b gap ih =>
    obtain ⟨hb, hgap⟩ := List.forall_mem_cons.mp hgap
    rw [List.cons_append, behindClose?, if_neg (ne_close_of_isBlank hb)]
    split_ifs with hline
    · rfl
    · exact ih hgap ((List.mem_cons.mp h).resolve_left (Ne.symm hline))

theorem LeavesOpen.ne_nil (h : LeavesOpen cs) : cs ≠ [] := by
  cases h with
  | word _ h =>
    rintro rfl
    cases h
  | behind hne => simp [hne]

section Between

variable (hgap : ∀ c ∈ gap, Text.isBlank c) (hinner : IsInner inner)
include hgap hinner

theorem behindClose?_gap (h : '\n' ∉ gap) (behind : List Char) :
    behindClose? (gap ++ (placeholder inner ++ behind)) = some behind := by
  have hopen : ∀ c ∈ gap ++ '<' :: inner, c ≠ '>' ∧ c ≠ '\n' := by
    refine List.forall_mem_append.mpr ⟨fun c hc => ⟨ne_close_of_isBlank (hgap c hc), ?_⟩, ?_⟩
    · rintro rfl
      exact h hc
    · exact List.forall_mem_cons.mpr ⟨by decide, fun c hc => (hinner c hc).2⟩
  have hline : gap ++ (placeholder inner ++ behind) = (gap ++ '<' :: inner) ++ '>' :: behind := by
    simp [placeholder]
  rw [hline, behindClose?_append hopen]
  rfl

variable (hbehind : ∀ c ∈ behind.head?, Text.isBlank c)
include hbehind

theorem lex_of_not_runsOver (hbefore : before = [] ∨ gap ≠ []) (h : ¬ RunsOver before gap) :
    lex (before ++ gap ++ placeholder inner ++ behind) =
      lex before ++ .argument (String.ofList (placeholder (spaced inner))) :: lex behind := by
  have hrest : lex (gap ++ (placeholder inner ++ behind)) =
      .argument (String.ofList (placeholder (spaced inner))) :: lex behind := by
    rw [lex_blanks hgap, lex_placeholder_append hinner hbehind]
  rw [List.append_assoc, List.append_assoc]
  rcases hbefore with rfl | hne
  · rw [List.nil_append, hrest, lex_nil]
    rfl
  · obtain ⟨b, gap', rfl⟩ := List.exists_cons_of_ne_nil hne
    have hhead : ∀ c ∈ (b :: gap' ++ (placeholder inner ++ behind)).head?, Text.isBlank c := by
      rintro _ ⟨⟩
      exact hgap b List.mem_cons_self
    rw [lex_append_blank hhead, hrest]
    intro hopen
    rw [spaced_blanks hgap]
    exact behindClose?_of_mem hgap (by_contra fun hline => h ⟨hopen, hline⟩) _

/-- The placeholder is no lexeme of its own if a `<` in front of it is still open. -/
theorem length_lex_of_runsOver (hbefore : before = [] ∨ gap ≠ []) (h : RunsOver before gap) :
    (lex (before ++ gap ++ placeholder inner ++ behind)).length ≤
      (lex before).length + (lex behind).length := by
  obtain ⟨hopen, hline⟩ := h
  have hne : gap ≠ [] := by
    refine hbefore.resolve_left ?_
    rintro rfl
    exact hopen.ne_nil spaced_nil
  obtain ⟨b, gap', rfl⟩ := List.exists_cons_of_ne_nil hne
  have hb : Text.isBlank b = true := hgap b List.mem_cons_self
  have hspaced : spaced (before ++ b :: gap' ++ placeholder inner ++ behind) =
      spaced before ++ (b :: gap' ++ (placeholder (spaced inner) ++ spaced behind)) := by
    rw [List.append_assoc, List.append_assoc, spaced_append (severed_of_blank ?_),
      spaced_blanks hgap, spaced_append (severed_of_blank hbehind), spaced_placeholder]
    rintro _ ⟨⟩
    exact hb
  have hhead : ∀ c ∈ (b :: gap' ++ (placeholder (spaced inner) ++ spaced behind)).head?,
      Text.isBlank c := by
    rintro _ ⟨⟩
    exact hb
  rw [lex_eq, lex_eq, lex_eq, List.length_map, List.length_map, List.length_map, hspaced]
  exact length_inkPieces_of_leavesOpen hhead (behindClose?_gap hgap hinner.spaced hline _)
    (head?_spaced_of_blank hbehind) hopen

end Between

/-- Unless a `<` in front of it is still open, a placeholder between blanks is one argument,
and what stands on both sides of it is read as if it stood alone. It is called what was
written if there are no marks inside, and then every result has it under this name. -/
theorem lex_placeholder (hgap : ∀ c ∈ gap, Text.isBlank c) (hbefore : before = [] ∨ gap ≠ [])
    (hinner : IsInner inner) (hbehind : ∀ c ∈ behind.head?, Text.isBlank c) :
    let line := before ++ gap ++ placeholder inner ++ behind
    let name (inner : List Char) : String := String.ofList (placeholder inner)
    (¬ RunsOver before gap →
      lex line = lex before ++ .argument (name (spaced inner)) :: lex behind) ∧
    (lex line = lex before ++ .argument (name inner) :: lex behind ↔
      ¬ RunsOver before gap ∧ Unmarked inner) ∧
    (¬ RunsOver before gap → Unmarked inner → ∀ config doc g, Grammar.compile config doc = .ok g →
      ∃ lines, readUsages config doc = .ok lines ∧
        ∀ l ∈ lines, ∀ n ≤ (lex before).length, l.words = (lex line).drop n →
          .argumentNamed (name inner) ∈ l.written.flatMap Pattern.spelling ∧
          (l.completed.NamesArgument (name inner) →
            ∀ raw m, g.matchArgs raw = .ok m → name inner ∈ m.keys)) := by
  intro line name
  have hwhole : ¬ RunsOver before gap →
      lex line = lex before ++ .argument (name (spaced inner)) :: lex behind :=
    lex_of_not_runsOver hgap hinner hbehind hbefore
  have hverbatim : lex line = lex before ++ .argument (name inner) :: lex behind ↔
      ¬ RunsOver before gap ∧ Unmarked inner := by
    constructor
    · intro h
      have hopen : ¬ RunsOver before gap := by
        intro hopen
        have hlength := length_lex_of_runsOver hgap hinner hbehind hbefore hopen
        rw [h, List.length_append, List.length_cons] at hlength
        omega
      rw [hwhole hopen, List.append_cancel_left_eq, List.cons.injEq, Lexeme.argument.injEq,
        String.ofList_inj] at h
      refine ⟨hopen, spaced_eq_self_iff.mp ?_⟩
      simpa [placeholder] using h.1
    · rintro ⟨hopen, hmarks⟩
      rw [hwhole hopen, spaced_eq_self_iff.mpr hmarks]
  refine ⟨hwhole, hverbatim, ?_⟩
  intro hopen hmarks config doc g hg
  obtain ⟨lines, hlines, hkeys⟩ := Grammar.mem_keys_of_namesArgument hg
  refine ⟨lines, hlines, fun l hl n hn hwords => ⟨?_, hkeys l hl _⟩⟩
  refine argumentNamed_mem_written hlines hl ?_
  rw [hwords, hverbatim.mpr ⟨hopen, hmarks⟩, List.drop_append_of_le_length hn]
  exact List.mem_append_right _ List.mem_cons_self

/-- `<in file>` is closed, and the blank in `<out file>` is a part of its name. -/
theorem placeholder_with_blank :
    lex ("prog -o<in file>".toList ++ [' '] ++ placeholder "out file".toList ++ " [-v]".toList) =
      [.command "prog", .optionWithValue "-o" "<in file>"] ++
        .argument "<out file>" :: lex " [-v]".toList ∧
    ∃ g m, Grammar.compile {} "Usage: prog -o<in file> <out file> [-v]" = .ok g ∧
      g.matchArgs ["-o", "a", "b"] = .ok m ∧ "<out file>" ∈ m.keys := by
  have hopen : ¬ RunsOver "prog -o<in file>".toList [' '] := fun h =>
    absurd h.1.exists_unclosed (by decide +kernel)
  have hmarks : Unmarked "out file".toList := by
    rw [← spaced_eq_self_iff]
    decide +kernel
  have hgap : ∀ c ∈ [' '], Text.isBlank c := List.forall_mem_singleton.mpr rfl
  have hbehind : ∀ c ∈ " [-v]".toList.head?, Text.isBlank c := by simp [Text.isBlank]
  have hinner : IsInner "out file".toList := by simp [IsInner]
  have hbetween : "prog -o<in file>".toList = [] ∨ [' '] ≠ [] := .inr (List.cons_ne_nil _ _)
  obtain ⟨-, hverbatim, hkey⟩ := lex_placeholder hgap hbetween hinner hbehind
  have hbefore : lex "prog -o<in file>".toList =
    [.command "prog", .optionWithValue "-o" "<in file>"] := by decide +kernel
  refine ⟨hbefore ▸ hverbatim.mpr ⟨hopen, hmarks⟩, ?_⟩
  obtain ⟨g, hg, m, hm, -⟩ : ∃ g,
      Grammar.compile {} "Usage: prog -o<in file> <out file> [-v]" = .ok g ∧
      ∃ m, g.matchArgs ["-o", "a", "b"] = .ok m ∧ True := by decide +kernel
  obtain ⟨lines, hlines, l, hl, hwords, hargument⟩ : ∃ lines,
      readUsages {} "Usage: prog -o<in file> <out file> [-v]" = .ok lines ∧
      ∃ l ∈ lines, l.words = (lex ("prog -o<in file>".toList ++ [' '] ++
        placeholder "out file".toList ++ " [-v]".toList)).drop 1 ∧
      .argumentNamed "<out file>" ∈ l.completed.leaves := by decide +kernel
  obtain ⟨lines', hlines', hkeys⟩ := hkey hopen hmarks {} _ g hg
  obtain rfl := Except.ok.inj (hlines.symm.trans hlines')
  have hn : 1 ≤ (lex "prog -o<in file>".toList).length := by
    rw [hbefore]
    decide
  exact ⟨g, m, hg, hm, (hkeys l hl 1 hn hwords).2 ⟨_, hargument, List.mem_singleton_self _⟩ _ m hm⟩

/-- The bar is set apart inside of `<a|b>`, too, so that no result has the placeholder as it
was written. In `a<b <x>`, the first `<` is still open at the blank. -/
theorem bar_in_placeholder_is_set_apart :
    lex "prog <a|b>".toList = lex "prog".toList ++ [.argument "<a | b>"] ∧
    lex "prog <a|b>".toList ≠ lex "prog".toList ++ [.argument "<a|b>"] ∧
    (∃ g, Grammar.compile {} "Usage: prog <a|b>" = .ok g ∧ ∃ m, g.matchArgs ["1"] = .ok m ∧
      m.find? "<a|b>" = none ∧ m.find? "<a | b>" = some (.str "1")) ∧
    lex "prog a<b <x>".toList = [.command "prog", .command "a<b <x>"] := by
  decide +kernel

end Synopsis.Help
