import Mathlib.Data.List.Forall2
import Mathlib.Data.List.Infix
import Synopsis.Help.Declaration
import Synopsis.Proofs.Help.Derivations
import Synopsis.Proofs.Text.Tabs

/-! # What a declaration says

Words are read alike whatever number of spaces stands for a tab between them. A
declaration is its words, but for the texts that its errors quote.
-/

namespace Synopsis

/-! ## Outcomes -/

/-- The constructor without the texts. -/
def BuildError.kind (e : BuildError) : Nat := e.ctorIdx

/-- The same result, or errors of the same kind. -/
inductive SameOutcome {α : Type} : Except BuildError α → Except BuildError α → Prop
  | ok (a : α) : SameOutcome (.ok a) (.ok a)
  | error {e e' : BuildError} (h : e.kind = e'.kind) : SameOutcome (.error e) (.error e')

namespace SameOutcome

variable {α β : Type}

theorem refl : ∀ x : Except BuildError α, SameOutcome x x
  | .ok a => .ok a
  | .error _ => .error rfl

theorem bind {x y : Except BuildError α} {f g : α → Except BuildError β} (h : SameOutcome x y)
    (hfg : ∀ a, SameOutcome (f a) (g a)) : SameOutcome (x >>= f) (y >>= g) := by
  cases h with
  | ok a => exact hfg a
  | error h => exact .error h

/-- Loops over related lists, of which one step ends alike at related elements. -/
theorem foldlM {R : β → β → Prop} {f : α → β → Except BuildError α} {bs bs' : List β}
    (h : List.Forall₂ R bs bs')
    (hf : ∀ b ∈ bs, ∀ b', R b b' → ∀ a, SameOutcome (f a b') (f a b)) (a : α) :
    SameOutcome (bs'.foldlM f a) (bs.foldlM f a) := by
  induction h generalizing a with
  | nil => exact .ok a
  | cons hb _ ih =>
    obtain ⟨hfirst, hrest⟩ := List.forall_mem_cons.mp hf
    rw [List.foldlM_cons, List.foldlM_cons]
    exact (hfirst _ hb a).bind fun a => ih hrest a

theorem eq_ok {x : Except BuildError α} {a : α} (h : SameOutcome x (.ok a)) : x = .ok a := by
  cases h
  rfl

theorem exists_error {x : Except BuildError α} {e : BuildError} (h : SameOutcome x (.error e)) :
    ∃ e', x = .error e' ∧ e'.kind = e.kind := by
  cases h with
  | error h => exact ⟨_, rfl, h⟩

end SameOutcome

namespace Help

variable {cs ds : List Char} {c : Char}

/-! ## Words -/

/-- A tab stands between a `<` and the next `>`. -/
def TabInPlaceholder (cs : List Char) : Prop :=
  ∃ inner, '\t' ∈ inner ∧ '>' ∉ inner ∧ '<' :: inner ++ ['>'] <:+: cs

theorem TabInPlaceholder.of_infix (hs : ds <:+: cs) (h : TabInPlaceholder ds) :
    TabInPlaceholder cs := by
  obtain ⟨inner, htab, hclose, hinfix⟩ := h
  exact ⟨inner, htab, hclose, hinfix.trans hs⟩

theorem TabInPlaceholder.mem (h : TabInPlaceholder cs) : '<' ∈ cs := by
  obtain ⟨inner, -, -, hinfix⟩ := h
  exact hinfix.subset List.mem_cons_self

section Filter

variable {keep : Char → Bool} (hkeep : keep '<' ∧ keep '\t' ∧ keep '>')
include hkeep

theorem TabInPlaceholder.filter (h : TabInPlaceholder cs) : TabInPlaceholder (cs.filter keep) := by
  obtain ⟨inner, htab, hclose, hinfix⟩ := h
  refine ⟨inner.filter keep, List.mem_filter.mpr ⟨htab, hkeep.2.1⟩,
    fun h => hclose (List.mem_filter.mp h).1, ?_⟩
  simpa [List.filter_append, hkeep.1, hkeep.2.2] using hinfix.filter keep

theorem TabInPlaceholder.of_filter (h : TabInPlaceholder (cs.filter keep)) :
    TabInPlaceholder cs := by
  obtain ⟨inner, htab, hclose, before, behind, happend⟩ := h
  rw [List.append_assoc, eq_comm, List.filter_eq_append_iff] at happend
  obtain ⟨front, rest, rfl, -, hrest⟩ := happend
  rw [List.append_assoc, List.cons_append, List.filter_eq_cons_iff] at hrest
  obtain ⟨skipped, rest, rfl, -, -, hrest⟩ := hrest
  rw [List.filter_eq_append_iff] at hrest
  obtain ⟨inner', rest, rfl, rfl, hrest⟩ := hrest
  rw [List.singleton_append, List.filter_eq_cons_iff] at hrest
  obtain ⟨skipped', rest, rfl, hskipped, -, -⟩ := hrest
  refine ⟨inner' ++ skipped', List.mem_append_left _ (List.mem_filter.mp htab).1, ?_,
    front ++ skipped, rest, by simp⟩
  rw [List.mem_append, not_or]
  exact ⟨fun h => hclose (List.mem_filter.mpr ⟨h, hkeep.2.2⟩), fun h => hskipped _ h hkeep.2.2⟩

end Filter

/-! ## Marks -/

/-- A mark is neither a tab nor a space, and its length does not depend on what follows. -/
theorem exists_mark (h : markSize cs ≠ 0) : ∃ mark rest, cs = mark ++ rest ∧ mark ≠ [] ∧
    '\t' ∉ mark ∧ ' ' ∉ mark ∧ ∀ rest', markSize (mark ++ rest') = mark.length := by
  unfold markSize at h
  split at h
  next rest => exact ⟨['.', '.', '.'], rest, rfl, nofun, by decide, by decide, fun _ => rfl⟩
  next c rest _ =>
    rw [ne_eq, ite_eq_right_iff, not_forall] at h
    obtain ⟨hmark, -⟩ := h
    obtain rfl | rfl | rfl | rfl | rfl : c = '|' ∨ c = '[' ∨ c = ']' ∨ c = '(' ∨ c = ')' := by
      simpa [isMarkChar] using hmark
    all_goals exact ⟨[_], rest, rfl, nofun, by decide, by decide, fun _ => rfl⟩
  next => exact absurd rfl h

theorem setApart_mark {mark : List Char} (hne : mark ≠ [])
    (h : ∀ rest, markSize (mark ++ rest) = mark.length) (rest : List Char) :
    setApart markSize (mark ++ rest) = ' ' :: mark ++ [' '] ++ setApart markSize rest := by
  have hmark : markSize mark ≠ 0 := by
    have := h []
    rw [List.append_nil] at this
    rw [this]
    exact (List.length_pos_iff.mpr hne).ne'
  rw [setApart, Text.pieces_append hne (h rest), List.flatMap_cons, if_neg hmark]
  rfl

theorem setApart_cons {size : List Char → Nat} (h : size (c :: cs) = 0) (hc : size [c] = 0) :
    setApart size (c :: cs) = c :: setApart size cs := by
  rw [setApart, Text.pieces, h]
  simp [hc, setApart]

theorem markSize_singleton (h : markSize (c :: cs) = 0) : markSize [c] = 0 := by
  by_contra hne
  obtain ⟨mark, rest, heq, hmark, -, -, hsize⟩ := exists_mark hne
  obtain ⟨rfl, rfl⟩ : mark = [c] ∧ rest = [] := by
    simpa [hmark] using List.append_eq_singleton_iff.mp heq.symm
  exact absurd ((hsize cs).symm.trans h) nofun

theorem setApart_replicate (n : Nat) (cs : List Char) :
    setApart markSize (List.replicate n ' ' ++ cs)
      = List.replicate n ' ' ++ setApart markSize cs := by
  induction n with
  | zero => rfl
  | succ n ih =>
    rw [List.replicate_succ, List.cons_append, setApart_cons rfl rfl, ih]
    rfl

theorem markSize_eq_zero (h : Text.Respaced cs ds) (hcs : markSize cs = 0) : markSize ds = 0 := by
  by_contra hne
  obtain ⟨mark, rest, rfl, hmark, -, hspace, hsize⟩ := exists_mark hne
  obtain ⟨rest', rfl, -⟩ := h.to_append hspace
  exact hmark (List.length_eq_zero_iff.mp ((hsize rest').symm.trans hcs))

theorem setApart_respaced (h : Text.Respaced cs ds) :
    Text.Respaced (setApart markSize cs) (setApart markSize ds) := by
  induction hn : cs.length using Nat.strongRecOn generalizing cs ds with
  | ind n ih =>
  subst hn
  by_cases hmark : markSize cs = 0
  · cases h with
    | nil => exact .refl _
    | tab n h =>
      rw [setApart_cons hmark rfl, setApart_replicate]
      exact .tab n (ih _ (Nat.lt_succ_self _) h rfl)
    | cons c h =>
      rw [setApart_cons hmark (markSize_singleton hmark),
        setApart_cons (markSize_eq_zero (.cons c h) hmark) (markSize_singleton hmark)]
      exact .cons c (ih _ (Nat.lt_succ_self _) h rfl)
  · obtain ⟨mark, rest, rfl, hne, htab, -, hsize⟩ := exists_mark hmark
    obtain ⟨rest', rfl, hrest⟩ := h.of_append htab
    have hlt : rest.length < (mark ++ rest).length := by
      simpa using List.length_pos_iff.mpr hne
    rw [setApart_mark hne hsize, setApart_mark hne hsize]
    exact (Text.Respaced.refl _).append (ih _ hlt hrest rfl)

theorem filter_setApart {keep : Char → Bool} (hspace : keep ' ' = false) (size : List Char → Nat)
    (cs : List Char) : (setApart size cs).filter keep = cs.filter keep := by
  conv_rhs => rw [← Text.flatten_pieces size cs, List.filter_flatten]
  rw [setApart, List.filter_flatMap, List.flatMap]
  congr 1
  refine List.map_congr_left fun piece _ => ?_
  split <;> simp [hspace]

/-! ## Placeholders -/

/-- The text behind the placeholder that a text begins with. -/
def placeholder? : List Char → Option (List Char)
  | '<' :: cs => behindClose? cs
  | _ => none

theorem behindClose?_append {inner : List Char} (h : ∀ c ∈ inner, c ≠ '>' ∧ c ≠ '\n')
    (cs : List Char) : behindClose? (inner ++ cs) = behindClose? cs := by
  induction inner with
  | nil => rfl
  | cons c inner ih =>
    obtain ⟨hc, hinner⟩ := List.forall_mem_cons.mp h
    rw [List.cons_append, behindClose?, if_neg hc.1, if_neg hc.2, ih hinner]

theorem exists_of_behindClose? {rest : List Char} (h : behindClose? cs = some rest) :
    ∃ inner, cs = inner ++ '>' :: rest ∧ ∀ c ∈ inner, c ≠ '>' ∧ c ≠ '\n' := by
  induction cs with
  | nil => cases h
  | cons c cs ih =>
    rw [behindClose?] at h
    split_ifs at h with hclose hline
    · obtain rfl := Option.some.inj h
      exact ⟨[], hclose ▸ rfl, nofun⟩
    · obtain ⟨inner, rfl, hinner⟩ := ih h
      exact ⟨c :: inner, rfl, List.forall_mem_cons.mpr ⟨⟨hclose, hline⟩, hinner⟩⟩

theorem isSome_behindClose? (h : Text.Respaced cs ds) :
    (behindClose? ds).isSome = (behindClose? cs).isSome := by
  induction h with
  | nil => rfl
  | tab n _ ih =>
    rw [behindClose?_append fun c hc => List.eq_of_mem_replicate hc ▸ by decide, ih]
    rfl
  | cons c _ ih =>
    rw [behindClose?, behindClose?]
    split_ifs
    · rfl
    · rfl
    · exact ih

theorem isSome_placeholder? (c : Char) (h : Text.Respaced cs ds) :
    (placeholder? (c :: ds)).isSome = (placeholder? (c :: cs)).isSome := by
  by_cases hc : c = '<'
  · subst hc
    exact isSome_behindClose? h
  · simp [placeholder?, hc]

theorem placeholder?_eq_none (h : Text.Respaced cs ds) (hcs : placeholder? cs = none) :
    placeholder? ds = none := by
  cases h with
  | nil => rfl
  | tab n h => rfl
  | cons c h =>
    have hsome := isSome_placeholder? c h
    rwa [hcs, Option.isSome_none, Option.isSome_eq_false_iff, Option.isNone_iff_eq_none] at hsome

theorem exists_of_placeholder? {rest : List Char} (h : placeholder? cs = some rest) :
    ∃ inner, cs = '<' :: inner ++ ['>'] ++ rest ∧ ∀ c ∈ inner, c ≠ '>' ∧ c ≠ '\n' := by
  unfold placeholder? at h
  split at h
  next cs =>
    obtain ⟨inner, rfl, hinner⟩ := exists_of_behindClose? h
    exact ⟨inner, by simp, hinner⟩
  next => cases h

/-! ## Pieces -/

theorem declarationWordSize_eq (cs : List Char) : declarationWordSize cs =
    if 0 < blankSize cs then blankSize cs
    else match placeholder? cs with
      | some rest => cs.length - rest.length
      | none => declarationWordSize.textSize placeholder? cs := rfl

/-- The words of a text, given its first piece. -/
theorem inkPieces_append {size : List Char → Nat} {piece rest : List Char} (hpiece : piece ≠ [])
    (h : size (piece ++ rest) = piece.length) : inkPieces size (piece ++ rest) =
      (if Text.isAllBlank piece then [] else [piece]) ++ inkPieces size rest := by
  rw [inkPieces, Text.pieces_append hpiece h, List.filter_cons]
  cases Text.isAllBlank piece <;> rfl

theorem blankSize_pos (h : Text.Respaced cs ds) : 0 < blankSize ds ↔ 0 < blankSize cs := by
  cases h with
  | nil => rfl
  | tab n h => exact iff_of_true (Nat.succ_pos _) (Nat.succ_pos _)
  | cons c h => by_cases hc : Text.isBlank c <;> simp [blankSize, hc]

theorem length_dropWhile_lt (h : 0 < blankSize cs) :
    (cs.dropWhile Text.isBlank).length < cs.length := by
  have hlength := congrArg List.length
    (List.takeWhile_append_dropWhile (p := Text.isBlank) (l := cs))
  rw [List.length_append] at hlength
  unfold blankSize at h
  omega

theorem textSize_pos (hne : cs ≠ []) (hblank : ¬ 0 < blankSize cs)
    (hplaceholder : placeholder? cs = none) :
    0 < declarationWordSize.textSize placeholder? cs := by
  cases cs with
  | nil => exact absurd rfl hne
  | cons c cs =>
    have hc : ¬ Text.isBlank c := fun hc => hblank (by simp [blankSize, hc])
    simp [declarationWordSize.textSize, hc, hplaceholder]

theorem inkPieces_dropWhile {size : List Char → Nat} (hsize : size cs = blankSize cs)
    (h : 0 < blankSize cs) : inkPieces size cs = inkPieces size (cs.dropWhile Text.isBlank) := by
  have happend := List.takeWhile_append_dropWhile (p := Text.isBlank) (l := cs)
  have hpieces := @inkPieces_append size (cs.takeWhile Text.isBlank)
    (cs.dropWhile Text.isBlank) (List.length_pos_iff.mp h) (by rw [happend, hsize]; rfl)
  rwa [happend, if_pos (Text.isAllBlank_takeWhile cs)] at hpieces

theorem inkPieces_placeholder {inner : List Char} (h : ∀ c ∈ inner, c ≠ '>' ∧ c ≠ '\n')
    (rest : List Char) : inkPieces declarationWordSize ('<' :: inner ++ ['>'] ++ rest) =
      ('<' :: inner ++ ['>']) :: inkPieces declarationWordSize rest := by
  rw [inkPieces_append (by simp)]
  · rfl
  · have hclose : placeholder? ('<' :: inner ++ ['>'] ++ rest) = some rest := by
      rw [List.append_assoc, List.cons_append, placeholder?, behindClose?_append h]
      rfl
    have hblank : ¬ 0 < blankSize ('<' :: inner ++ ['>'] ++ rest) := Nat.lt_irrefl 0
    rw [declarationWordSize_eq, if_neg hblank, hclose]
    dsimp only
    rw [List.length_append, Nat.add_sub_cancel]

/-- The text at the front, up to blanks or a placeholder, stays as it is. -/
theorem exists_text (h : Text.Respaced cs ds) : ∃ text rest rest', cs = text ++ rest ∧
    ds = text ++ rest' ∧ Text.Respaced rest rest' ∧
    declarationWordSize.textSize placeholder? cs = text.length ∧
    declarationWordSize.textSize placeholder? ds = text.length := by
  induction h with
  | nil => exact ⟨[], [], [], rfl, rfl, .nil, rfl, rfl⟩
  | tab n h => exact ⟨[], _, _, rfl, rfl, .tab n h, rfl, rfl⟩
  | @cons c cs ds h ih =>
    obtain ⟨text, rest, rest', hcs, hds, hrest, hsize, hsize'⟩ := ih
    rw [declarationWordSize.textSize, declarationWordSize.textSize, isSome_placeholder? c h]
    split
    · exact ⟨[], _, _, rfl, rfl, .cons c h, rfl, rfl⟩
    · exact ⟨c :: text, rest, rest', congrArg (c :: ·) hcs, congrArg (c :: ·) hds, hrest,
        congrArg (· + 1) hsize, congrArg (· + 1) hsize'⟩

/-- The first piece is blank, a placeholder, or text up to either. Only blanks differ, and
they are no words. -/
theorem inkPieces_respaced (h : Text.Respaced cs ds) (htab : ¬ TabInPlaceholder cs) :
    inkPieces declarationWordSize ds = inkPieces declarationWordSize cs := by
  induction hn : cs.length using Nat.strongRecOn generalizing cs ds with
  | ind n ih =>
  subst hn
  by_cases hblank : 0 < blankSize cs
  · have hblank' := (blankSize_pos h).mpr hblank
    rw [inkPieces_dropWhile (if_pos hblank) hblank, inkPieces_dropWhile (if_pos hblank') hblank']
    exact ih _ (length_dropWhile_lt hblank) h.dropWhile_isBlank
      (fun hrest => htab (hrest.of_infix (List.dropWhile_suffix _).isInfix)) rfl
  cases hplaceholder : placeholder? cs with
  | some rest =>
    obtain ⟨inner, rfl, hinner⟩ := exists_of_placeholder? hplaceholder
    have hpiece : '\t' ∉ '<' :: inner ++ ['>'] := fun hmem => by
      have hmem : '\t' ∈ inner := by simpa using hmem
      exact htab ⟨inner, hmem, fun h => (hinner _ h).1 rfl, (List.prefix_append _ _).isInfix⟩
    obtain ⟨rest', rfl, hrest⟩ := h.of_append hpiece
    have hlt : rest.length < ('<' :: inner ++ ['>'] ++ rest).length := by simp; omega
    rw [inkPieces_placeholder hinner, inkPieces_placeholder hinner,
      ih _ hlt hrest (fun h => htab (h.of_infix (List.suffix_append _ _).isInfix)) rfl]
  | none =>
    by_cases hnil : cs = []
    · subst hnil
      cases h
      rfl
    have hplaceholder' := placeholder?_eq_none h hplaceholder
    have hblank' : ¬ 0 < blankSize ds := fun hds => hblank ((blankSize_pos h).mp hds)
    have hpos := textSize_pos hnil hblank hplaceholder
    obtain ⟨text, rest, rest', rfl, rfl, hrest, hsize, hsize'⟩ := exists_text h
    rw [hsize] at hpos
    have htext : text ≠ [] := List.length_pos_iff.mp hpos
    have hlt : rest.length < (text ++ rest).length := by simpa using hpos
    rw [inkPieces_append htext, inkPieces_append htext,
      ih _ hlt hrest (fun h => htab (h.of_infix (List.suffix_append _ _).isInfix)) rfl]
    · rwa [declarationWordSize_eq, if_neg hblank, hplaceholder]
    · rwa [declarationWordSize_eq, if_neg hblank', hplaceholder']

/-! ## Declarations -/

/-- What decides whether a tab stands in a placeholder. -/
def tabOrAngle (c : Char) : Bool := c = '<' || c = '\t' || c = '>'

theorem declarationWords_respaced (h : Text.Respaced cs ds) (htab : ¬ TabInPlaceholder cs) :
    declarationWords ds = declarationWords cs := by
  have hspaced (cs : List Char) : (cs.map fun c => if c = ',' || c = '=' then ' ' else c).filter
      tabOrAngle = cs.filter tabOrAngle := by
    induction cs with
    | nil => rfl
    | cons c cs ih =>
      rw [List.map_cons, List.filter_cons, List.filter_cons, ih]
      by_cases hc : (c = ',' || c = '=') = true
      · have hkeep : tabOrAngle c = false := by
          rw [Bool.or_eq_true, decide_eq_true_eq, decide_eq_true_eq] at hc
          rcases hc with rfl | rfl <;> rfl
        rw [if_pos hc, hkeep]
        rfl
      · rw [if_neg hc]
  refine inkPieces_respaced (setApart_respaced (h.map rfl rfl)) fun hwords => htab ?_
  have hkeep : tabOrAngle '<' ∧ tabOrAngle '\t' ∧ tabOrAngle '>' := by decide
  have hfilter := hwords.filter hkeep
  rw [filter_setApart rfl, hspaced] at hfilter
  exact hfilter.of_filter hkeep

section Line

variable (c : LineContext) (line : String)

theorem item?_line (lexeme : Lexeme) : { c with line }.item? lexeme = c.item? lexeme := by
  cases lexeme <;> rfl

theorem finish_sameOutcome (l : Level) : SameOutcome ({ c with line }.finish l) (c.finish l) := by
  unfold LineContext.finish
  cases l.patterns? with
  | some ps => exact .ok ps
  | none => exact .error rfl

/-- Reading a line does not look at the line that its errors quote. -/
theorem read_sameOutcome (bs : List OpenBracket) (l : Level) (ls : List Lexeme) :
    SameOutcome ({ c with line }.read bs l ls) (c.read bs l ls) := by
  fun_induction c.read bs l ls with
  | case1 l => exact finish_sameOutcome c line l
  | case2 | case6 => exact .error rfl
  | case3 _ _ _ _ ih | case4 _ _ _ _ _ ih =>
    rw [LineContext.read]
    exact ih
  | case5 _ _ _ _ hopening =>
    rw [LineContext.read]
    · exact .error rfl
    · exact hopening
  | case7 b bs l rest children h ih =>
    have hfinish := (h ▸ finish_sameOutcome c line l).eq_ok
    rw [LineContext.read, if_pos rfl, hfinish]
    exact ih
  | case8 b bs l rest e h =>
    obtain ⟨e', hfinish, he⟩ := (h ▸ finish_sameOutcome c line l).exists_error
    rw [LineContext.read, if_pos rfl, hfinish]
    exact .error he
  | case9 b bs l kind rest h =>
    rw [LineContext.read, if_neg h]
    exact .error rfl
  | case10 bs l rest ih =>
    rw [read_bar]
    exact ih
  | case11 bs l rest l' h ih =>
    rw [read_ellipsis _ _ _ h]
    exact ih
  | case12 bs l rest h =>
    rw [LineContext.read, h]
    exact .error rfl
  | case13 bs l lexeme rest _ _ _ _ _ _ _ item hitem ih =>
    rw [read_item _ _ _ ((item?_line c line lexeme).trans hitem)]
    exact ih
  | case14 bs l lexeme rest _ _ _ _ _ _ _ hitem =>
    rw [LineContext.read, item?_line, hitem]
    · exact .error rfl
    all_goals assumption

end Line

theorem parseLine_sameOutcome (config : Config) (registry : Registry) (line line' : List Char)
    (ls : List Lexeme) :
    SameOutcome (parseLine config registry line ls) (parseLine config registry line' ls) :=
  read_sameOutcome ⟨String.ofList (Text.trim line'), config.standardLongOptions, registry⟩ _ _ _ _

namespace Declared

variable (config : Config) (declaration declaration' : List Char)

theorem addWords_sameOutcome (d : Declared) (words : List (List Char)) :
    SameOutcome (d.addWords config declaration words) (d.addWords config declaration' words) := by
  unfold addWords
  split
  · exact .ok _
  · split
    · exact .ok _
    · exact .error rfl
  · exact (parseLine_sameOutcome ..).bind fun _ => .ok _

theorem addAll_sameOutcome (d : Declared) (between words : List (List Char)) :
    SameOutcome (addAll config declaration d between words)
      (addAll config declaration' d between words) := by
  induction words generalizing d between with
  | nil => exact addWords_sameOutcome ..
  | cons word words ih =>
    rw [addAll, addAll]
    split
    · exact (addWords_sameOutcome ..).bind fun d => ih _ _
    · exact ih _ _

end Declared

theorem parseDeclaration_sameOutcome (config : Config) {declaration declaration' : List Char}
    (h : declarationWords declaration = declarationWords declaration') :
    SameOutcome (parseDeclaration config declaration) (parseDeclaration config declaration') := by
  unfold parseDeclaration
  rw [h]
  dsimp only
  split
  · exact .error rfl
  · exact (Declared.addAll_sameOutcome ..).bind fun d => .refl _

end Help

end Synopsis
