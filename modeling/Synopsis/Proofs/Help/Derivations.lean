import Mathlib.Data.List.Basic
import Synopsis.Proofs.Help.Written

/-! # The grammar of a line

A line is an alternation of sequences. The words of a sequence may be followed by ellipses,
and so may brackets, which hold an alternation again. The stack of open brackets by which
lines are read accepts exactly this grammar: each of its levels is the beginning of an
alternation.
-/

namespace Synopsis

namespace Pattern

mutual

/-- The leaves from left to right, the value of an option behind the option itself. -/
def spelling : Pattern → List Pattern
  | .option ⟨names, none, default, slot⟩ => [.option ⟨names, none, default, slot⟩]
  | .option ⟨names, some v, default, slot⟩ => .option ⟨names, none, default, slot⟩ :: spelling v
  | .group _ children _ => spellingAll children
  | .either branches => spellingAll branches
  | p => [p]

def spellingAll : List Pattern → List Pattern
  | [] => []
  | p :: ps => spelling p ++ spellingAll ps

end

theorem spellingAll_eq_flatMap (ps : List Pattern) : spellingAll ps = ps.flatMap spelling := by
  induction ps with
  | nil => rfl
  | cons p ps ih => rw [spellingAll, ih, List.flatMap_cons]

end Pattern

namespace Help

variable {c : LineContext}

/-! ## Words -/

/-- The option of a letter. -/
def letterName (letter : Char) : String := String.ofList ['-', letter]

namespace LineContext

/-- Whether the letter of a stack is an option that is known to take a value. -/
def takesValue (c : LineContext) (letter : Char) : Bool :=
  (c.registry.find? (letterName letter)).any (·.1.takesValue)

/-- A word that stands for several options. -/
def IsStack (c : LineContext) (text : String) : Prop :=
  c.standard = true ∧ text.startsWith "--" = false ∧ 2 < text.length

instance (c : LineContext) (text : String) : Decidable (c.IsStack text) :=
  inferInstanceAs (Decidable (_ ∧ _ ∧ _))

/-- What the letters of a stack stand for: flags up to the first option with a value, of
which the rest is the placeholder. -/
def stackSpelling (c : LineContext) (letters : List Char) : List Pattern :=
  (letters.takeWhile (!c.takesValue ·)).map (fun x => .optionNamed (letterName x)) ++
    match letters.dropWhile (!c.takesValue ·) with
    | [] => []
    | [x] => [.optionNamed (letterName x)]
    | x :: placeholder =>
      [.optionNamed (letterName x), .argumentNamed (String.ofList placeholder)]

end LineContext

/-- What a word stands for, without regard to the words around it. -/
def Lexeme.spelling (c : LineContext) : Lexeme → List Pattern
  | .option text =>
    if c.IsStack text then c.stackSpelling (text.toList.drop 1) else [.optionNamed text]
  | .optionWithValue name value => [.optionNamed name, .argumentNamed value]
  | .assignment name => [.optionNamed name]
  | .command text => [.commandNamed text]
  | .argument text => [.argumentNamed text]
  | .shortcut title => [.shortcut { title }]
  | .opening _ | .closing _ | .bar | .ellipsis => []

/-- What repeats is a group, and becomes one if it is none yet. -/
def grouped (kind : GroupKind) (ps : List Pattern) (repeats : Bool) : List Pattern :=
  if repeats then [.group kind ps true] else ps

/-- An option with its value. -/
def valued (name : String) (kind : GroupKind) (value : List Pattern) (repeats : Bool) : Pattern :=
  .option { names := .singleton name, value := some (.group kind value repeats) }

/-! ## Grammar -/

mutual

/-- One sequence, or several with bars between them, of which none is empty. -/
inductive Alternatives (c : LineContext) : List Lexeme → List Pattern → Prop
  | one {ls : List Lexeme} {ps : List Pattern} (h : Sequence c ls ps) : Alternatives c ls ps
  | several {ls : List Lexeme} {ps : List Pattern} (h : Branches c ls ps) (hps : 2 ≤ ps.length) :
      Alternatives c ls [.either ps]

inductive Branches (c : LineContext) : List Lexeme → List Pattern → Prop
  | one {ls : List Lexeme} {ps : List Pattern} (h : Sequence c ls ps) (hne : ls ≠ []) :
      Branches c ls [.required ps]
  | more {ls ls' : List Lexeme} {ps ps' : List Pattern} (hs : Branches c ls ps)
      (h : Sequence c ls' ps') (hne : ls' ≠ []) :
      Branches c (ls ++ .bar :: ls') (ps ++ [.required ps'])

/-- Words and brackets, each with any number of ellipses behind it. -/
inductive Sequence (c : LineContext) : List Lexeme → List Pattern → Prop
  | nil : Sequence c [] []
  | item {ls ls' : List Lexeme} {ps : List Pattern} {meaning : Bool → List Pattern}
      (hs : Sequence c ls ps) (h : Term c ls' meaning) (ellipses : Nat) :
      Sequence c (ls ++ ls' ++ .replicate ellipses .ellipsis) (ps ++ meaning (0 < ellipses))

/-- A word or a bracket, and what it stands for if it does or does not repeat. -/
inductive Term (c : LineContext) : List Lexeme → (Bool → List Pattern) → Prop
  | option (text : String) : Term c [.option text] (grouped .required (c.options text))
  | command (text : String) : Term c [.command text] (grouped .required [.commandNamed text])
  | argument (text : String) : Term c [.argument text] (grouped .required [.argumentNamed text])
  | shortcut (title : String) : Term c [.shortcut title] (grouped .optional [.shortcut { title }])
  | optionWithValue (name value : String) :
      Term c [.optionWithValue name value] fun repeats =>
        [valued name .required [.argumentNamed value] repeats]
  | group {ls : List Lexeme} {ps : List Pattern} (kind : GroupKind) (h : Alternatives c ls ps) :
      Term c (.opening kind :: ls ++ [.closing kind]) fun repeats => [.group kind ps repeats]
  | assigned {ls : List Lexeme} {ps : List Pattern} (name : String) (kind : GroupKind)
      (h : Alternatives c ls ps) :
      Term c (.assignment name :: .opening kind :: ls ++ [.closing kind]) fun repeats =>
        [valued name kind ps repeats]

end

/-! ## Stacks of options -/

namespace LineContext

theorem stackedOptions_cons (x : Char) (letters : List Char) :
    stackedOptions c.registry (x :: letters) =
      if c.takesValue x then
        [.option { names := .singleton (letterName x), value := if letters.isEmpty then none
          else some (.required [.argumentNamed (String.ofList letters)]) }]
      else .optionNamed (letterName x) :: stackedOptions c.registry letters :=
  rfl

theorem stackedOptions_ne_nil {letters : List Char} (h : letters ≠ []) :
    stackedOptions c.registry letters ≠ [] := by
  obtain ⟨x, letters, rfl⟩ := List.exists_cons_of_ne_nil h
  rw [stackedOptions_cons]
  split <;> exact List.cons_ne_nil _ _

theorem options_of_isStack {text : String} (h : c.IsStack text) :
    c.options text = stackedOptions c.registry (text.toList.drop 1) := by
  obtain ⟨hstandard, hlong, hlength⟩ := h
  rw [options, hstandard, hlong, if_neg]
  simpa using hlength

theorem options_of_not_isStack {text : String} (h : ¬ c.IsStack text) :
    c.options text = [.optionNamed text] := by
  rw [options, if_pos]
  by_contra hne
  simp only [Bool.or_eq_true, Bool.not_eq_true', decide_eq_true_eq, not_or, Bool.not_eq_false,
    Bool.not_eq_true, Nat.not_le] at hne
  exact h ⟨hne.1.1, hne.1.2, hne.2⟩

theorem options_ne_nil (text : String) : c.options text ≠ [] := by
  by_cases h : c.IsStack text
  · rw [options_of_isStack h]
    refine stackedOptions_ne_nil fun hnil => ?_
    have hlength := h.2.2
    rw [List.drop_eq_nil_iff, String.length_toList] at hnil
    omega
  · rw [options_of_not_isStack h]
    exact List.cons_ne_nil _ _

theorem spelling_stackedOptions (letters : List Char) :
    (stackedOptions c.registry letters).flatMap Pattern.spelling = c.stackSpelling letters := by
  induction letters with
  | nil => rfl
  | cons x letters ih =>
    rw [stackedOptions_cons, stackSpelling]
    by_cases hx : c.takesValue x
    · rw [if_pos hx, List.takeWhile_cons_of_neg (by simpa using hx),
        List.dropWhile_cons_of_neg (by simpa using hx)]
      cases letters <;> rfl
    · rw [if_neg hx, List.takeWhile_cons_of_pos (by simpa using hx),
        List.dropWhile_cons_of_pos (by simpa using hx), List.flatMap_cons, ih]
      rfl

theorem spelling_options (text : String) :
    (c.options text).flatMap Pattern.spelling = (Lexeme.option text).spelling c := by
  rw [Lexeme.spelling]
  split
  next h => rw [options_of_isStack h, spelling_stackedOptions]
  next h =>
    rw [options_of_not_isStack h]
    rfl

end LineContext

/-! ## What is derived -/

theorem spelling_grouped (kind : GroupKind) (ps : List Pattern) (repeats : Bool) :
    (grouped kind ps repeats).flatMap Pattern.spelling = ps.flatMap Pattern.spelling := by
  cases repeats with
  | false => rfl
  | true =>
    rw [grouped, if_pos rfl, List.flatMap_singleton, Pattern.spelling,
      Pattern.spellingAll_eq_flatMap]

theorem grouped_ne_nil {kind : GroupKind} {ps : List Pattern} (h : ps ≠ []) (repeats : Bool) :
    grouped kind ps repeats ≠ [] := by
  cases repeats with
  | false => exact h
  | true => exact List.cons_ne_nil _ _

theorem Term.ne_nil {ls : List Lexeme} {meaning : Bool → List Pattern} (h : Term c ls meaning) :
    ls ≠ [] ∧ ∀ repeats, meaning repeats ≠ [] := by
  cases h with
  | option text => exact ⟨List.cons_ne_nil _ _, grouped_ne_nil (c.options_ne_nil text)⟩
  | command | argument | shortcut =>
    exact ⟨List.cons_ne_nil _ _, grouped_ne_nil (List.cons_ne_nil _ _)⟩
  | optionWithValue | group | assigned =>
    exact ⟨List.cons_ne_nil _ _, fun _ => List.cons_ne_nil _ _⟩

/-- Only an empty sequence stands for nothing. -/
theorem Sequence.nil_iff {ls : List Lexeme} {ps : List Pattern} (h : Sequence c ls ps) :
    ls = [] ↔ ps = [] := by
  cases h with
  | nil => exact iff_of_true rfl rfl
  | item hs h ellipses =>
    obtain ⟨hls, hps⟩ := h.ne_nil
    simp [hls, hps]

mutual

theorem Alternatives.spelling_eq {ls : List Lexeme} {ps : List Pattern} :
    Alternatives c ls ps → ps.flatMap Pattern.spelling = ls.flatMap (Lexeme.spelling c)
  | .one h => h.spelling_eq
  | .several h _ => by
    rw [List.flatMap_singleton, Pattern.spelling, Pattern.spellingAll_eq_flatMap]
    exact h.spelling_eq

theorem Branches.spelling_eq {ls : List Lexeme} {ps : List Pattern} :
    Branches c ls ps → ps.flatMap Pattern.spelling = ls.flatMap (Lexeme.spelling c)
  | .one h _ => by
    rw [List.flatMap_singleton, Pattern.required, Pattern.spelling, Pattern.spellingAll_eq_flatMap]
    exact h.spelling_eq
  | .more hs h _ => by
    rw [List.flatMap_append, List.flatMap_singleton, Pattern.required, Pattern.spelling,
      Pattern.spellingAll_eq_flatMap, hs.spelling_eq, h.spelling_eq, List.flatMap_append]
    rfl

theorem Sequence.spelling_eq {ls : List Lexeme} {ps : List Pattern} :
    Sequence c ls ps → ps.flatMap Pattern.spelling = ls.flatMap (Lexeme.spelling c)
  | .nil => rfl
  | .item hs h ellipses => by
    have hellipses : (List.replicate ellipses Lexeme.ellipsis).flatMap (Lexeme.spelling c) = [] :=
      List.flatMap_eq_nil_iff.mpr fun _ hx => (List.eq_of_mem_replicate hx) ▸ rfl
    rw [List.flatMap_append, List.flatMap_append, List.flatMap_append, hs.spelling_eq,
      h.spelling_eq, hellipses, List.append_nil]

theorem Term.spelling_eq {ls : List Lexeme} {meaning : Bool → List Pattern} {repeats : Bool} :
    Term c ls meaning →
      (meaning repeats).flatMap Pattern.spelling = ls.flatMap (Lexeme.spelling c)
  | .option text => by
    rw [spelling_grouped, c.spelling_options, List.flatMap_singleton]
  | .command _ | .argument _ | .shortcut _ => by
    rw [spelling_grouped]
    rfl
  | .optionWithValue _ _ => rfl
  | .group _ h => by
    rw [List.flatMap_singleton, Pattern.spelling, Pattern.spellingAll_eq_flatMap, h.spelling_eq]
    simp [Lexeme.spelling]
  | .assigned _ _ h => by
    rw [List.flatMap_singleton, valued, Pattern.spelling, Pattern.spelling,
      Pattern.spellingAll_eq_flatMap, h.spelling_eq]
    simp [Lexeme.spelling]
    rfl

end

/-! ## What is derived is read -/

/-- The patterns of a branch. -/
def branchPatterns (es : List Element) : List Pattern := es.flatMap Element.patterns

theorem Level.patterns?_eq_some_iff {branches : List (List Element)} {es : List Element}
    {ps : List Pattern} :
    Level.patterns? ⟨branches, es⟩ = some ps ↔
      (branches = [] ∧ ps = branchPatterns es) ∨
      (branches ≠ [] ∧ (∀ es' ∈ branches ++ [es], branchPatterns es' ≠ []) ∧
        ps = [.either ((branches ++ [es]).map (.required ∘ branchPatterns))]) := by
  cases branches with
  | nil => simp [Level.patterns?, branchPatterns, @eq_comm _ ps]
  | cons branch branches =>
    obtain ⟨next, rest, hrest⟩ : ∃ next rest, branches ++ [es] = next :: rest :=
      List.exists_cons_of_ne_nil (by simp)
    have hnone : (∀ es' ∈ branch :: next :: rest, branchPatterns es' ≠ []) ↔
        ¬ ((branch :: next :: rest).map branchPatterns).any List.isEmpty = true := by
      simp [List.any_eq_true]
    rw [Level.patterns?, List.cons_append, hrest, hnone]
    change (if ((branch :: next :: rest).map branchPatterns).any List.isEmpty then none
      else some [Pattern.either (((branch :: next :: rest).map branchPatterns).map .required)]) =
        some ps ↔ _
    rw [List.map_map]
    split
    next h => simp only [h, not_true_eq_false, false_and, and_false, or_self, reduceCtorEq]
    next h =>
      simp only [h, not_false_eq_true, true_and, ne_eq, reduceCtorEq, false_and, false_or,
        Option.some.injEq, @eq_comm _ ps]

section Steps

variable (bs : List OpenBracket) (l : Level) (rest : List Lexeme)

theorem read_item {lexeme : Lexeme} {item : Item} (h : c.item? lexeme = some item) :
    c.read bs l (lexeme :: rest) = c.read bs (l.push item) rest := by
  cases lexeme with
  | opening | closing | bar | ellipsis | assignment => cases h
  | _ =>
    obtain rfl := Option.some.inj h
    cases bs <;> simp [LineContext.read, LineContext.item?]

theorem read_bar : c.read bs l (.bar :: rest) = c.read bs l.nextBranch rest := by
  cases bs <;> rfl

theorem read_ellipsis {l' : Level} (h : l.repeatLast? = some l') :
    c.read bs l (.ellipsis :: rest) = c.read bs l' rest := by
  cases bs <;> simp [LineContext.read, h]

theorem repeatLast?_append (es : List Element) (e : Element) :
    Level.repeatLast? { l with current := es ++ [e] } =
      some { l with current := es ++ [{ e with repeats := true }] } := by
  simp [Level.repeatLast?]

theorem read_ellipses (item : Item) (ellipses : Nat) :
    c.read bs (l.push item) (.replicate ellipses .ellipsis ++ rest) =
      c.read bs { l with current := l.current ++ [⟨item, 0 < ellipses⟩] } rest := by
  induction ellipses generalizing rest with
  | zero => rfl
  | succ ellipses ih =>
    rw [List.replicate_succ', List.append_assoc, ih, List.singleton_append]
    exact read_ellipsis bs _ rest (repeatLast?_append l _ _)

theorem read_bracket {inner : List Lexeme} {ps : List Pattern} {l' : Level} (b : OpenBracket)
    (hl : l'.patterns? = some ps)
    (hread : ∀ bs rest, c.read bs {} (inner ++ rest) = c.read bs l' rest) :
    c.read (b :: bs) {} (inner ++ .closing b.kind :: rest) =
      c.read bs (b.outer.push (b.item ps)) rest := by
  rw [hread]
  simp only [LineContext.read, if_true, LineContext.finish, hl]

end Steps

mutual

theorem Alternatives.read_eq {ls : List Lexeme} {ps : List Pattern} :
    Alternatives c ls ps → ∃ l : Level, l.patterns? = some ps ∧
      ∀ bs rest, c.read bs {} (ls ++ rest) = c.read bs l rest
  | .one h => by
    obtain ⟨es, rfl, hread⟩ := h.read_eq
    exact ⟨_, Level.patterns?_eq_some_iff.mpr (.inl ⟨rfl, rfl⟩), fun bs rest => hread bs {} rest⟩
  | .several h hps => by
    obtain ⟨branches, es, rfl, hne, hread⟩ := h.read_eq
    refine ⟨⟨branches, es⟩, Level.patterns?_eq_some_iff.mpr (.inr ⟨?_, hne, rfl⟩), hread⟩
    rintro rfl
    simp at hps

theorem Branches.read_eq {ls : List Lexeme} {ps : List Pattern} :
    Branches c ls ps → ∃ branches es,
      ps = (branches ++ [es]).map (Pattern.required ∘ branchPatterns) ∧
      (∀ es' ∈ branches ++ [es], branchPatterns es' ≠ []) ∧
      ∀ bs rest, c.read bs {} (ls ++ rest) = c.read bs ⟨branches, es⟩ rest
  | .one h hne => by
    have hps := mt h.nil_iff.mpr hne
    obtain ⟨es, rfl, hread⟩ := h.read_eq
    exact ⟨[], es, rfl, List.forall_mem_singleton.mpr hps, fun bs rest => hread bs {} rest⟩
  | .more hs h hne => by
    have hps := mt h.nil_iff.mpr hne
    obtain ⟨branches, es, rfl, hbranches, hreads⟩ := hs.read_eq
    obtain ⟨es', rfl, hread⟩ := h.read_eq
    refine ⟨branches ++ [es], es', ?_, ?_, fun bs rest => ?_⟩
    · rw [List.map_append, List.map_append, List.map_append]
      rfl
    · exact List.forall_mem_append.mpr ⟨hbranches, List.forall_mem_singleton.mpr hps⟩
    · rw [List.append_assoc, hreads, List.cons_append, read_bar]
      exact hread bs ⟨branches ++ [es], []⟩ rest

theorem Sequence.read_eq {ls : List Lexeme} {ps : List Pattern} :
    Sequence c ls ps → ∃ es, ps = branchPatterns es ∧
      ∀ bs l rest, c.read bs l (ls ++ rest) = c.read bs { l with current := l.current ++ es } rest
  | .nil => ⟨[], rfl, fun _ _ _ => by rw [List.append_nil]; rfl⟩
  | .item hs h ellipses => by
    obtain ⟨es, rfl, hreads⟩ := hs.read_eq
    obtain ⟨item, rfl, hread⟩ := h.read_eq
    refine ⟨es ++ [⟨item, 0 < ellipses⟩], ?_, fun bs l rest => ?_⟩
    · rw [branchPatterns, branchPatterns, List.flatMap_append, List.flatMap_singleton]
    · rw [List.append_assoc, List.append_assoc, hreads, hread, read_ellipses, List.append_assoc]

theorem Term.read_eq {ls : List Lexeme} {meaning : Bool → List Pattern} :
    Term c ls meaning → ∃ item : Item, meaning = (fun repeats => Element.patterns ⟨item, repeats⟩) ∧
      ∀ bs l rest, c.read bs l (ls ++ rest) = c.read bs (l.push item) rest
  | .option text => ⟨_, rfl, fun bs l rest => @read_item c bs l rest (.option text) _ rfl⟩
  | .command text => ⟨_, rfl, fun bs l rest => read_item bs l rest rfl⟩
  | .argument text => ⟨_, rfl, fun bs l rest => read_item bs l rest rfl⟩
  | .shortcut title => ⟨_, rfl, fun bs l rest => read_item bs l rest rfl⟩
  | .optionWithValue name value => ⟨_, rfl, fun bs l rest => read_item bs l rest rfl⟩
  | .group kind h => by
    obtain ⟨l', hl', hread⟩ := h.read_eq
    refine ⟨.group kind _, rfl, fun bs l rest => ?_⟩
    rw [List.append_assoc, List.cons_append, LineContext.read]
    exact read_bracket bs rest ⟨kind, none, l⟩ hl' hread
  | .assigned name kind h => by
    obtain ⟨l', hl', hread⟩ := h.read_eq
    refine ⟨.valued name kind _, rfl, fun bs l rest => ?_⟩
    rw [List.append_assoc, List.cons_append, List.cons_append, LineContext.read]
    exact read_bracket bs rest ⟨kind, some name, l⟩ hl' hread

end

/-! ## Whatever is read is derived -/

/-- The words from which a level was read. -/
inductive Reads (c : LineContext) : List Lexeme → Level → Prop
  | start : Reads c [] {}
  | item {ls ls' : List Lexeme} {l : Level} {item : Item} (h : Reads c ls l)
      (hi : Term c ls' fun repeats => Element.patterns ⟨item, repeats⟩) (ellipses : Nat) :
      Reads c (ls ++ ls' ++ .replicate ellipses .ellipsis)
        { l with current := l.current ++ [⟨item, 0 < ellipses⟩] }
  | bar {ls : List Lexeme} {l : Level} (h : Reads c ls l) : Reads c (ls ++ [.bar]) l.nextBranch

namespace Reads

variable {ls ls' : List Lexeme} {l l' : Level} {ps : List Pattern}

theorem push {item : Item} (h : Reads c ls l)
    (hi : Term c ls' fun repeats => Element.patterns ⟨item, repeats⟩) :
    Reads c (ls ++ ls') (l.push item) := by
  have hread := h.item hi 0
  rwa [List.replicate_zero, List.append_nil] at hread

theorem ellipsis (h : Reads c ls l) (hl : l.repeatLast? = some l') :
    Reads c (ls ++ [.ellipsis]) l' := by
  cases h with
  | start | bar => cases hl
  | item h hi ellipses =>
    rw [repeatLast?_append] at hl
    obtain rfl := Option.some.inj hl
    have hread := h.item hi (ellipses + 1)
    rwa [List.replicate_succ', ← List.append_assoc] at hread

/-- Behind the last bar stands the sequence that is being read. -/
theorem sequence (h : Reads c ls l) :
    ∃ front last, ls = front ++ last ∧ Sequence c last (branchPatterns l.current) ∧
      ((l.branches = [] ∧ front = []) ∨
        (l.branches ≠ [] ∧ ∃ front', front = front' ++ [.bar] ∧
          ((∀ es ∈ l.branches, branchPatterns es ≠ []) →
            Branches c front' (l.branches.map (.required ∘ branchPatterns))))) := by
  induction h with
  | start => exact ⟨[], [], rfl, .nil, .inl ⟨rfl, rfl⟩⟩
  | item h hi ellipses ih =>
    obtain ⟨front, last, rfl, hlast, hfront⟩ := ih
    refine ⟨front, _, by rw [List.append_assoc front last, List.append_assoc front], ?_, hfront⟩
    rw [branchPatterns, List.flatMap_append, List.flatMap_singleton]
    exact hlast.item hi ellipses
  | @bar ls l h ih =>
    obtain ⟨front, last, rfl, hlast, hfront⟩ := ih
    refine ⟨_, [], (List.append_nil _).symm, .nil, .inr ⟨by simp [Level.nextBranch], _, rfl, ?_⟩⟩
    intro hne
    obtain ⟨hne, hcurrent⟩ := List.forall_mem_append.mp hne
    have hlast' : last ≠ [] := mt hlast.nil_iff.mp (hcurrent _ (List.mem_singleton_self _))
    rw [Level.nextBranch, List.map_append]
    obtain ⟨hnil, rfl⟩ | ⟨-, front, rfl, hbranches⟩ := hfront
    · rw [hnil]
      exact .one hlast hlast'
    · rw [List.append_assoc]
      exact (hbranches hne).more hlast hlast'

theorem alternatives (h : Reads c ls l) (hl : l.patterns? = some ps) : Alternatives c ls ps := by
  obtain ⟨front, last, rfl, hlast, hfront⟩ := h.sequence
  obtain ⟨hnil, rfl⟩ | ⟨hbranches, hne, rfl⟩ := Level.patterns?_eq_some_iff.mp hl
  · obtain ⟨-, rfl⟩ | ⟨hbranches, -⟩ := hfront
    · exact .one hlast
    · exact absurd hnil hbranches
  · obtain ⟨hnil, -⟩ | ⟨-, front, rfl, hfront⟩ := hfront
    · exact absurd hnil hbranches
    · obtain ⟨hne, hcurrent⟩ := List.forall_mem_append.mp hne
      have hlast' : last ≠ [] := mt hlast.nil_iff.mp (hcurrent _ (List.mem_singleton_self _))
      rw [List.map_append, List.append_assoc]
      refine .several ((hfront hne).more hlast hlast') ?_
      have := List.length_pos_of_ne_nil hbranches
      simp only [List.length_append, List.length_map, List.length_singleton]
      omega

end Reads

/-- The words that open a bracket. -/
def OpenBracket.opener (b : OpenBracket) : List Lexeme :=
  match b.option with
  | some name => [.assignment name, .opening b.kind]
  | none => [.opening b.kind]

/-- The words from which the open brackets and the innermost level were read. -/
inductive Opens (c : LineContext) : List Lexeme → List OpenBracket → Level → Prop
  | line {ls : List Lexeme} {l : Level} (h : Reads c ls l) : Opens c ls [] l
  | bracket {ls ls' : List Lexeme} {bs : List OpenBracket} {b : OpenBracket} {l : Level}
      (hb : Opens c ls bs b.outer) (h : Reads c ls' l) : Opens c (ls ++ b.opener ++ ls') (b :: bs) l

namespace Opens

variable {ls ls' : List Lexeme} {bs : List OpenBracket} {b : OpenBracket} {l l' : Level}
  {ps : List Pattern}

theorem step (h : Opens c ls bs l) (hl : ∀ front, Reads c front l → Reads c (front ++ ls') l') :
    Opens c (ls ++ ls') bs l' := by
  cases h with
  | line h => exact .line (hl _ h)
  | bracket hb h =>
    rw [List.append_assoc]
    exact .bracket hb (hl _ h)

theorem term_item {inner : List Lexeme} (h : Alternatives c inner ps) :
    Term c (b.opener ++ inner ++ [.closing b.kind]) fun repeats =>
      Element.patterns ⟨b.item ps, repeats⟩ := by
  obtain ⟨kind, option, outer⟩ := b
  cases option with
  | none => exact .group kind h
  | some name => exact .assigned name kind h

theorem close (h : Opens c ls (b :: bs) l) (hl : l.patterns? = some ps) :
    Opens c (ls ++ [.closing b.kind]) bs (b.outer.push (b.item ps)) := by
  cases h with
  | @bracket ls ls' _ _ _ hb h =>
    have hterm := term_item (b := b) (h.alternatives hl)
    rw [List.append_assoc, List.append_assoc, ← List.append_assoc b.opener]
    exact hb.step fun _ h => h.push hterm

end Opens

theorem term_of_item? {lexeme : Lexeme} {item : Item} (h : c.item? lexeme = some item) :
    Term c [lexeme] fun repeats => Element.patterns ⟨item, repeats⟩ := by
  cases lexeme with
  | opening | closing | bar | ellipsis | assignment => cases h
  | _ =>
    obtain rfl := Option.some.inj h
    constructor

/-- Reading goes on with whatever was begun. -/
theorem alternatives_of_read {bs : List OpenBracket} {l : Level} {front ls : List Lexeme}
    {ps : List Pattern} (ho : Opens c front bs l) (h : c.read bs l ls = .ok ps) :
    Alternatives c (front ++ ls) ps := by
  fun_induction c.read bs l ls generalizing front with
  | case1 l =>
    cases ho with
    | line hread =>
      rw [List.append_nil]
      exact hread.alternatives (LineContext.patterns?_of_finish h)
  | case2 | case5 | case6 | case8 | case9 | case12 | case14 => cases h
  | case3 brackets l kind rest ih =>
    have hopen := ih (.bracket (b := ⟨kind, none, l⟩) ho .start) h
    rwa [List.append_nil, List.append_assoc] at hopen
  | case4 brackets l name kind rest ih =>
    have hopen := ih (.bracket (b := ⟨kind, some name, l⟩) ho .start) h
    rwa [List.append_nil, List.append_assoc] at hopen
  | case7 b brackets l rest children hfinish ih =>
    rw [List.append_cons]
    exact ih (ho.close (LineContext.patterns?_of_finish hfinish)) h
  | case10 brackets l rest ih =>
    rw [List.append_cons]
    exact ih (ho.step fun _ => .bar) h
  | case11 brackets l rest l' hrepeat ih =>
    rw [List.append_cons]
    exact ih (ho.step fun _ hread => hread.ellipsis hrepeat) h
  | case13 brackets l lexeme rest _ _ _ _ _ _ _ item hitem ih =>
    rw [List.append_cons]
    exact ih (ho.step fun _ hread => hread.push (term_of_item? hitem)) h

/-! ## Lines -/

theorem error_of_finish {l : Level} {e : BuildError} (h : c.finish l = .error e) :
    e = c.unexpected "|" := by
  unfold LineContext.finish at h
  split at h
  next => cases h
  next => exact (Except.error.inj h).symm

theorem error_of_read {bs : List OpenBracket} {l : Level} {ls : List Lexeme} {e : BuildError}
    (h : c.read bs l ls = .error e) : e = c.unbalanced ∨ ∃ token, e = c.unexpected token := by
  fun_induction c.read bs l ls with
  | case1 => exact .inr ⟨_, error_of_finish h⟩
  | case2 | case6 | case9 | case14 => exact .inl (Except.error.inj h).symm
  | case5 | case12 => exact .inr ⟨_, (Except.error.inj h).symm⟩
  | case8 _ _ _ _ _ hfinish =>
    obtain rfl := Except.error.inj h
    exact .inr ⟨_, error_of_finish hfinish⟩
  | case3 _ _ _ _ ih | case4 _ _ _ _ _ ih | case7 _ _ _ _ _ _ ih | case10 _ _ _ ih
  | case11 _ _ _ _ _ ih | case13 _ _ _ _ _ _ _ _ _ _ _ _ _ ih => exact ih h

theorem read_eq_ok_iff {ls : List Lexeme} {ps : List Pattern} :
    c.read [] {} ls = .ok ps ↔ Alternatives c ls ps := by
  constructor
  · exact alternatives_of_read (.line .start)
  · intro h
    obtain ⟨l, hl, hread⟩ := h.read_eq
    have hend := hread [] []
    rw [List.append_nil] at hend
    rw [hend, LineContext.read, LineContext.finish, hl]

/-- A line is accepted if its words derive from the grammar, and stands for what the
derivation says. The leaves of that are the words in order. -/
theorem parseLine_iff_derives (config : Config) (registry : Registry) (line : List Char)
    (lexemes : List Lexeme) :
    let c : LineContext :=
      ⟨String.ofList (Text.trim line), config.standardLongOptions, registry⟩
    (∀ ps, parseLine config registry line lexemes = .ok ps ↔ Alternatives c lexemes ps) ∧
    (∀ ps, parseLine config registry line lexemes = .ok ps →
      ps.flatMap Pattern.spelling = lexemes.flatMap (Lexeme.spelling c)) ∧
    ∀ e, parseLine config registry line lexemes = .error e →
      e = .unbalancedBrackets c.line ∨ ∃ token, e = .unexpectedToken token c.line := by
  refine ⟨fun _ => read_eq_ok_iff, fun _ h => ?_, fun _ => error_of_read⟩
  exact (read_eq_ok_iff.mp h).spelling_eq

/-- `(a | -v...) --to=[<x>]...` -/
theorem parseLine_either_assigned :
    let lexemes : List Lexeme :=
      [.opening .required, .command "a", .bar, .option "-v", .ellipsis, .closing .required,
        .assignment "--to", .opening .optional, .argument "<x>", .closing .optional, .ellipsis]
    let ps : List Pattern :=
      [.required [.either [.required [.commandNamed "a"],
          .required [.group .required [.optionNamed "-v"] true]]],
        valued "--to" .optional [.argumentNamed "<x>"] true]
    Alternatives ⟨"", true, {}⟩ lexemes ps ∧
      ps.flatMap Pattern.spelling =
        [.commandNamed "a", .optionNamed "-v", .optionNamed "--to", .argumentNamed "<x>"] := by
  intro lexemes ps
  have hparse : parseLine {} {} [] lexemes = .ok ps := by decide +kernel
  obtain ⟨hderives, hspelling, -⟩ := parseLine_iff_derives {} {} [] lexemes
  exact ⟨(hderives ps).mp hparse, (hspelling ps hparse).trans (by decide +kernel)⟩

end Help

end Synopsis
