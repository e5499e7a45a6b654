import Mathlib.Data.Option.Basic
import Synopsis.Help.Usage
import Synopsis.Proofs.Collections
import Synopsis.Proofs.Help.Values
import Synopsis.Proofs.Matcher.Steps

/-! # Patterns as they are written

On a line, an option has one name, which begins with a hyphen. Whether a word is the name
of a command or of an argument is seen from the word, and that of an argument does not
begin with a hyphen. Every alternation has branches.
-/

namespace Synopsis.Help

/-- A name of an option begins with a hyphen. -/
def Hyphenated (name : String) : Prop := name.toList.head? = some '-'

/-- A name of an option has no `=`, behind which its value would stand. -/
structure OptionName (name : String) : Prop where
  hyphenated : Hyphenated name
  unassigned : '=' ∉ name.toList

/-- Commands and arguments have names of their class, a command only one. -/
def Classed : Pattern → Prop
  | .command leaf => ∃ name, leaf.names = .singleton name ∧ classOf name.toList = .command
  | .argument leaf => ∀ name ∈ leaf.names.toList, classOf name.toList = .argument
  | _ => True

theorem Classed.command {leaf : Leaf} {name : String} (h : Classed (.command leaf))
    (hname : name ∈ leaf.names.toList) :
    leaf.names = .singleton name ∧ classOf name.toList = .command := by
  obtain ⟨own, hnames, hclass⟩ := h
  rw [hnames, OrderedSet.toList_singleton, List.mem_singleton] at hname
  exact hname ▸ ⟨hnames, hclass⟩

/-- An option as a line has it. -/
structure IsWritten (o : OptionAtom) : Prop where
  named : ∃ name, OptionName name ∧ o.names = .singleton name
  branched : o.ValueBranched

/-- What a leaf of a line looks like before anything is known about its options. -/
def Written : Pattern → Prop
  | .option o => IsWritten o
  | q => Classed q

/-- What was read of a line. -/
def AllWritten (ps : List Pattern) : Prop := ∀ p ∈ ps, p.Branched ∧ ∀ q ∈ p.leaves, Written q

/-! ## Words -/

/-- The names in a word begin as the class of the word says. -/
def Lexeme.Proper : Lexeme → Prop
  | .option text => OptionName text
  | .optionWithValue name _ => OptionName name
  | .assignment name => OptionName name
  | .command text => classOf text.toList = .command
  | .argument text => classOf text.toList = .argument
  | _ => True

theorem head?_of_classOf_option {word : List Char} (h : classOf word = .option) :
    word.head? = some '-' := by
  unfold classOf at h
  split at h <;> try rfl
  split at h <;> split at h <;> cases h

theorem head?_of_classOf_argument {word : List Char} (h : classOf word = .argument) :
    word.head? ≠ some '-' := by
  unfold classOf at h
  split at h <;> try (first | cases h | (split at h <;> cases h))
  rename_i hshort hlong hq hstack hdash
  cases word with
  | nil => simp
  | cons c cs =>
    intro hc
    obtain rfl : c = '-' := by simpa using hc
    exact hdash _ rfl

theorem not_hyphenated_of_classOf {name : String} (h : classOf name.toList = .argument) :
    ¬ Hyphenated name :=
  head?_of_classOf_argument h

theorem not_startsWith_of_classOf {name : String} (h : classOf name.toList = .argument) :
    name.startsWith "-" = false := by
  rw [← Bool.not_eq_true, String.startsWith_string_iff]
  rintro ⟨rest, hrest⟩
  exact not_hyphenated_of_classOf h (by simp [Hyphenated, ← hrest])

theorem notMem_of_isPlainWord {word : List Char} (h : isPlainWord word = true) : '=' ∉ word := by
  have hmark : isWordChar '=' = false := by decide +kernel
  cases word with
  | nil => exact List.not_mem_nil
  | cons c cs =>
    rw [isPlainWord, Bool.and_eq_true, List.all_eq_true] at h
    intro hmem
    rcases List.mem_cons.mp hmem with rfl | hmem
    · rw [hmark] at h
      cases h.1
    · have hc := h.2 _ hmem
      rw [hmark] at hc
      cases hc

theorem notMem_of_classOf_option {word : List Char} (h : classOf word = .option) : '=' ∉ word := by
  unfold classOf at h
  split at h
  next => cases h
  next => cases h
  next => decide
  next =>
    split at h
    next hplain => simpa using notMem_of_isPlainWord hplain
    next => cases h
  next =>
    split at h
    next hplain => simpa using notMem_of_isPlainWord hplain
    next => cases h
  next => split at h <;> split at h <;> cases h

theorem optionName_of_classOf {word : List Char} (h : classOf word = .option) :
    OptionName (String.ofList word) := by
  refine ⟨?_, ?_⟩
  · rw [Hyphenated, String.toList_ofList]
    exact head?_of_classOf_option h
  · rw [String.toList_ofList]
    exact notMem_of_classOf_option h

theorem proper_of_assignment? {word : List Char} {lexeme : Lexeme}
    (h : assignment? word = some lexeme) : lexeme.Proper := by
  simp only [assignment?, Option.bind_eq_bind, Option.bind_eq_some_iff, Option.guard_eq_some'] at h
  obtain ⟨⟨name, value⟩, -, -, hname, h⟩ := h
  split at h
  · obtain rfl := Option.some.inj h
    exact optionName_of_classOf hname
  · simp only [Option.bind_eq_some_iff, Option.guard_eq_some'] at h
    obtain ⟨-, -, h⟩ := h
    obtain rfl := Option.some.inj h
    exact optionName_of_classOf hname

theorem proper_of_attachment? {word : List Char} {lexeme : Lexeme}
    (h : attachment? word = some lexeme) : lexeme.Proper := by
  simp only [attachment?, Option.bind_eq_bind, Option.bind_eq_some_iff, Option.guard_eq_some'] at h
  obtain ⟨⟨name, value⟩, -, -, hname, h⟩ := h
  obtain rfl := Option.some.inj h
  exact optionName_of_classOf hname.1

theorem proper_ofAtom (word : List Char) : (Lexeme.ofAtom word).Proper := by
  have hgetD {read : Option Lexeme} {plain : Lexeme} (hread : ∀ l ∈ read, l.Proper)
      (hplain : plain.Proper) : (read.getD plain).Proper := by
    cases read with
    | none => exact hplain
    | some l => exact hread l rfl
  unfold Lexeme.ofAtom
  refine hgetD ?_ ?_
  · intro l hl
    split at hl
    · exact proper_of_assignment? hl
    · exact proper_of_attachment? hl
    · cases hl
  · cases hc : classOf word with
    | option => exact optionName_of_classOf hc
    | command | argument => simpa only [Lexeme.Proper, String.toList_ofList] using hc

theorem proper_ofWord (word : List Char) : (Lexeme.ofWord word).Proper := by
  unfold Lexeme.ofWord
  split <;> try trivial
  split
  · trivial
  · exact proper_ofAtom word

/-! ## Items -/

def Item.AllWritten : Item → Prop
  | .atoms ps | .group _ ps => Help.AllWritten ps
  | .valued name _ value => OptionName name ∧ ∀ p ∈ value, p.Branched
  | .shortcut _ => True

variable {ps : List Pattern}

theorem AllWritten.append {qs : List Pattern} (hp : AllWritten ps) (hq : AllWritten qs) :
    AllWritten (ps ++ qs) :=
  List.forall_mem_append.mpr ⟨hp, hq⟩

theorem allWritten_group {kind : GroupKind} {repeats : Bool} (h : AllWritten ps) :
    AllWritten [.group kind ps repeats] := by
  refine List.forall_mem_singleton.mpr ⟨.group fun p hp => (h p hp).1, fun q hq => ?_⟩
  rw [Pattern.leaves, Pattern.leavesAll_eq_flatMap] at hq
  obtain ⟨p, hp, hq⟩ := List.mem_flatMap.mp hq
  exact (h p hp).2 q hq

theorem allWritten_either (hne : ps ≠ []) (h : AllWritten ps) : AllWritten [.either ps] := by
  refine List.forall_mem_singleton.mpr ⟨.either hne fun p hp => (h p hp).1, fun q hq => ?_⟩
  rw [Pattern.leaves, Pattern.leavesAll_eq_flatMap] at hq
  obtain ⟨p, hp, hq⟩ := List.mem_flatMap.mp hq
  exact (h p hp).2 q hq

theorem allWritten_option {o : OptionAtom} (h : IsWritten o) : AllWritten [.option o] :=
  List.forall_mem_singleton.mpr ⟨.option, List.forall_mem_singleton.mpr h⟩

theorem allWritten_shortcut (s : Shortcut) : AllWritten [.shortcut s] :=
  List.forall_mem_singleton.mpr ⟨.shortcut, List.forall_mem_singleton.mpr trivial⟩

theorem Element.allWritten {e : Element} (h : e.item.AllWritten) : AllWritten e.patterns := by
  obtain ⟨item, repeats⟩ := e
  cases item with
  | atoms ps =>
    cases repeats with
    | false => exact h
    | true => exact allWritten_group h
  | shortcut s =>
    cases repeats with
    | false => exact allWritten_shortcut s
    | true => exact allWritten_group (allWritten_shortcut s)
  | valued name kind value =>
    obtain ⟨hname, hvalue⟩ := h
    refine allWritten_option ⟨⟨name, hname, rfl⟩, ?_⟩
    intro v hv
    exact Option.some.inj hv ▸ .group hvalue
  | group kind children => exact allWritten_group h

def Level.AllWritten (l : Level) : Prop :=
  ∀ es ∈ l.branches ++ [l.current], ∀ e ∈ es, e.item.AllWritten

namespace Level.AllWritten

variable {l : Level} {item : Item}

theorem empty : Level.AllWritten {} := by
  simp [Level.AllWritten]

theorem push (h : l.AllWritten) (hi : item.AllWritten) : (l.push item).AllWritten := by
  unfold Level.AllWritten at h ⊢
  simp only [Level.push, List.forall_mem_append, List.forall_mem_singleton] at h ⊢
  exact ⟨h.1, h.2, hi⟩

theorem nextBranch (h : l.AllWritten) : l.nextBranch.AllWritten := by
  unfold Level.AllWritten at h ⊢
  simp only [Level.nextBranch, List.forall_mem_append, List.forall_mem_singleton] at h ⊢
  exact ⟨h, nofun⟩

theorem repeatLast? {l' : Level} (h : l.AllWritten) (hl : l.repeatLast? = some l') :
    l'.AllWritten := by
  obtain ⟨last, hlast, rfl⟩ := Option.map_eq_some_iff.mp hl
  unfold Level.AllWritten at h ⊢
  simp only [List.forall_mem_append, List.forall_mem_singleton] at h ⊢
  exact ⟨h.1, fun e he => h.2 e (List.dropLast_subset _ he), h.2 last (List.mem_of_getLast? hlast)⟩

theorem patterns? {ps : List Pattern} (h : l.AllWritten) (hp : l.patterns? = some ps) :
    Help.AllWritten ps := by
  have hbranch : ∀ es ∈ l.branches ++ [l.current], Help.AllWritten (es.flatMap Element.patterns) := by
    intro es hes p hp
    obtain ⟨e, he, hp⟩ := List.mem_flatMap.mp hp
    exact Element.allWritten (h es hes e he) p hp
  have hread : ∀ branch ∈ (l.branches ++ [l.current]).map fun es => es.flatMap Element.patterns,
      Help.AllWritten branch := List.forall_mem_map.mpr hbranch
  unfold Level.patterns? at hp
  dsimp only at hp
  split at hp
  next only honly =>
    obtain rfl := Option.some.inj hp
    exact hread only (honly ▸ List.mem_singleton_self only)
  next branches _ =>
    split at hp
    · cases hp
    · obtain rfl := Option.some.inj hp
      refine allWritten_either (by simp) (List.forall_mem_map.mpr fun branch hmem => ?_)
      exact allWritten_group (hread branch hmem) _ (List.mem_singleton_self _)

end Level.AllWritten

/-! ## Lines -/

theorem allWritten_optionNamed {name : String} (h : OptionName name) :
    AllWritten [.optionNamed name] :=
  allWritten_option ⟨⟨name, h, rfl⟩, nofun⟩

theorem allWritten_stackedOptions (registry : Registry) {cs : List Char} (h : '=' ∉ cs) :
    AllWritten (stackedOptions registry cs) := by
  induction cs with
  | nil => exact nofun
  | cons c cs ih =>
    rw [List.mem_cons, not_or] at h
    obtain ⟨hc, hcs⟩ := h
    have hname : OptionName (String.ofList ['-', c]) :=
      ⟨by simp [Hyphenated], by simpa using hc⟩
    specialize ih hcs
    unfold stackedOptions
    dsimp only
    split
    · refine allWritten_option ⟨⟨_, hname, rfl⟩, fun v hv => ?_⟩
      dsimp only at hv
      split at hv
      · cases hv
      · exact Option.some.inj hv ▸ .group (List.forall_mem_singleton.mpr .argument)
    · exact (allWritten_optionNamed hname).append ih

namespace LineContext

variable {c : LineContext}

theorem allWritten_item? {lexeme : Lexeme} {item : Item} (hl : lexeme.Proper)
    (h : c.item? lexeme = some item) : item.AllWritten := by
  cases lexeme with
  | shortcut =>
    obtain rfl := Option.some.inj h
    trivial
  | command text =>
    obtain rfl := Option.some.inj h
    exact List.forall_mem_singleton.mpr ⟨.command, List.forall_mem_singleton.mpr ⟨text, rfl, hl⟩⟩
  | argument text =>
    obtain rfl := Option.some.inj h
    exact List.forall_mem_singleton.mpr ⟨.argument, List.forall_mem_singleton.mpr
      (List.forall_mem_singleton.mpr hl)⟩
  | optionWithValue =>
    obtain rfl := Option.some.inj h
    exact ⟨hl, List.forall_mem_singleton.mpr .argument⟩
  | option text =>
    obtain rfl := Option.some.inj h
    change AllWritten (c.options text)
    unfold options
    split
    · exact allWritten_optionNamed hl
    · exact allWritten_stackedOptions _ fun hmem => hl.unassigned (List.mem_of_mem_drop hmem)
  | opening | closing | bar | ellipsis | assignment => cases h

theorem patterns?_of_finish {l : Level} {ps : List Pattern} (h : c.finish l = .ok ps) :
    l.patterns? = some ps := by
  unfold finish at h
  split at h
  next hps => rw [hps, Except.ok.inj h]
  next => cases h

theorem allWritten_finish {l : Level} {ps : List Pattern} (hl : l.AllWritten)
    (h : c.finish l = .ok ps) : AllWritten ps :=
  hl.patterns? (patterns?_of_finish h)

/-- The levels outside the open brackets, and the options that wait for their values. -/
def BracketsWritten (brackets : List OpenBracket) : Prop :=
  ∀ b ∈ brackets, b.outer.AllWritten ∧ ∀ name ∈ b.option, OptionName name

theorem allWritten_read {brackets : List OpenBracket} {l : Level} {lexemes : List Lexeme}
    {ps : List Pattern} (hx : ∀ x ∈ lexemes, x.Proper) (hb : BracketsWritten brackets)
    (hl : l.AllWritten) (h : c.read brackets l lexemes = .ok ps) : AllWritten ps := by
  fun_induction c.read brackets l lexemes with
  | case1 l => exact allWritten_finish hl h
  | case2 | case5 | case6 | case8 | case9 | case12 | case14 => cases h
  | case3 brackets l kind rest ih =>
    exact ih (List.forall_mem_cons.mp hx).2 (List.forall_mem_cons.mpr ⟨⟨hl, nofun⟩, hb⟩) .empty h
  | case4 brackets l name kind rest ih =>
    obtain ⟨hname, hx⟩ := List.forall_mem_cons.mp hx
    refine ih (List.forall_mem_cons.mp hx).2 (List.forall_mem_cons.mpr ⟨⟨hl, ?_⟩, hb⟩) .empty h
    rintro _ ⟨⟩
    exact hname
  | case7 b brackets l rest children hfinish ih =>
    obtain ⟨hbracket, hb⟩ := List.forall_mem_cons.mp hb
    refine ih (List.forall_mem_cons.mp hx).2 hb (hbracket.1.push ?_) h
    unfold OpenBracket.item
    split
    next name hoption =>
      exact ⟨hbracket.2 name hoption, fun p hp => (allWritten_finish hl hfinish p hp).1⟩
    next => exact allWritten_finish hl hfinish
  | case10 brackets l rest ih => exact ih (List.forall_mem_cons.mp hx).2 hb hl.nextBranch h
  | case11 brackets l rest l' hrepeat ih =>
    exact ih (List.forall_mem_cons.mp hx).2 hb (hl.repeatLast? hrepeat) h
  | case13 brackets l lexeme rest _ _ _ _ _ _ _ item hitem ih =>
    obtain ⟨hlexeme, hx⟩ := List.forall_mem_cons.mp hx
    exact ih hx hb (hl.push (allWritten_item? hlexeme hitem)) h

end LineContext

theorem allWritten_parseLine {config : Config} {registry : Registry} {line : List Char}
    {lexemes : List Lexeme} {ps : List Pattern} (hx : ∀ x ∈ lexemes, x.Proper)
    (h : parseLine config registry line lexemes = .ok ps) : AllWritten ps :=
  LineContext.allWritten_read hx (List.forall_mem_nil _) .empty h

theorem proper_lex (line : List Char) : ∀ x ∈ lex line, x.Proper :=
  List.forall_mem_map.mpr fun word _ => proper_ofWord word

theorem proper_usageWords {config : Config} {line : List Char} {lexemes : List Lexeme}
    (h : usageWords config line = .ok lexemes) : ∀ x ∈ lexemes, x.Proper := by
  unfold usageWords at h
  split at h
  · split at h
    · obtain rfl := Except.ok.inj h
      exact proper_lex _
    · cases h
  · obtain rfl := Except.ok.inj h
    exact fun x hx => proper_lex _ x (List.mem_of_mem_drop hx)

end Synopsis.Help
