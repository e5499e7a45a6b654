import Synopsis.Proofs.Help.Leaves
import Synopsis.Proofs.Matcher.Depth

/-! # Declarations mention no shortcuts

In a declaration, every bracket is a word by itself. So no word of it is a shortcut, the
values of declared options hold none, and they do not lead back to any option.
-/

namespace Synopsis

/-! ## Patterns without shortcuts -/

namespace Pattern

/-- No shortcut occurs in a pattern, its value patterns included. -/
inductive Bare : Pattern → Prop
  | option {o : OptionAtom} (h : ∀ v, o.value = some v → Bare v) : Bare (.option o)
  | command {leaf : Leaf} : Bare (.command leaf)
  | argument {leaf : Leaf} : Bare (.argument leaf)
  | group {kind : GroupKind} {children : List Pattern} {repeats : Bool}
      (h : ∀ c ∈ children, Bare c) : Bare (.group kind children repeats)
  | either {branches : List Pattern} (h : ∀ c ∈ branches, Bare c) : Bare (.either branches)

variable {p q : Pattern} {ps : List Pattern} {scope : Scope}

theorem Bare.leafwise (h : Bare p) : Leafwise Bare p := by
  induction h with
  | option h => exact List.forall_mem_singleton.mpr (.option h)
  | command | argument => exact List.forall_mem_singleton.mpr (by constructor)
  | group _ ih => exact leafwise_group.mpr ih
  | either _ ih => exact leafwise_either.mpr ih

mutual

theorem bare_of_leafwise : ∀ {p : Pattern}, Leafwise Bare p → Bare p
  | .option _, h | .command _, h | .argument _, h | .shortcut _, h => List.forall_mem_singleton.mp h
  | .group _ _ _, h => .group (bareAll_of_leafwise (leafwise_group.mp h))
  | .either _, h => .either (bareAll_of_leafwise (leafwise_either.mp h))

theorem bareAll_of_leafwise : ∀ {ps : List Pattern}, (∀ p ∈ ps, Leafwise Bare p) → ∀ p ∈ ps, Bare p
  | [], _ => nofun
  | _ :: _, h => by
    obtain ⟨hp, hps⟩ := List.forall_mem_cons.mp h
    exact List.forall_mem_cons.mpr ⟨bare_of_leafwise hp, bareAll_of_leafwise hps⟩

end

theorem Bare.simplifyWith {keep : Shortcut → Bool} (h : Bare p) (hq : p.simplifyWith keep = some q) :
    Bare q :=
  bare_of_leafwise (Merging.leafwise_simplifyWith ⟨fun _ => .argument⟩ h.leafwise hq)

/-- What lies in such a pattern has no shortcut either. -/
theorem Bare.of_reaches (h : Bare p) (hq : Reaches scope p q) : Bare q := by
  induction hq with
  | refl => exact h
  | value hv _ ih =>
    cases h with
    | option h => exact ih (h _ hv)
  | child hc _ ih =>
    cases h with
    | group h => exact ih (h _ hc)
  | branch hc _ ih =>
    cases h with
    | either h => exact ih (h _ hc)
  | entry => cases h

theorem Bare.shortcut?_eq_none (h : Bare p) : p.shortcut? = none := by
  cases h <;> rfl

mutual

theorem Bare.number (next : Nat) : ∀ {p : Pattern}, Bare p → Bare (number next p).1
  | .option ⟨_, none, _, _⟩, _ => .option nofun
  | .option ⟨_, some v, _, _⟩, .option h =>
    .option fun _ hw => Option.some.inj hw ▸ Bare.number (next + 1) (h v rfl)
  | .command _, _ => .command
  | .argument _, _ => .argument
  | .group _ _ _, .group h => .group (Bare.numberAll next h)
  | .either _, .either h => .either (Bare.numberAll next h)

theorem Bare.numberAll (next : Nat) : ∀ {ps : List Pattern}, (∀ p ∈ ps, Bare p) →
    ∀ q ∈ (numberAll next ps).1, Bare q
  | [], _ => nofun
  | _ :: _, h => by
    obtain ⟨hp, hps⟩ := List.forall_mem_cons.mp h
    exact List.forall_mem_cons.mpr ⟨Bare.number next hp, Bare.numberAll _ hps⟩

end

end Pattern

open Pattern (Bare)

/-- The values of declared options have no shortcuts. -/
def Registry.Bare (r : Registry) : Prop := ∀ e ∈ r.entries, e.Bare

theorem Registry.Bare.number {r : Registry} (h : r.Bare) (next : Nat) : (r.number next).1.Bare := by
  obtain ⟨groups⟩ := r
  change ∀ e ∈ (number.go next groups).1.flatMap (·.entries), e.Bare
  replace h : ∀ e ∈ groups.flatMap (·.entries), e.Bare := h
  induction groups generalizing next with
  | nil => exact nofun
  | cons g groups ih =>
    rw [List.flatMap_cons, List.forall_mem_append] at h
    exact List.forall_mem_append.mpr ⟨Pattern.Bare.numberAll next h.1, ih _ h.2⟩

theorem Scope.grounded_of_bare {scope : Scope} (h : scope.registry.Bare) : scope.Grounded :=
  fun e he _ hq => ((h e he).of_reaches hq).shortcut?_eq_none

/-! ## Words -/

namespace Help

variable {cs ds word : List Char} {config : Config}

/-- Every opening bracket has a blank behind it. -/
def BracketsApart : List Char → Prop
  | [] => True
  | c :: cs => (c = '[' → cs.head? = some ' ') ∧ BracketsApart cs

theorem BracketsApart.append (hc : BracketsApart cs) (hd : BracketsApart ds) :
    BracketsApart (cs ++ ds) := by
  induction cs with
  | nil => exact hd
  | cons c cs ih =>
    refine ⟨fun he => ?_, ih hc.2⟩
    change (cs ++ ds).head? = some ' '
    rw [List.head?_append, hc.1 he]
    rfl

theorem BracketsApart.of_notMem (h : '[' ∉ cs) : BracketsApart cs := by
  induction cs with
  | nil => trivial
  | cons c cs ih =>
    rw [List.mem_cons, not_or] at h
    exact ⟨fun he => absurd he.symm h.1, ih h.2⟩

theorem BracketsApart.of_suffix (h : BracketsApart cs) (hs : ds <:+ cs) : BracketsApart ds := by
  obtain ⟨pre, rfl⟩ := hs
  induction pre with
  | nil => exact h
  | cons c pre ih => exact ih h.2

theorem exists_of_mem_pieces {size : List Char → Nat} (h : word ∈ Text.pieces size cs) :
    ∃ c rest, (c :: rest) <:+ cs ∧ word = c :: rest.take (size (c :: rest) - 1) := by
  fun_induction Text.pieces size cs with
  | case1 => cases h
  | case2 c cs n ih =>
    rcases List.mem_cons.mp h with rfl | h
    · exact ⟨c, cs, List.suffix_refl _, rfl⟩
    · obtain ⟨d, rest, hs, rfl⟩ := ih h
      exact ⟨d, rest, (hs.trans (List.drop_suffix _ _)).trans (List.suffix_cons _ _), rfl⟩

theorem notMem_take_markSize {c : Char} (hc : c ≠ '[') (rest : List Char) :
    '[' ∉ c :: rest.take (markSize (c :: rest) - 1) := by
  unfold markSize
  split
  next h =>
    obtain ⟨rfl, rfl⟩ := List.cons.inj h
    simp
  next h =>
    obtain ⟨rfl, rfl⟩ := List.cons.inj h
    split <;> simpa using hc.symm
  next h => cases h

theorem bracketsApart_setApart (cs : List Char) : BracketsApart (setApart markSize cs) := by
  unfold setApart
  have hpiece : ∀ piece ∈ Text.pieces markSize cs,
      BracketsApart (if markSize piece = 0 then piece else ' ' :: piece ++ [' ']) := by
    intro piece hpiece
    obtain ⟨c, rest, -, rfl⟩ := exists_of_mem_pieces hpiece
    by_cases hc : c = '['
    · subst hc
      have hsize : markSize ('[' :: rest) = 1 := rfl
      rw [hsize]
      exact ⟨nofun, fun _ => rfl, nofun, trivial⟩
    · have hnot := notMem_take_markSize hc rest
      split
      · exact .of_notMem hnot
      · exact .of_notMem (by simpa using hnot)
  generalize Text.pieces markSize cs = pieces at hpiece
  induction pieces with
  | nil => trivial
  | cons piece pieces ih =>
    obtain ⟨hp, hps⟩ := List.forall_mem_cons.mp hpiece
    exact hp.append (ih hps)

/-- A word of a declaration that begins with a bracket is the bracket. -/
theorem eq_of_head? {declaration : List Char} (h : word ∈ declarationWords declaration)
    (hhead : word.head? = some '[') : word = ['['] := by
  obtain ⟨c, rest, hs, rfl⟩ := exists_of_mem_pieces (List.mem_of_mem_filter h)
  obtain rfl := Option.some.inj hhead
  obtain ⟨hblank, -⟩ := (bracketsApart_setApart _).of_suffix hs
  obtain ⟨rest, rfl⟩ := List.head?_eq_some_iff.mp (hblank rfl)
  rfl

theorem shortcut?_eq_none (h : word.head? ≠ some '[') : shortcut? word = none := by
  unfold shortcut?
  split
  · exact absurd rfl h
  · rfl

theorem ofAtom_ne_shortcut (word : List Char) (title : String) :
    Lexeme.ofAtom word ≠ .shortcut title := by
  have hgetD {read : Option Lexeme} {plain : Lexeme} (hread : read ≠ some (.shortcut title))
      (hplain : plain ≠ .shortcut title) : read.getD plain ≠ .shortcut title := by
    cases read with
    | none => exact hplain
    | some l => exact fun he => hread (congrArg some he)
  unfold Lexeme.ofAtom
  refine hgetD ?_ ?_
  · split
    · simp only [assignment?, Option.bind_eq_bind, ne_eq, Option.bind_eq_some_iff, not_exists, not_and]
      intro _ _ _ _
      split
      · simp
      · simp [Option.bind_eq_some_iff]
    · simp [attachment?, Option.bind_eq_some_iff]
    · simp
  · split
    · simp
    · simp
    · simp

theorem ofWord_ne_shortcut {declaration : List Char} (h : word ∈ declarationWords declaration)
    (title : String) : Lexeme.ofWord word ≠ .shortcut title := by
  by_cases hhead : word.head? = some '['
  · rw [eq_of_head? h hhead]
    exact nofun
  · unfold Lexeme.ofWord
    split
    · exact nofun
    · exact nofun
    · exact nofun
    · exact nofun
    · exact nofun
    · exact nofun
    · rw [shortcut?_eq_none hhead]
      exact ofAtom_ne_shortcut _ _

/-! ## Items -/

def Item.Bare : Item → Prop
  | .atoms ps | .group _ ps | .valued _ _ ps => ∀ p ∈ ps, p.Bare
  | .shortcut _ => False

theorem Element.bare {e : Element} (h : e.item.Bare) : ∀ p ∈ e.patterns, p.Bare := by
  obtain ⟨item, repeats⟩ := e
  cases item with
  | atoms ps =>
    cases repeats with
    | false => exact h
    | true => exact List.forall_mem_singleton.mpr (.group h)
  | shortcut s => exact h.elim
  | valued name kind value =>
    refine List.forall_mem_singleton.mpr (.option fun v hv => ?_)
    exact Option.some.inj hv ▸ .group h
  | group kind children => exact List.forall_mem_singleton.mpr (.group h)

def Level.Bare (l : Level) : Prop :=
  ∀ es ∈ l.branches ++ [l.current], ∀ e ∈ es, e.item.Bare

namespace Level.Bare

variable {l : Level} {item : Item}

theorem empty : Level.Bare {} := by
  simp [Level.Bare]

theorem push (h : l.Bare) (hi : item.Bare) : (l.push item).Bare := by
  unfold Level.Bare at h ⊢
  simp only [Level.push, List.forall_mem_append, List.forall_mem_singleton] at h ⊢
  exact ⟨h.1, h.2, hi⟩

theorem nextBranch (h : l.Bare) : l.nextBranch.Bare := by
  unfold Level.Bare at h ⊢
  simp only [Level.nextBranch, List.forall_mem_append, List.forall_mem_singleton] at h ⊢
  exact ⟨h, List.forall_mem_nil _⟩

theorem repeatLast? {l' : Level} (h : l.Bare) (hl : l.repeatLast? = some l') : l'.Bare := by
  obtain ⟨last, hlast, rfl⟩ := Option.map_eq_some_iff.mp hl
  unfold Level.Bare at h ⊢
  simp only [List.forall_mem_append, List.forall_mem_singleton] at h ⊢
  exact ⟨h.1, fun e he => h.2 e (List.dropLast_subset _ he), h.2 last (List.mem_of_getLast? hlast)⟩

theorem patterns? {ps : List Pattern} (h : l.Bare) (hp : l.patterns? = some ps) :
    ∀ p ∈ ps, p.Bare := by
  have hread : ∀ branch ∈ (l.branches ++ [l.current]).map fun es => es.flatMap Element.patterns,
      ∀ p ∈ branch, p.Bare := by
    refine List.forall_mem_map.mpr fun es hes p hp => ?_
    obtain ⟨e, he, hp⟩ := List.mem_flatMap.mp hp
    exact Element.bare (h es hes e he) p hp
  unfold Level.patterns? at hp
  dsimp only at hp
  split at hp
  next only honly =>
    obtain rfl := Option.some.inj hp
    exact hread only (honly ▸ List.mem_singleton_self only)
  next branches _ =>
    split at hp
    · cases hp
    · obtain rfl := Option.some.inj hp
      refine List.forall_mem_singleton.mpr (.either ?_)
      exact List.forall_mem_map.mpr fun branch hmem => .group (hread branch hmem)

end Level.Bare

/-! ## Lines -/

theorem bare_stackedOptions (registry : Registry) (cs : List Char) :
    ∀ p ∈ stackedOptions registry cs, p.Bare := by
  induction cs with
  | nil => exact List.forall_mem_nil _
  | cons c cs ih =>
    unfold stackedOptions
    dsimp only
    split
    · refine List.forall_mem_singleton.mpr (.option fun v hv => ?_)
      dsimp only at hv
      split at hv
      · cases hv
      · exact Option.some.inj hv ▸ .group (List.forall_mem_singleton.mpr .argument)
    · exact List.forall_mem_cons.mpr ⟨.option (by simp), ih⟩

namespace LineContext

variable {c : LineContext}

theorem bare_item? {lexeme : Lexeme} {item : Item} (hl : ∀ title, lexeme ≠ .shortcut title)
    (h : c.item? lexeme = some item) : item.Bare := by
  cases lexeme with
  | shortcut title => exact absurd rfl (hl title)
  | command =>
    obtain rfl := Option.some.inj h
    exact List.forall_mem_singleton.mpr .command
  | argument | optionWithValue =>
    obtain rfl := Option.some.inj h
    exact List.forall_mem_singleton.mpr .argument
  | option text =>
    obtain rfl := Option.some.inj h
    change ∀ p ∈ c.options text, p.Bare
    unfold options
    split
    · exact List.forall_mem_singleton.mpr (.option nofun)
    · exact bare_stackedOptions _ _
  | opening | closing | bar | ellipsis | assignment => cases h

theorem bare_finish {l : Level} {ps : List Pattern} (hl : l.Bare) (h : c.finish l = .ok ps) :
    ∀ p ∈ ps, p.Bare := by
  unfold finish at h
  split at h
  next hps =>
    obtain rfl := Except.ok.inj h
    exact hl.patterns? hps
  next => cases h

theorem bare_read {brackets : List OpenBracket} {l : Level} {lexemes : List Lexeme}
    {ps : List Pattern} (hx : ∀ x ∈ lexemes, ∀ title, x ≠ .shortcut title)
    (hb : ∀ b ∈ brackets, b.outer.Bare) (hl : l.Bare) (h : c.read brackets l lexemes = .ok ps) :
    ∀ p ∈ ps, p.Bare := by
  fun_induction c.read brackets l lexemes with
  | case1 l => exact bare_finish hl h
  | case2 | case5 | case6 | case8 | case9 | case12 | case14 => cases h
  | case3 brackets l kind rest ih =>
    exact ih (List.forall_mem_cons.mp hx).2 (List.forall_mem_cons.mpr ⟨hl, hb⟩) .empty h
  | case4 brackets l name kind rest ih =>
    refine ih (fun x hmem => hx x ?_) (List.forall_mem_cons.mpr ⟨hl, hb⟩) .empty h
    exact List.mem_cons_of_mem _ (List.mem_cons_of_mem _ hmem)
  | case7 b brackets l rest children hfinish ih =>
    obtain ⟨hbracket, hb⟩ := List.forall_mem_cons.mp hb
    refine ih (List.forall_mem_cons.mp hx).2 hb (hbracket.push ?_) h
    unfold OpenBracket.item
    split
    · exact bare_finish hl hfinish
    · exact bare_finish hl hfinish
  | case10 brackets l rest ih => exact ih (List.forall_mem_cons.mp hx).2 hb hl.nextBranch h
  | case11 brackets l rest l' hrepeat ih =>
    exact ih (List.forall_mem_cons.mp hx).2 hb (hl.repeatLast? hrepeat) h
  | case13 brackets l lexeme rest _ _ _ _ _ _ _ item hitem ih =>
    obtain ⟨hlexeme, hx⟩ := List.forall_mem_cons.mp hx
    exact ih hx hb (hl.push (bare_item? hlexeme hitem)) h

end LineContext

/-! ## Declarations -/

theorem bare_addName {d : Declared} {standard : Bool} (hd : ∀ v ∈ d.values, v.Bare) :
    ∀ v ∈ (d.addName standard word).values, v.Bare := by
  unfold Declared.addName
  refine List.forall_mem_append.mpr ⟨hd, ?_⟩
  split
  · exact List.forall_mem_nil _
  · exact List.forall_mem_singleton.mpr (.group (List.forall_mem_singleton.mpr .argument))

theorem bare_addWords {d d' : Declared} {declaration : List Char} {words : List (List Char)}
    (hd : ∀ v ∈ d.values, v.Bare) (hw : ∀ w ∈ words, ∀ title, Lexeme.ofWord w ≠ .shortcut title)
    (h : d.addWords config declaration words = .ok d') : ∀ v ∈ d'.values, v.Bare := by
  unfold Declared.addWords at h
  split at h
  · obtain rfl := Except.ok.inj h
    exact hd
  · split at h
    · obtain rfl := Except.ok.inj h
      exact hd
    · cases h
  · obtain ⟨elements, helements, h⟩ := Except.bind_eq_ok.mp h
    obtain rfl := Except.ok.inj h
    refine List.forall_mem_append.mpr ⟨hd, fun v hv => ?_⟩
    have hread := LineContext.bare_read (List.forall_mem_map.mpr hw) (List.forall_mem_nil _) .empty
      helements
    have hrequired : (Pattern.required elements).Bare := .group hread
    exact hrequired.simplifyWith (Option.mem_toList.mp hv)

theorem bare_addAll {d d' : Declared} {declaration : List Char} {between words : List (List Char)}
    (hd : ∀ v ∈ d.values, v.Bare)
    (hw : ∀ w ∈ between ++ words, ∀ title, Lexeme.ofWord w ≠ .shortcut title)
    (h : Declared.addAll config declaration d between words = .ok d') : ∀ v ∈ d'.values, v.Bare := by
  induction words generalizing d between with
  | nil => exact bare_addWords hd (by simpa using hw) h
  | cons word words ih =>
    rw [List.forall_mem_append, List.forall_mem_cons] at hw
    obtain ⟨hbetween, hword, hwords⟩ := hw
    unfold Declared.addAll at h
    split at h
    · obtain ⟨e, he, h⟩ := Except.bind_eq_ok.mp h
      exact ih (bare_addName (bare_addWords hd hbetween he)) (by simpa using hwords) h
    · refine ih hd ?_ h
      simp only [List.forall_mem_append, List.forall_mem_singleton]
      exact ⟨⟨hbetween, hword⟩, hwords⟩

theorem bare_parseDeclaration {declaration : List Char} {o : OptionAtom} {repeats : Bool}
    (h : parseDeclaration config declaration = .ok (o, repeats)) : ∀ v, o.value = some v → v.Bare := by
  unfold parseDeclaration at h
  dsimp only at h
  split at h
  · cases h
  · obtain ⟨d, hd, h⟩ := Except.bind_eq_ok.mp h
    obtain ⟨value, hvalue, h⟩ := Except.bind_eq_ok.mp h
    obtain ⟨rfl, -⟩ := Prod.mk.inj (Except.ok.inj h)
    rintro v rfl
    exact bare_addAll (List.forall_mem_nil _) (fun w hw => ofWord_ne_shortcut hw) hd v
      (mem_values_of_value? hvalue)

theorem bare_parseSections {sections : List Section} {registry : Registry}
    {texts : List SectionText} (h : parseSections config sections = .ok (registry, texts)) :
    registry.Bare := by
  refine Except.foldlM_keeps (P := fun state : Registry × List SectionText => state.1.Bare) ?_ h nofun
  intro s _ ⟨r, texts⟩ ⟨r', texts'⟩ hr h
  obtain ⟨group, hgroup, h⟩ := Except.bind_eq_ok.mp h
  obtain ⟨next, hnext, h⟩ := Except.bind_eq_ok.mp h
  obtain ⟨rfl, -⟩ := Prod.mk.inj (Except.ok.inj h)
  have hentries : ∀ e ∈ group.entries, e.Bare := by
    refine Except.foldlM_keeps (P := fun g : OptionGroup => ∀ e ∈ g.entries, e.Bare) ?_ hgroup nofun
    intro entry _ g g' hg h
    obtain ⟨⟨o, repeats⟩, ho, h⟩ := Except.bind_eq_ok.mp h
    obtain rfl := Except.ok.inj h
    exact List.forall_mem_append.mpr ⟨hg, List.forall_mem_singleton.mpr
      (.group (List.forall_mem_singleton.mpr (.option fun v hv => bare_parseDeclaration ho v hv)))⟩
  unfold Registry.pushGroup at hnext
  split at hnext
  next => cases hnext
  next =>
    obtain rfl := Except.ok.inj hnext
    change ∀ e ∈ (r.groups ++ [group]).flatMap (·.entries), e.Bare
    rw [List.flatMap_append, List.flatMap_singleton]
    exact List.forall_mem_append.mpr ⟨hr, hentries⟩

end Help

/-! ## Compiled grammars -/

namespace Grammar

variable {g : Grammar} {config : Config} {doc : String}

theorem bare_of_compile (h : compile config doc = .ok g) : g.registry.Bare := by
  unfold compile at h
  cases hu : Help.usageSection? config doc.toList with
  | none =>
    simp only [hu] at h
    cases h
  | some usage =>
    simp only [hu, Except.bind_eq_ok] at h
    obtain ⟨⟨registry, texts⟩, hsections, lines, -, usages, -, h⟩ := h
    rw [(eq_of_build h).2.2.1]
    exact (Help.bare_parseSections hsections).number 0

/-- In a compiled grammar, declared options do not lead back to shortcuts. -/
theorem grounded_of_compile (h : compile config doc = .ok g) : g.scope.Grounded :=
  Scope.grounded_of_bare (bare_of_compile h)

end Grammar

end Synopsis
