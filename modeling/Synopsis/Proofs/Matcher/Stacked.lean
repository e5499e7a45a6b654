import Synopsis.Proofs.Argv.Spelling
import Synopsis.Proofs.Matcher.ParallelPatterns
import Synopsis.Proofs.Matcher.Replaced

/-! # Stacks of flags

A stack of flags against the same flags one by one. Only the first flag of a stack can be
found. So an option takes the same from both if it is named by the first flag, too, where
another one names it.
-/

namespace Synopsis

open Pattern (Reaches Visits)

/-- Short options in one token. -/
def stackOf (cs : List Char) : Token := ⟨String.ofList ('-' :: cs), .flag⟩

/-- What is left of a stack. -/
def stacked : List Char → List Token
  | [] => []
  | c :: cs => [stackOf (c :: cs)]

/-- Short options in a token each. -/
def unstacked (cs : List Char) : List Token := cs.map fun c => stackOf [c]

/-- What is left of a stack, against the same flags one by one. -/
inductive StackedPart (cs : List Char) : List Token → List Token → Prop
  | intro {d : Char} {ds : List Char} (h : d :: ds <:+ cs) :
      StackedPart cs (stacked (d :: ds)) (unstacked (d :: ds))

/-- Where a flag of a stack names the option, so do all flags in front of it, and they take no value. -/
def OptionOf.Leads (o : OptionAtom) (cs : List Char) : Prop :=
  ∀ before c after, cs = before ++ c :: after → o.names.contains (stackOf [c]).text = true →
    o.value = none ∧ ∀ d ∈ before, o.names.contains (stackOf [d]).text = true

variable {σ : OptionStyle} {o : OptionAtom} {cs ds : List Char} {c d : Char} {names : Names}
  {a b : Argv} {s : Attempt} {xs ys : List Token} {value value' : Pattern → MatchM Bool}
  {scope : Scope} {p : Pattern} {n n' : Nat}

theorem toList_stackOf (cs : List Char) : (stackOf cs).text.toList = '-' :: cs :=
  String.toList_ofList

theorem OptionOf.Leads.head (h : o.Leads cs) (hs : d :: ds <:+ cs) (hc : c ∈ d :: ds)
    (hn : o.names.contains (stackOf [c]).text = true) :
    o.value = none ∧ o.names.contains (stackOf [d]).text = true := by
  obtain ⟨before, rfl⟩ := hs
  obtain ⟨front, rest, hparts⟩ := List.append_of_mem hc
  obtain ⟨hvalue, hbefore⟩ := h (before ++ front) c rest (by rw [hparts, List.append_assoc]) hn
  refine ⟨hvalue, ?_⟩
  cases front with
  | nil =>
    obtain ⟨rfl, -⟩ := List.cons.inj hparts
    exact hn
  | cons e front =>
    obtain ⟨rfl, -⟩ := List.cons.inj hparts
    exact hbefore d (by simp)

/-! ## Searches -/

theorem isOption_stackOf (hd : d ≠ '-') : (stackOf (d :: ds)).IsOption :=
  ⟨rfl, Argv.looksLikeOption_of_short (toList_stackOf _) hd⟩

theorem flagsFirst_stackedPart (hcs : '-' ∉ cs) : FlagsFirst (StackedPart cs) := by
  rintro _ _ ⟨h⟩
  have hd := ne_of_mem_of_not_mem (h.subset List.mem_cons_self) hcs
  exact ⟨_, _, _, _, rfl, rfl, isOption_stackOf hd, isOption_stackOf hd⟩

namespace Argv

theorem spelledBy?_stackOf (hs : σ.standard = true) (hd : d ≠ '-') : spelledBy? σ names (stackOf (d :: ds)).text =
    if names.contains (stackOf [d]).text then
      some ((stackOf [d]).text, if ds = [] then none else some (String.ofList ds)) else none :=
  spelledBy?_of_short (toList_stackOf _) (readsWhole_eq_false (toList_stackOf _) hs hd) names

theorem findOption?_stackOf (hs : a.style.standard = true) (hd : d ≠ '-') (i : Nat) (ts : List Token) :
    a.findOption? names i (stackOf (d :: ds) :: ts) = if names.contains (stackOf [d]).text then
      some ⟨(stackOf [d]).text, if ds = [] then none else some (String.ofList ds), i⟩
    else a.findOption? names (i + 1) ts := by
  have hkind : (stackOf (d :: ds)).kind = .flag := rfl
  simp only [findOption?, Token.isDoubleDash, hkind, spelledBy?_stackOf hs hd]
  cases names.contains (stackOf [d]).text <;> simp

theorem findOption?_unstacked (hs : a.style.standard = true) (hcs : '-' ∉ cs)
    (hn : ∀ c ∈ cs, names.contains (stackOf [c]).text = false) (i : Nat) :
    a.findOption? names i (unstacked cs) = none := by
  induction cs generalizing i with
  | nil => rfl
  | cons c cs ih =>
    obtain ⟨hc, hn⟩ := List.forall_mem_cons.mp hn
    rw [List.mem_cons, not_or] at hcs
    rw [unstacked, List.map_cons, findOption?_stackOf hs (Ne.symm hcs.1), hc]
    exact ih hcs.2 hn (i + 1)

end Argv

namespace OptionOf

/-- The first flag of a stack is taken off. -/
theorem run_stack (hvalue : o.value = none) (hs : s.argv.style.standard = true)
    (hcombined : s.argv.style.combined = true) (hd : d ≠ '-')
    (hname : o.names.contains (stackOf [d]).text = true) (hmet : (s.slots.get o.slot).isTruthy = false)
    (ht : s.argv.tokens = xs ++ (stacked (d :: ds) ++ ys)) (hxs : ∀ x ∈ xs, x.isDoubleDash = false)
    (hf : s.argv.findOption? o.names 0 xs = none) :
    o.run value false s = .ok true ⟨s.slots.modify o.slot (Slot.hit false),
      { s.argv with tokens := xs ++ (stacked ds ++ ys) }⟩ := by
  have hremove : (s.argv.remove xs.length).tokens = xs ++ ys := remove_tokens ht
  have hfound : s.argv.takeOption? o.names = some (⟨(stackOf [d]).text,
      if ds = [] then none else some (String.ofList ds), xs.length⟩, s.argv.remove xs.length) := by
    rw [Argv.takeOption?, ht, Argv.findOption?_append hxs, hf, Option.none_or, Nat.zero_add, stacked,
      List.singleton_append, Argv.findOption?_stackOf hs hd, if_pos hname]
    rfl
  have hshort : (s.argv.style.standard && !(stackOf [d]).text.startsWith "--") = true := by
    rw [hs, Argv.startsWith_dashes_eq_false (toList_stackOf _) hd]
    rfl
  simp only [run, MatchM.slots_bind, hmet, Bool.and_false, Bool.false_eq_true, if_false, MatchM.argv_bind,
    hfound, MatchM.setArgv_bind, MatchM.modifySlot_bind, takeFound, hvalue]
  cases ds with
  | nil =>
    have hargv : s.argv.remove xs.length = { s.argv with tokens := xs ++ ys } :=
      congrArg (fun ts => { s.argv with tokens := ts }) hremove
    simp only [if_true, hargv]
    rfl
  | cons e ds =>
    have hargv : (s.argv.remove xs.length).insert xs.length (stackOf (e :: ds)) =
        { s.argv with tokens := xs ++ stackOf (e :: ds) :: ys } :=
      congrArg (fun ts => { s.argv with tokens := ts }) (insert_tokens hremove _)
    have hstyle : (s.argv.remove xs.length).style = s.argv.style := rfl
    simp only [reduceCtorEq, if_false, hstyle, hshort, hcombined, Bool.and_self, if_true, restOfStack_ofList]
    exact congrArg (fun a => EStateM.Result.ok true (Attempt.mk (s.slots.modify o.slot (Slot.hit false)) a)) hargv

/-- An option takes the same flag from both. -/
theorem stack_parallel (hs : σ.standard = true) (hcombined : σ.combined = true) (hcs : '-' ∉ cs)
    (ho : o.Leads cs) (hv : ∀ E, E = Replaced (StackedPart cs) ∨ E = Eq → ∀ w, o.value = some w →
      Parallel σ E (fun _ => True) (value w) (value' w)) :
    Parallel σ (Replaced (StackedPart cs)) (fun _ => True) (o.run value false) (o.run value' false) := by
  intro s t h
  have hfirst := flagsFirst_stackedPart hcs
  have hsearches (hsearch : Searches (Replaced (StackedPart cs)) o.names s.argv t.argv) :=
    run_of_searches h hsearch (fun E hsort _ => hv E hsort) (fun _ h => h) fun _ _ => trivial
  have hstyle := h.argv.style_eq
  rcases h.argv.searches_or_part hfirst o.names with hsearch | ⟨xs, us, us', ys, hpart, hxs, ha, hb, hf⟩
  · exact hsearches hsearch
  obtain @⟨d, ds, hds⟩ := hpart
  have hdash : '-' ∉ d :: ds := fun hmem => hcs (hds.subset hmem)
  have hne : d ≠ '-' := ne_of_mem_of_not_mem List.mem_cons_self hdash
  cases hd : o.names.contains (stackOf [d]).text with
  | false =>
    -- Then no flag of the stack names the option.
    have hnone : ∀ c ∈ d :: ds, o.names.contains (stackOf [c]).text = false := by
      intro c hc
      rw [Bool.eq_false_iff]
      intro hn
      rw [(ho.head hds hc hn).2] at hd
      cases hd
    have hstack : s.argv.findOption? o.names 0 (stacked (d :: ds)) = none := by
      rw [stacked, Argv.findOption?_stackOf (hstyle ▸ hs) hne, hd]
      rfl
    refine hsearches (h.argv.searches_past (.intro hds) hxs ?_ ?_ ha hb hf hstack
      (Argv.findOption?_unstacked (hstyle ▸ hs) hdash hnone 0))
    · simp [stacked, stackOf, Token.isDoubleDash]
    · simp [unstacked, stackOf, Token.isDoubleDash]
  | true =>
    have hvalue := (ho.head hds List.mem_cons_self hd).1
    cases hmet : (s.slots.get o.slot).isTruthy with
    | true =>
      simp only [run, MatchM.slots_bind, h.slots, hmet, Bool.not_false, Bool.and_self, if_true]
      exact .ok ⟨rfl, h, .refl⟩
    | false =>
      have hb' : t.argv.tokens = xs ++ (stacked [d] ++ (unstacked ds ++ ys)) := hb
      rw [run_stack hvalue (hstyle ▸ hs) (hstyle ▸ hcombined) hne hd hmet ha hxs hf,
        run_stack hvalue (h.argv.style.trans hstyle ▸ hs) (h.argv.style.trans hstyle ▸ hcombined) hne hd
          (h.slots ▸ hmet) hb' hxs (by rwa [Argv.findOption?_congr h.argv.style h.argv.autoDashes]), h.slots]
      refine .ok ⟨rfl, ⟨rfl, trivial, ?_, hstyle, h.argv.style, h.argv.autoDashes, h.argv.dashes,
        h.argv.optionOnly⟩, ?_⟩
      · cases ds with
        | nil => exact .same
        | cons e ds => exact .part (.intro ((List.suffix_cons d _).trans hds)) hxs
      · simp only [ha, hb']
        refine .moved ?_ ?_
        · cases ds <;> simp [stacked, stackOf]
        · simp [stacked]

end OptionOf

/-! ## Patterns -/

/-- Matches on the same stream, with different bounds. -/
theorem same_parallel (hg : scope.Grounded) (hn : (p.recorded? scope n).isSome)
    (hn' : (p.recorded? scope n').isSome) :
    Parallel σ Eq (fun _ => True) (matchPattern scope n false p) (matchPattern scope n' false p) := by
  refine (Follows.of_options akin_eq hg fun o _ m m' hv s t h => ?_).parallel akin_eq hn hn'
  refine OptionOf.run_of_searches h ?_ (fun E hE _ w hw => ?_) (fun _ h => h) fun _ _ => trivial
  · have hs : s.argv.tokens = [] ++ s.argv.tokens := rfl
    have ht : t.argv.tokens = [] ++ s.argv.tokens := h.argv.tokens.symm
    exact h.argv.searches_behind hs ht (fun _ => rfl) rfl (by rw [← h.argv.tokens]; rfl)
  · obtain rfl : E = Eq := hE.elim id id
    exact (hv w hw).2.2

/-- A pattern takes the same from a stack and from its flags, if each option in reach that a flag
of the stack names is named by all flags in front of it, too. -/
theorem follows_stack (hg : scope.Grounded) (hs : σ.standard = true) (hcombined : σ.combined = true)
    (hcs : '-' ∉ cs) (ho : ∀ o, Reaches scope p (.option o) → o.Leads cs) :
    Follows scope σ (Replaced (StackedPart cs)) (fun _ => True) n p := by
  refine .of_options (Replaced.akin (flagsFirst_stackedPart hcs)) hg fun o hreach m m' hv => ?_
  refine OptionOf.stack_parallel hs hcombined hcs (ho o hreach) fun E hE w hw => ?_
  obtain ⟨hm, hm', hsame⟩ := hv w hw
  rcases hE with rfl | rfl
  · exact hsame
  · exact same_parallel hg hm hm'

end Synopsis
