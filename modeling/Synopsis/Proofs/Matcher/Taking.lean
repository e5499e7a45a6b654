import Synopsis.Proofs.Argv.Occurrences
import Synopsis.Proofs.Argv.Spent
import Synopsis.Proofs.Matcher.Closed

/-! # What an option takes

An option takes its name off a flag, and then its value pattern takes what is attached
or what stands right behind. Nothing else of the stream changes.
-/

namespace Synopsis

open Argv (Spelled)

namespace OptionOf

/-- What stays of a flag without its first option. -/
inductive Stays (style : OptionStyle) (x : Token) : Option String → List Token → Prop
  | none : Stays style x none []
  | stack {rest : String} (hw : style.readsWhole x.text = false) :
      Stays style x (some rest) [restOfStack rest]

/-- What becomes of the tokens `xs`, `x` and `ys` when an option takes the flag `x`. -/
inductive Uses (o : OptionAtom) (value : Pattern → Step) (style : OptionStyle) (xs : List Token)
    (x : Token) (attached : Option String) (ys : List Token) (s : Slots) :
    List Token → Slots → Prop
  | flag {left : List Token} (hv : o.value = none) (hx : Stays style x attached left) :
      Uses o value style xs x attached ys s (xs ++ left ++ ys) s
  | attached {p : Pattern} {text : String} {t : Attempt} {log : List Move} (hv : o.value = some p)
      (hr : attached = some text) (hs : style.readsWhole x.text = true ∨ style.attached = true)
      (run : value p ⟨s, [⟨text, .value⟩], style, false, false, false⟩ log true t)
      (he : t.argv.tokens = []) : Uses o value style xs x attached ys s (xs ++ ys) t.slots
  | separate {p : Pattern} {left given kept : List Token} {t : Attempt} {log : List Move}
      (hv : o.value = some p) (hx : Stays style x attached left)
      (hs : attached = none ∨ style.attached = false)
      (hg : given = ys ∧ kept = [] ∨ given = [] ∧ kept = ys ∧ p.arity.least = .exactly 0)
      (run : value p ⟨s, given, style, false, false, false⟩ log true t) :
      Uses o value style xs x attached ys s (xs ++ left ++ kept ++ t.argv.tokens) t.slots

/-- The same with the moves that it makes. -/
inductive Spends (o : OptionAtom) (value : Pattern → Step) (style : OptionStyle) (xs : List Token)
    (x : Token) (attached : Option String) (ys : List Token) (s : Slots) :
    List Move → List Token → Slots → Prop
  | flag {left : List Token} (hv : o.value = none) (hx : Stays style x attached left) :
      Spends o value style xs x attached ys s [.flag o.slot xs.length (!left.isEmpty)]
        (xs ++ left ++ ys) s
  | attached {p : Pattern} {text : String} {t : Attempt} {log : List Move} (hv : o.value = some p)
      (hr : attached = some text) (hs : style.readsWhole x.text = true ∨ style.attached = true)
      (run : value p ⟨s, [⟨text, .value⟩], style, false, false, false⟩ log true t)
      (he : t.argv.tokens = []) :
      Spends o value style xs x attached ys s [.flag o.slot xs.length false] (xs ++ ys) t.slots
  | separate {p : Pattern} {left given kept : List Token} {t : Attempt} {log : List Move}
      (hv : o.value = some p) (hx : Stays style x attached left)
      (hs : attached = none ∨ style.attached = false)
      (hg : given = ys ∧ kept = [] ∨ given = [] ∧ kept = ys ∧ p.arity.least = .exactly 0)
      (run : value p ⟨s, given, style, false, false, false⟩ log true t) :
      Spends o value style xs x attached ys s
        (.flag o.slot xs.length (!left.isEmpty) ::
          log.map (Move.shift (xs ++ left ++ kept).length))
        (xs ++ left ++ kept ++ t.argv.tokens) t.slots

theorem Spends.uses {o : OptionAtom} {value : Pattern → Step} {style : OptionStyle}
    {xs ys us : List Token} {x : Token} {attached : Option String} {s s' : Slots} {log : List Move}
    (h : Spends o value style xs x attached ys s log us s') :
    Uses o value style xs x attached ys s us s' := by
  cases h with
  | flag hv hx => exact .flag hv hx
  | attached hv hr hs run he => exact .attached hv hr hs run he
  | separate hv hx hs hg run => exact .separate hv hx hs hg run

/-- An option that is found, with the flag that it takes. -/
inductive Takes (o : OptionAtom) (value : Pattern → Step) (s : Attempt) (slots : Slots)
    (t : Attempt) : Prop
  | intro {xs ys : List Token} {x : Token} {name : String} {attached : Option String}
      (htokens : s.argv.tokens = xs ++ x :: ys) (hk : x.kind = .flag) (hd : Dashed x.text)
      (hname : name ∈ o.names.toList) (hx : Spelled s.argv.style x.text name attached)
      (uses : Uses o value s.argv.style xs x attached ys slots t.argv.tokens t.slots)

variable {o : OptionAtom} {s t : Attempt} {log : List Move}

theorem TakesSeparate.uses {value : Step} {arity : Arity} {xs ys : List Token}
    (h : TakesSeparate value arity xs.length s log t) (hs : s.argv.tokens = xs ++ ys) :
    ∃ given kept log' u,
      (given = ys ∧ kept = [] ∨ given = [] ∧ kept = ys ∧ arity.least = .exactly 0) ∧
      value ⟨s.slots, given, s.argv.style, false, false, false⟩ log' true u ∧
      log = log'.map (Move.shift (xs ++ kept).length) ∧
      t.argv.tokens = xs ++ kept ++ u.argv.tokens ∧ t.slots = u.slots := by
  cases h with
  | @intro u _ hg run =>
    unfold valueSplit at run
    simp only [valueSplit]
    split at run
    next hdashes =>
      rw [hdashes, Bool.true_and, bne_eq_false_iff_eq] at hg
      exact ⟨[], ys, _, u, .inr ⟨rfl, rfl, hg⟩, run, by rw [if_pos hdashes, hs],
        by rw [if_pos hdashes, hs], rfl⟩
    next hdashes =>
      rw [hs, List.drop_left] at run
      exact ⟨ys, [], _, u, .inl ⟨rfl, rfl⟩, run,
        by rw [if_neg hdashes, hs, List.take_left, List.append_nil],
        by rw [if_neg hdashes, hs, List.take_left, List.append_nil], rfl⟩

theorem spends_of_completes {value : Pattern → Step} {found : Argv.Found} {a : Argv} {slots : Slots}
    (htok : Tokenized s.argv.tokens) (hf : s.argv.takeOption? o.names = some (found, a))
    (hc : o.Completes value found ⟨slots, a⟩ log t) :
    ∃ xs x ys, s.argv.tokens = xs ++ x :: ys ∧ xs.length = found.index ∧ x.kind = .flag ∧
      Argv.spelledBy? s.argv.style o.names x.text = some (found.name, found.attached) ∧
      Spends o value s.argv.style xs x found.attached ys slots log t.argv.tokens t.slots := by
  obtain ⟨x, hx, hk, hspells, rfl⟩ := Argv.exists_of_takeOption? hf
  have hspelled := Argv.spelled_of_spelledBy? (htok.flags x (List.mem_of_getElem? hx) hk) hspells
  obtain ⟨hi, hget⟩ := List.getElem?_eq_some_iff.mp hx
  obtain ⟨xs, ys, hs, hxs⟩ : ∃ xs ys, s.argv.tokens = xs ++ x :: ys ∧ xs.length = found.index :=
    ⟨_, _, by rw [← hget, ← List.drop_eq_getElem_cons hi, List.take_append_drop],
      List.length_take_of_le (Nat.le_of_lt hi)⟩
  refine ⟨xs, x, ys, hs, hxs, hk, hspells, ?_⟩
  have hremoved : (s.argv.remove found.index).tokens = xs ++ ys := by
    simp [Argv.remove, hs, ← hxs, List.eraseIdx_append_of_length_le]
  have hinserted (r : Token) : ((s.argv.remove found.index).insert found.index r).tokens =
      xs ++ [r] ++ ys := by
    rw [Argv.remove_insert_tokens s.argv hx, hs, ← hxs]
    simp
  have hread (h : isShort (s.argv.remove found.index) found = true) :
      s.argv.style.readsWhole x.text = false := by
    simpa [isShort] using hspelled.isShort_eq.symm.trans h
  cases hc with
  | plain hv hr =>
    have spends : Spends o value s.argv.style xs x none ys slots [.flag o.slot xs.length false]
        (xs ++ [] ++ ys) slots := .flag hv .none
    rw [List.append_nil] at spends
    rwa [hr, hremoved, ← hxs]
  | stacked hv hr hshort =>
    rw [hr, hinserted, ← hxs]
    exact .flag hv (.stack (hread (Bool.and_eq_true _ _ ▸ hshort).1))
  | @attached u _ _ _ hv hr hshort run he =>
    rw [hremoved, ← hxs]
    refine Spends.attached (t := u) hv hr ?_ run (List.isEmpty_iff.mp he)
    have hshort : (isShort (s.argv.remove found.index) found && !s.argv.style.attached) = false :=
      hshort
    rw [show isShort (s.argv.remove found.index) found = _ from hspelled.isShort_eq,
      Bool.and_eq_false_iff, Bool.not_eq_false', Bool.not_eq_false'] at hshort
    exact hshort
  | separate hv hr run =>
    rw [← hxs] at run
    obtain ⟨given, kept, log', u, hg, run, hlog, htokens, hslots⟩ := run.uses (hxs ▸ hremoved)
    rw [hlog, htokens, hslots, hr, ← hxs]
    have spends : Spends o value s.argv.style xs x none ys slots
        (.flag o.slot xs.length false :: log'.map (Move.shift (xs ++ [] ++ kept).length))
        (xs ++ [] ++ kept ++ u.argv.tokens) u.slots := .separate hv .none (.inl rfl) hg run
    rwa [List.append_nil] at spends
  | @stackedSeparate _ _ _ rest hv hr hshort run =>
    simp only [Bool.and_eq_true, Bool.not_eq_true'] at hshort
    have hplace : found.index + 1 = (xs ++ [restOfStack rest]).length := by
      rw [List.length_append, hxs, List.length_singleton]
    rw [hplace] at run
    obtain ⟨given, kept, log', u, hg, run, hlog, htokens, hslots⟩ := run.uses (hinserted _)
    rw [hlog, htokens, hslots, hr, ← hxs]
    exact .separate hv (.stack (hread hshort.1.1)) (.inr hshort.1.2) hg run

theorem takes_of_completes {value : Pattern → Step} {found : Argv.Found} {a : Argv} {slots : Slots}
    (htok : Tokenized s.argv.tokens) (hf : s.argv.takeOption? o.names = some (found, a))
    (hc : o.Completes value found ⟨slots, a⟩ log t) : Takes o value s slots t := by
  obtain ⟨xs, x, ys, hs, -, hk, hspells, spends⟩ := spends_of_completes htok hf hc
  have hd := htok.flags x (by simp [hs]) hk
  exact .intro hs hk hd (Argv.mem_of_spelledBy? hspells) (Argv.spelled_of_spelledBy? hd hspells)
    spends.uses

end OptionOf

/-! ## Streams get thinner -/

open OptionOf (Stays Uses)

/-- Tokens and the fronts of stacks leave a stream, and nothing is new. -/
structure Thins (a b : Argv) : Prop where
  style_eq : b.style = a.style
  thinned : Tokenized a.tokens → Thinned a.tokens b.tokens

/-- What holds from stream to stream in every pass of a repetition. -/
theorem RepeatPasses.argv {C : Argv → Argv → Prop} {once : Step} {leaves : List Recorded}
    {history history' : List Slots} {s t : Attempt} {log : List Move} (refl : ∀ a, C a a)
    (trans : ∀ a b c, C a b → C b c → C a c)
    (ho : ∀ s log b t, once s log b t → C s.argv t.argv)
    (h : RepeatPasses once leaves history s log history' t) : C s.argv t.argv := by
  have step {s t : Attempt} {log : List Move} {b : Bool}
      (run : once (s.cleared leaves) log b t) : C s.argv t.argv :=
    ho (s.cleared leaves) log b t run
  induction h with
  | empty => exact refl _
  | failed _ run | still _ run => exact step run
  | again _ run _ _ ih => exact trans _ _ _ (step run) ih

/-! ## Nothing to take -/

open Pattern (Reaches)

/-- A pattern without leaves leads to none. -/
theorem Pattern.Reaches.slot?_eq_none {scope : Scope} {p q : Pattern} (h : Reaches scope p q)
    (hp : p.leaves = []) : q.slot? = none := by
  induction h with
  | @refl p =>
    cases p with
    | option | command | argument | shortcut => cases hp
    | group | either => rfl
  | value | entry => cases hp
  | child hc _ ih | branch hc _ ih =>
    rw [leaves, leavesAll_eq_flatMap, List.flatMap_eq_nil_iff] at hp
    exact ih (hp _ hc)

theorem leafless_closed (scope : Scope) : Closed scope (fun q => q.slot? = none)
    fun s _ t => t.argv.tokens = s.argv.tokens where
  refl _ := rfl
  trans h h' := h'.trans h
  marks _ _ _ := rfl
  take {p _ _ _ _} hp _ _ _ _ _ := by
    rw [p.slot?_pattern] at hp
    cases hp
  option ho _ _ _ _ _ := by cases ho
  lend _ h := by
    cases h
    rfl
  repeats _ ho _ hp _ := by
    have hkept := hp.argv (C := fun a b => b.tokens = a.tokens) (fun _ => rfl)
      (fun _ _ _ h h' => h'.trans h) ho
    exact hkept

/-- Without leaves, nothing is taken. -/
theorem Run.tokens_eq {scope : Scope} {n : Nat} {counting b : Bool} {p : Pattern} {s t : Attempt}
    {log : List Move} (hp : p.leaves = []) (h : Run scope n counting p s log b t) :
    t.argv.tokens = s.argv.tokens :=
  (leafless_closed scope).run (fun _ hq => hq.slot?_eq_none hp) h

namespace Thins

variable {a b c : Argv} {s t : Attempt} {xs ys zs : List Token}

theorem refl (a : Argv) : Thins a a := ⟨rfl, fun _ => .refl _⟩

theorem trans (h : Thins a b) (h' : Thins b c) : Thins a c where
  style_eq := h'.style_eq.trans h.style_eq
  thinned ht :=
    have hab := h.thinned ht
    hab.trans (h'.thinned (hab.tokenized ht))

theorem tokenized (h : Thins a b) (ha : Tokenized a.tokens) : Tokenized b.tokens :=
  (h.thinned ha).tokenized ha

theorem stays {style : OptionStyle} {x : Token} {name : String} {attached : Option String}
    {left : List Token} (hx : Stays style x attached left) (hk : x.kind = .flag)
    (hs : Argv.Spelled style x.text name attached) :
    Thinned (xs ++ x :: ys) (xs ++ left ++ ys) := by
  rw [List.append_assoc]
  apply Thinned.append_left
  cases hx with
  | none => exact .of_sublist (List.sublist_cons_self _ _)
  | stack hw =>
    obtain ⟨c, cs, htext, hne, -, rfl⟩ := hs.stack_of_some hw
    obtain ⟨d, ds, rfl⟩ := List.exists_cons_of_ne_nil hne
    rw [OptionOf.restOfStack_ofList]
    have hx : (x :: ys)[0]? = some x := rfl
    exact .replace hx hk rfl fun _ => ⟨d, ds, String.toList_ofList⟩

theorem takes {o : OptionAtom} {value : Pattern → Step} {slots : Slots}
    (hs : Tokenized s.argv.tokens)
    (hv : ∀ v s log t, o.value = some v → value v s log true t → Thins s.argv t.argv)
    (h : o.Takes value s slots t) : Thinned s.argv.tokens t.argv.tokens := by
  obtain @⟨xs, ys, x, _, _, htokens, hk, -, -, hspelled, uses⟩ := h
  rw [htokens] at hs ⊢
  generalize t.argv.tokens = us, t.slots = slots' at uses
  cases uses with
  | flag _ hx => exact stays hx hk hspelled
  | attached => exact .of_sublist ((List.Sublist.refl _).append (List.sublist_cons_self _ _))
  | @separate p left given kept u _ hov hx _ hg run =>
    have hleft : Thinned (xs ++ x :: ys) (xs ++ left ++ ys) := stays hx hk hspelled
    have hgiven := (hleft.tokenized hs).sublist (List.sublist_append_right _ _)
    refine hleft.trans ?_
    have hvalue := (hv _ _ _ _ hov run).thinned
    rcases hg with ⟨rfl, rfl⟩ | ⟨rfl, rfl, -⟩
    · rw [List.append_nil]
      exact (hvalue hgiven).append_left
    · have hnothing : Thinned (xs ++ left ++ kept ++ []) (xs ++ left ++ kept ++ u.argv.tokens) :=
        (hvalue ⟨nofun, .nil⟩).append_left
      rwa [List.append_nil] at hnothing

theorem closed (scope : Scope) :
    Closed scope (fun _ => True) fun s _ t => Thins s.argv t.argv where
  refl s := refl s.argv
  trans := trans
  marks s _ _ := ⟨rfl, fun _ => .refl s.argv.tokens⟩
  take {p _ place _ s} _ _ _ _ _ _ := by
    rw [Argv.positional_eq]
    exact ⟨rfl, fun _ => .eraseIdx s.argv.tokens place⟩
  option _ _ hf hv _ hc := by
    obtain ⟨x, -, -, -, rfl⟩ := Argv.exists_of_takeOption? hf
    refine ⟨hc.rules_eq.1, fun hs => ?_⟩
    exact takes hs hv (OptionOf.takes_of_completes hs hf hc)
  lend {_ _ s _} _ h := by
    cases h
    exact refl s.argv
  repeats _ ho _ hp _ := by
    have passes := hp.argv (C := Thins) refl (fun _ _ _ => trans) ho
    exact passes

end Thins

end Synopsis
