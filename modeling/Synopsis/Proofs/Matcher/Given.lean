import Synopsis.Proofs.Argv.Values
import Synopsis.Proofs.Matcher.Scanning
import Synopsis.Proofs.Matcher.Taking

/-! # Values that were given

A value that an option comes with stays in the stream until the option takes it. An
option whose value is a single argument then holds it, and keeps it.
-/

namespace Synopsis

open Argv (values valuesOf nextText? valueText?)
open Pattern (Reaches)

variable {scope : Scope} {takes : String → Bool} {names : Names} {v : String} {n : Nat}
  {a b c : Argv} {s t : Attempt} {log : List Move} {leaf : Leaf} {p q w : Pattern}
  {o : OptionAtom} {xs ys zs left : List Token} {x : Token}

/-! ## Values of other options -/

/-- From one stream to another, a value of an option stays. -/
structure Spares (names : Names) (takes : String → Bool) (v : String) (a b : Argv) : Prop
    extends Thins a b where
  kept : Tokenized a.tokens → v ∈ values a.style takes names a.tokens →
    v ∈ values a.style takes names b.tokens

namespace Spares

theorem refl (a : Argv) : Spares names takes v a a := ⟨.refl a, fun _ => id⟩

theorem trans (h : Spares names takes v a b) (h' : Spares names takes v b c) :
    Spares names takes v a c where
  toThins := h.toThins.trans h'.toThins
  kept ha hv := by
    have hb := h'.kept (h.tokenized ha)
    rw [h.style_eq] at hb
    exact hb (h.kept ha hv)

/-- A leaf that is none of the options of some names. It is known to take a value if it
does. -/
def Foreign (names : Names) (takes : String → Bool) (q : Pattern) : Prop :=
  ∀ o, q = .option o → ∀ name ∈ o.names.toList,
    names.contains name = false ∧ (o.takesValue = true → takes name = true)

theorem takes_option {value : Pattern → Step} {slots : Slots} (ho : Foreign names takes (.option o))
    (hv : ∀ w s log t, o.value = some w → value w s log true t →
      Spares names takes v s.argv t.argv)
    (hs : Tokenized s.argv.tokens) (h : o.Takes value s slots t)
    (hmem : v ∈ values s.argv.style takes names s.argv.tokens) :
    v ∈ values s.argv.style takes names t.argv.tokens := by
  obtain @⟨xs, ys, x, name, attached, htokens, hk, hd, hname, hspelled, uses⟩ := h
  obtain ⟨hother, htakes⟩ := ho o rfl name hname
  have hrest (hx : v ∈ valuesOf s.argv.style takes names (nextText? ys) x) :=
    Argv.mem_rest_of_other _ hk hd hspelled hother hx
  rw [htokens] at hs hmem
  generalize t.argv.tokens = us, t.slots = slots' at uses
  -- An option with a value leaves nothing of its flag to others.
  have hown (hov : o.value.isSome) : v ∉ valuesOf s.argv.style takes names (nextText? ys) x := by
    intro hx
    obtain ⟨_, -, -, hno, -⟩ := hrest hx
    rw [htakes hov] at hno
    cases hno
  cases uses with
  | flag hov hx =>
    cases hx with
    | none =>
      rw [List.append_nil]
      refine Argv.mem_values_splice hk (fun hx => ?_) id hmem
      obtain ⟨_, hr, -⟩ := hrest hx
      cases hr
    | stack =>
      rw [List.append_assoc]
      refine Argv.mem_values_replace hk (fun hx => ?_) hmem
      obtain ⟨_, hr, -, -, hx⟩ := hrest hx
      exact Option.some.inj hr ▸ hx
  | attached hov => exact Argv.mem_values_splice hk (hown (by simp [hov])) id hmem
  | @separate p left given kept u _ hov _ _ hg run =>
    rw [List.append_assoc, List.append_assoc]
    refine Argv.mem_values_splice hk (hown (by simp [hov]))
      (fun hy => Argv.mem_values_append_right ?_) hmem
    rcases hg with ⟨rfl, rfl⟩ | ⟨rfl, rfl, -⟩
    · have hgiven := hs.sublist ((List.sublist_cons_self x given).trans
        (List.sublist_append_right xs _))
      exact (hv _ _ _ _ hov run).kept hgiven hy
    · exact Argv.mem_values_append_left hy

theorem closed (scope : Scope) (hdash : names.contains "--" = false) :
    Closed scope (Foreign names takes) fun s _ t => Spares names takes v s.argv t.argv where
  refl s := refl s.argv
  trans := trans
  marks s _ _ := ⟨⟨rfl, fun _ => .refl s.argv.tokens⟩, fun _ => id⟩
  take {p _ place _ s} hp hw ho hpl ht ha := by
    have hthins := (Thins.closed scope).take trivial hw ho hpl ht ha
    refine ⟨hthins, fun hs hv => ?_⟩
    change v ∈ values _ _ _ (s.argv.positional.1.tokens.eraseIdx place)
    rw [Argv.positional_tokens]
    exact Argv.mem_values_remove hdash hs hpl ht ha hv
  option ho hw hf hv hrun hc := by
    have hthins := (Thins.closed scope).option trivial hw hf
      (fun w s log t hov run => (hv w s log t hov run).toThins) hrun hc
    exact ⟨hthins, fun hs => takes_option ho hv hs (OptionOf.takes_of_completes hs hf hc)⟩
  lend {_ _ s _} _ h := by
    cases h
    exact refl s.argv
  repeats _ ho _ hp _ := by
    have passes := hp.argv (C := Spares names takes v) refl (fun _ _ _ => trans) ho
    exact passes

end Spares

/-! ## A single argument -/

/-- A value pattern that is one argument. -/
inductive SoleArgument : Pattern → Leaf → Prop
  | argument {leaf : Leaf} : SoleArgument (.argument leaf) leaf
  | group {p : Pattern} {leaf : Leaf} (h : SoleArgument p leaf) :
      SoleArgument (.group .required [p] false) leaf

/-- An argument that is empty takes the first token, or nothing happens. -/
inductive Fills (leaf : Leaf) (s t : Attempt) : Prop
  | still (hget : t.slots.get leaf.slot = s.slots.get leaf.slot)
      (ht : t.argv.tokens = s.argv.tokens)
  | taken {u : Token} {rest : List Token} (hempty : (s.slots.get leaf.slot).hasText = false)
      (hs : s.argv.tokens = u :: rest) (hd : u.isDoubleDash = false)
      (ha : (Positional.argument leaf).accepts 0 u = true) (ht : t.argv.tokens = rest)
      (hget : t.slots.get leaf.slot = .text u.text)

/-- The argument is empty or filled, and `--` means nothing. -/
structure Ready (leaf : Leaf) (s : Attempt) : Prop where
  autoDashes_eq : s.argv.autoDashes = false
  slot : s.slots.get leaf.slot = .unset ∨ (s.slots.get leaf.slot).hasText = true

namespace SoleArgument

theorem slots_eq (h : SoleArgument w leaf) : Pattern.slots [w] = [leaf.slot] := by
  induction h with
  | argument => rfl
  | group _ ih => rwa [Pattern.slots_group]

theorem slot_mem (h : SoleArgument w leaf) : leaf.slot ∈ Pattern.slots [w] := by
  rw [h.slots_eq]
  exact List.mem_singleton_self _

theorem reaches (h : SoleArgument w leaf) (hq : Reaches scope w q) {i : Nat}
    (hi : q.slot? = some i) : i = leaf.slot := by
  induction h with
  | argument =>
    cases hq
    exact (Option.some.inj hi).symm
  | group _ ih =>
    cases hq with
    | refl => cases hi
    | child hc hq =>
      obtain rfl := List.mem_singleton.mp hc
      exact ih hq

theorem arity_eq (h : SoleArgument w leaf) : w.arity = .singleton (.exactly 1) := by
  induction h with
  | argument => rfl
  | group _ ih =>
    rw [Pattern.arity, Pattern.arityOfChildren, ih]
    rfl

theorem isRepeatingGroup_eq (h : SoleArgument w leaf) : w.isRepeatingGroup = false := by
  cases h <;> rfl

theorem not_lends (h : SoleArgument w leaf) : ¬ Lending.Lends [w] s t := by
  rintro ⟨hl, -, -⟩
  obtain ⟨before, children, rest, hsplit⟩ := Lending.splits_of_loan? hl
  have hlender := h.isRepeatingGroup_eq
  rw [← List.mem_singleton.mp hsplit.lender_mem] at hlender
  cases hlender

end SoleArgument

theorem Argv.positional_of_not_autoDashes {place : Nat} (ha : a.autoDashes = false)
    (h : a.positional.2 = some place) :
    place = 0 ∧ ∃ u rest, a.tokens = u :: rest ∧ u.isDoubleDash = false := by
  unfold positional at h
  split at h
  next => cases h
  next u hu =>
    obtain ⟨rest, hrest⟩ := List.head?_eq_some_iff.mp hu
    split at h
    next hd => simp [checkDash, hu, hd, ha] at h
    next hd => exact ⟨(Option.some.inj h).symm, u, rest, hrest, Bool.not_eq_true _ ▸ hd⟩

namespace Fills

theorem chains (leaf : Leaf) :
    Chains fun s _ t => Ready leaf s → Ready leaf t ∧ Fills leaf s t where
  refl s hs := ⟨hs, .still rfl rfl⟩
  trans h h' hs := by
    obtain ⟨ht, hst⟩ := h hs
    obtain ⟨hu, htu⟩ := h' ht
    refine ⟨hu, ?_⟩
    cases hst with
    | still hget htokens =>
      cases htu with
      | still hget' htokens' => exact .still (hget'.trans hget) (htokens'.trans htokens)
      | taken hempty hs hd ha ht hget' =>
        exact .taken (hget ▸ hempty) (htokens ▸ hs) hd ha ht hget'
    | taken hempty hs hd ha htokens hget =>
      cases htu with
      | still hget' htokens' =>
        exact .taken hempty hs hd ha (htokens'.trans htokens) (hget'.trans hget)
      | taken hempty' => simp [hget, Slot.hasText] at hempty'
  aim s optionOnly hs := ⟨⟨hs.1, hs.2⟩, .still rfl rfl⟩

theorem argument (hs : Ready leaf s) {b : Bool}
    (h : (Positional.argument leaf).Runs false s log b t) : Ready leaf t ∧ Fills leaf s t := by
  cases h with
  | filled | barred => exact ⟨hs, .still rfl rfl⟩
  | refused =>
    refine ⟨⟨?_, hs.slot⟩, .still rfl s.argv.positional_tokens⟩
    rw [Argv.positional_eq]
    exact hs.autoDashes_eq
  | taken hw _ hpl ht ha =>
    obtain ⟨rfl, u, rest, htokens, hd⟩ := Argv.positional_of_not_autoDashes hs.autoDashes_eq hpl
    rw [htokens] at ht
    obtain rfl := Option.some.inj ht
    have hget := Slots.get_modify_self (s := s.slots) (i := leaf.slot) (f := Slot.pushText u.text false)
    refine ⟨⟨?_, .inr (congrArg Slot.hasText hget)⟩, .taken ?_ htokens hd ha ?_ hget⟩
    · rw [Argv.positional_eq]
      exact hs.autoDashes_eq
    · simpa [Positional.isFilled] using hw
    · rw [Argv.remove, Argv.positional_tokens, htokens]
      rfl

end Fills

namespace SoleArgument

theorem fills (h : SoleArgument w leaf) (hs : Ready leaf s) {b : Bool}
    (run : Run scope n false w s log b t) : Ready leaf t ∧ Fills leaf s t := by
  induction h generalizing n s log b t with
  | argument =>
    cases n with
    | zero => exact run.elim
    | succ n => exact Fills.argument hs run
  | @group p leaf h ih =>
    cases n with
    | zero => exact run.elim
    | succ n =>
      have hscan {xs : List Scanned} {log : List Move} {t : Attempt}
          (scan : Scan (Run scope n false) [p] s log xs t) : Ready leaf t ∧ Fills leaf s t :=
        (Fills.chains leaf).scan (fun q hq _ _ _ _ hrun hs => by
          rw [List.mem_singleton.mp hq] at hrun
          exact ih hs hrun) scan hs
      cases run with
      | required run =>
        cases run with
        | matched scan => exact hscan scan
        | lent _ _ hl => exact absurd hl h.not_lends
        | failed scan =>
          obtain ⟨ht, -⟩ := hscan scan
          exact ⟨⟨ht.autoDashes_eq, hs.slot⟩, .still rfl rfl⟩

theorem hasText (h : SoleArgument w leaf) {b : Bool} (run : Run scope n false w s log b t)
    (hs : b = true ∨ (s.slots.get leaf.slot).hasText = true) :
    (t.slots.get leaf.slot).hasText = true := by
  induction h generalizing n s log b t with
  | argument =>
    cases n with
    | zero => exact run.elim
    | succ n =>
      cases b with
      | true => exact Positional.Runs.isFilled run
      | false =>
        rw [(Positional.Runs.undone run).1.slots_eq]
        exact hs.resolve_left nofun
  | @group p leaf h ih =>
    cases n with
    | zero => exact run.elim
    | succ n =>
      have hT : Tracks (Run scope n false) [p] (fun _ => True)
          fun _ s => (s.get leaf.slot).hasText = true := by
        refine ⟨fun _ _ _ => trivial, fun hc hrun _ => ?_, fun _ hc hrun _ hq => ?_⟩
        · rw [List.mem_singleton.mp hc] at hrun
          exact ih hrun (.inl rfl)
        · rw [List.mem_singleton.mp hc] at hrun
          exact ih hrun (.inr hq)
      cases run with
      | required run =>
        cases run with
        | matched scan hall =>
          refine (hT.scan (fun c hc hm => ?_) scan trivial).2 hall p (List.mem_singleton_self p)
          obtain rfl := List.mem_singleton.mp hc
          cases h <;> cases hm
        | lent _ _ hl => exact absurd hl h.not_lends
        | failed => exact hs.resolve_left nofun

end SoleArgument

/-! ## Values of an option -/

/-- The value of an option is still to be taken, or its argument holds it. -/
structure Due (o : OptionAtom) (leaf : Leaf) (style : OptionStyle) (takes : String → Bool)
    (v : String) (s : Attempt) : Prop where
  style_eq : s.argv.style = style
  tokenized : Tokenized s.argv.tokens
  empty : (s.slots.get o.slot).isTruthy = true ∨ s.slots.get leaf.slot = .unset
  due : v ∈ values style takes o.names s.argv.tokens ∨
    (s.slots.get o.slot).isTruthy = true ∧ s.slots.get leaf.slot = .text v

namespace Due

variable {style : OptionStyle}

/-- Nothing but the argument of the value pattern is filled. -/
theorem takes_value {o : OptionAtom} {given : List Token} {slots : Slots}
    (hw : SoleArgument w leaf) (hne : o.slot ≠ leaf.slot)
    (hempty : slots.get leaf.slot = .unset)
    (run : Run scope n false w ⟨slots, given, style, false, false, false⟩ log true t) :
    t.slots.get o.slot = slots.get o.slot ∧ ∃ u rest, given = u :: rest ∧
      u.isDoubleDash = false ∧ (Positional.argument leaf).accepts 0 u = true ∧
      t.argv.tokens = rest ∧ t.slots.get leaf.slot = .text u.text := by
  refine ⟨(run.untouched fun q hq hi => hne (hw.reaches hq hi)).get_eq, ?_⟩
  cases (hw.fills ⟨rfl, .inl hempty⟩ run).2 with
  | still hget =>
    have hfilled := hw.hasText run (.inl rfl)
    rw [hget] at hfilled
    change (slots.get leaf.slot).hasText = true at hfilled
    rw [hempty] at hfilled
    cases hfilled
  | taken _ hs hd ha ht hget => exact ⟨_, _, hs, hd, ha, ht, hget⟩

theorem takes_option {slots : Slots} (hw : SoleArgument w leaf) (ho : o.value = some w)
    (hne : o.slot ≠ leaf.slot) (hdash : o.names.contains "--" = false)
    (hempty : slots.get leaf.slot = .unset) (hs : Tokenized s.argv.tokens)
    (hmem : v ∈ values s.argv.style takes o.names s.argv.tokens)
    (h : o.Takes (Run scope n false) s slots t) :
    t.slots.get o.slot = slots.get o.slot ∧
      (v ∈ values s.argv.style takes o.names t.argv.tokens ∨
        t.slots.get leaf.slot = .text v) := by
  obtain @⟨xs, ys, x, name, attached, htokens, hk, hd, hname, hspelled, uses⟩ := h
  have hown : o.names.contains name = true := OrderedSet.contains_iff.mpr hname
  rw [htokens] at hs hmem
  generalize t.argv.tokens = us, t.slots = slots' at uses
  cases uses with
  | flag hov => simp [ho] at hov
  | @attached p text u _ hov hr hattached run =>
    obtain rfl := Option.some.inj (ho.symm.trans hov)
    obtain ⟨hhit, _, _, hgiven, -, -, -, hget⟩ := takes_value hw hne hempty run
    obtain ⟨rfl, -⟩ := List.cons.inj hgiven
    refine ⟨hhit, ?_⟩
    rcases Argv.mem_values_split hk hmem with hv | hv | hv
    · exact .inl (Argv.mem_values_append_left hv)
    · have hnext : (!s.argv.style.readsWhole x.text && !s.argv.style.attached) = false := by
        rcases hattached with h | h <;> simp [h]
      rw [Argv.valuesOf_of_some _ hk hd (hr ▸ hspelled) hown, hnext, if_neg (by simp),
        List.mem_singleton] at hv
      exact .inr (hv ▸ hget)
    · exact .inl (Argv.mem_values_append_right hv)
  | @separate p left given kept u _ hov hx hattached hg run =>
    obtain rfl := Option.some.inj (ho.symm.trans hov)
    have hleast : w.arity.least ≠ .exactly 0 := by
      rw [hw.arity_eq]
      decide
    obtain ⟨rfl, rfl⟩ := hg.resolve_right fun h => hleast h.2.2
    obtain ⟨hhit, token, rest, rfl, hdd, ha, hrest, hget⟩ := takes_value hw hne hempty run
    have hnext : valuesOf s.argv.style takes o.names (nextText? (token :: rest)) x =
        (valueText? token).toList := by
      cases hx with
      | none => exact Argv.valuesOf_of_none _ hk hd hspelled hown
      | stack hw =>
        rw [Argv.valuesOf_of_some _ hk hd hspelled hown, hw, hattached.resolve_left nofun]
        rfl
    have hnone {next : Option String} :
        valuesOf s.argv.style takes o.names next token = [] := by
      refine Argv.valuesOf_of_accepts (a := ⟨token :: rest, s.argv.style, false, false, false⟩)
        hdash ?_ ?_ rfl ha
      · exact hs.sublist ((List.sublist_cons_self _ _).trans (List.sublist_append_right _ _))
      · simp [Argv.positional, hdd]
    refine ⟨hhit, ?_⟩
    rw [List.append_nil, List.append_assoc, hrest]
    rcases Argv.mem_values_split hk hmem with hv | hv | hv
    · exact .inl (Argv.mem_values_append_left hv)
    · rw [hnext, Option.mem_toList, valueText?] at hv
      simp only [Option.ite_none_left_eq_some] at hv
      exact .inr (Option.some.inj hv.2 ▸ hget)
    · rw [values, hnone, List.nil_append] at hv
      exact .inl (Argv.mem_values_append_right (Argv.mem_values_append_right hv))

theorem option (hw : SoleArgument w leaf) (ho : o.value = some w) (hne : o.slot ≠ leaf.slot)
    (hdash : o.names.contains "--" = false) {b : Bool}
    (h : o.Runs (Run scope n false) false s log b t) (hs : Due o leaf style takes v s) :
    Due o leaf style takes v t := by
  cases h with
  | filled | absent => exact hs
  | found hunmet hf hc =>
    have hmet : (s.slots.get o.slot).isTruthy = false := hunmet
    have hempty := hs.empty.resolve_left (by simp [hmet])
    have hmem := hs.due.resolve_right (by simp [hmet])
    have hthins := (Thins.closed scope).option trivial hunmet hf (fun w s log t hov run =>
      (Thins.closed scope).run (fun _ _ => trivial) run) ⟨n, rfl⟩ hc
    have htruthy : ((s.slots.modify o.slot (Slot.hit false)).get o.slot).isTruthy = true := by
      rw [Slots.get_modify_self]
      rfl
    obtain ⟨hhit, hv⟩ := takes_option hw ho hne hdash
      (by rwa [Slots.get_modify_of_ne hne.symm]) hs.tokenized (hs.style_eq ▸ hmem)
      (OptionOf.takes_of_completes hs.tokenized hf hc)
    rw [← hhit] at htruthy
    exact ⟨hthins.style_eq.trans hs.style_eq, hthins.tokenized hs.tokenized, .inl htruthy,
      hs.style_eq ▸ hv.imp_right fun hget => ⟨htruthy, hget⟩⟩

theorem chains (o : OptionAtom) (leaf : Leaf) (style : OptionStyle) (takes : String → Bool)
    (v : String) : Chains fun s _ t => Due o leaf style takes v s → Due o leaf style takes v t where
  refl _ := id
  trans h h' := h' ∘ h
  aim _ _ h := ⟨h.style_eq, h.tokenized, h.empty, h.due⟩

/-- A run in which nothing goes by the names of the option. -/
theorem of_spares (h : Spares o.names takes v s.argv t.argv)
    (ho : t.slots.get o.slot = s.slots.get o.slot)
    (hleaf : t.slots.get leaf.slot = s.slots.get leaf.slot)
    (hs : Due o leaf style takes v s) : Due o leaf style takes v t where
  style_eq := h.style_eq.trans hs.style_eq
  tokenized := h.tokenized hs.tokenized
  empty := by
    rw [ho, hleaf]
    exact hs.empty
  due := by
    rw [ho, hleaf]
    refine hs.due.imp_left ?_
    have hkept := h.kept hs.tokenized
    rwa [hs.style_eq] at hkept

end Due

/-! ## Patterns around an option -/

/-- A leaf besides the option. -/
structure Beside (o : OptionAtom) (leaf : Leaf) (takes : String → Bool) (q : Pattern) : Prop where
  foreign : Spares.Foreign o.names takes q
  slot_ne : q.slot? ≠ some o.slot
  leaf_ne : q.slot? ≠ some leaf.slot

/-- The option is in no repeating group, and nothing else goes by its names. -/
inductive Leads (scope : Scope) (o : OptionAtom) (leaf : Leaf) (takes : String → Bool) :
    Pattern → Prop
  | beside {p : Pattern} (h : ∀ q, Reaches scope p q → Beside o leaf takes q) :
      Leads scope o leaf takes p
  | option : Leads scope o leaf takes (.option o)
  | group {kind : GroupKind} {line : List Pattern}
      (hl : ∀ p : Positional, p.pattern ∈ line.flatMap Pattern.leaves →
        p.slot ≠ o.slot ∧ p.slot ≠ leaf.slot)
      (h : ∀ c ∈ line, Leads scope o leaf takes c) : Leads scope o leaf takes (.group kind line false)
  | shortcut {sc : Shortcut} (h : ∀ e ∈ scope.visible sc, Leads scope o leaf takes e) :
      Leads scope o leaf takes (.shortcut sc)

namespace Leads

variable {style : OptionStyle}

theorem due (h : Leads scope o leaf takes p) (hw : SoleArgument w leaf) (ho : o.value = some w)
    (hne : o.slot ≠ leaf.slot) (hdash : o.names.contains "--" = false) {b : Bool}
    (run : Run scope n false p s log b t) (hs : Due o leaf style takes v s) :
    Due o leaf style takes v t := by
  induction h generalizing n s log b t with
  | beside h =>
    refine hs.of_spares ((Spares.closed scope hdash).run (fun q hq => (h q hq).foreign) run) ?_ ?_
    · exact (run.untouched fun q hq => (h q hq).slot_ne).get_eq
    · exact (run.untouched fun q hq => (h q hq).leaf_ne).get_eq
  | option =>
    cases n with
    | zero => exact run.elim
    | succ n => exact Due.option hw ho hne hdash run hs
  | @group kind line hl _ ih =>
    cases n with
    | zero => exact run.elim
    | succ n =>
      have hscan {xs : List Scanned} {log : List Move} {t : Attempt}
          (scan : Scan (Run scope n false) line s log xs t) : Due o leaf style takes v t :=
        (Due.chains o leaf style takes v).scan (fun c hc _ _ _ _ hrun => ih c hc hrun) scan hs
      cases run with
      | optional scan => exact hscan scan
      | required run =>
        cases run with
        | matched scan => exact hscan scan
        | lent scan _ hl' =>
          exact (hscan scan).of_spares (hl'.argv_eq ▸ .refl _)
            (hl'.get_of_forall_ne fun p hp => (hl p hp).1)
            (hl'.get_of_forall_ne fun p hp => (hl p hp).2)
        | failed scan =>
          have hu := hscan scan
          exact ⟨hu.style_eq, hs.tokenized, hs.empty, hs.due⟩
  | @shortcut sc _ ih =>
    cases n with
    | zero => exact run.elim
    | succ n =>
      exact (Due.chains o leaf style takes v).entries
        (fun e he _ _ _ _ hrun => ih e he hrun) run.1 (fun _ => id) hs

/-- Nothing is left to be taken, so the argument holds the value. -/
theorem given (h : Leads scope o leaf takes p) (hw : SoleArgument w leaf) (ho : o.value = some w)
    (hne : o.slot ≠ leaf.slot) (hdash : o.names.contains "--" = false) {b : Bool}
    (run : Run scope n false p s log b t) (hs : Due o leaf s.argv.style takes v s)
    (ht : t.argv.isExhausted = true) :
    (t.slots.get o.slot).isTruthy = true ∧ t.slots.get leaf.slot = .text v := by
  refine (h.due hw ho hne hdash run hs).due.resolve_left fun hv => ?_
  rw [Argv.values_of_not_flag (Argv.kind_ne_flag_of_isExhausted ht)] at hv
  cases hv

end Leads

end Synopsis
