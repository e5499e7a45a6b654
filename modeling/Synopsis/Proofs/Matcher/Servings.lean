import Synopsis.Grammar.Report
import Synopsis.Proofs.Matcher.Built
import Synopsis.Proofs.Matcher.Given

/-! # What values take

The arguments of a value pattern take tokens from the front of its stream. A single argument
appends what it takes to its slot, pass by pass.
-/

namespace Synopsis

open Pattern (Reaches slots Built)

variable {scope : Scope} {p q c w : Pattern} {ps cs : List Pattern} {kind : GroupKind}
  {repeats b : Bool} {leaf : Leaf} {is : List ℕ} {i n : ℕ} {a a' : Argv} {s t : Attempt}
  {log log' : List Move} {taken taken' : List Token}

/-! ## Arguments in groups -/

/-- A pattern of arguments and groups only. -/
inductive Pattern.Worded : Pattern → Prop
  | argument {leaf : Leaf} : Worded (.argument leaf)
  | group {kind : GroupKind} {ps : List Pattern} {repeats : Bool} (h : ∀ c ∈ ps, Worded c) :
      Worded (.group kind ps repeats)

open Pattern (Worded)

namespace Pattern.Worded

theorem of_reaches (hq : Reaches scope p q) (h : Worded p) : Worded q := by
  induction hq with
  | refl => exact h
  | child hc _ ih =>
    cases h with
    | group h => exact ih (h _ hc)
  | value | branch | entry => cases h

/-- All that is reached is inside. -/
theorem slot_mem (hq : Reaches scope p q) (h : Worded p) (hi : q.slot? = some i) :
    i ∈ slots [p] := by
  induction hq with
  | refl => exact mem_slots_self hi
  | child hc _ ih =>
    cases h with
    | group h =>
      rw [slots_group]
      exact mem_slots_of_mem hc (ih (h _ hc) hi)
  | value | branch | entry => cases h

theorem get_eq (h : Worded p) (run : Run scope n false p s log b t) (hi : i ∉ slots [p]) :
    t.slots.get i = s.slots.get i :=
  (run.untouched fun _ hq he => hi (h.slot_mem hq he)).get_eq

end Pattern.Worded

/-- A token that an argument takes, if it stands in front. -/
def Token.Servable (u : Token) : Prop :=
  u.isDoubleDash = false ∧ (u.kind = .value ∨ u.kind = .literal ∨ looksLikeOption u.text = false)

theorem Positional.accepts_argument_iff {u : Token} :
    (Positional.argument leaf).accepts 0 u = true ↔
      u.kind = .value ∨ u.kind = .literal ∨ looksLikeOption u.text = false := by
  simp only [Positional.accepts, ne_eq, not_true_eq_false, false_or]
  split
  next h => exact ⟨fun _ => h.imp_right .inl, fun _ => rfl⟩
  next h =>
    rw [Bool.not_eq_true']
    exact ⟨fun hl => .inr (.inr hl), fun hl => (hl.resolve_left fun hv => h (.inl hv)).resolve_left
      fun hl => h (.inr hl)⟩

/-- Arguments of some slots have taken the first tokens. -/
structure Feeds (is : List ℕ) (a : Argv) (log : List Move) (taken : List Token) (a' : Argv) :
    Prop where
  autoDashes_eq : a'.autoDashes = false
  moves : ∀ m ∈ log, ∃ i ∈ is, m = .take i 0
  length_eq : log.length = taken.length
  tokens_eq : a.tokens = taken ++ a'.tokens
  servable : ∀ u ∈ taken, u.Servable

namespace Feeds

theorem still (ha : a'.autoDashes = false) (ht : a'.tokens = a.tokens) : Feeds is a [] [] a' where
  autoDashes_eq := ha
  moves := nofun
  length_eq := rfl
  tokens_eq := ht.symm
  servable := nofun

theorem trans {c : Argv} (h : Feeds is a log taken a') (h' : Feeds is a' log' taken' c) :
    Feeds is a (log ++ log') (taken ++ taken') c where
  autoDashes_eq := h'.autoDashes_eq
  moves := List.forall_mem_append.mpr ⟨h.moves, h'.moves⟩
  length_eq := by rw [List.length_append, List.length_append, h.length_eq, h'.length_eq]
  tokens_eq := by rw [h.tokens_eq, h'.tokens_eq, List.append_assoc]
  servable := List.forall_mem_append.mpr ⟨h.servable, h'.servable⟩

theorem taken_eq {js : List ℕ} (h : Feeds is a log taken a') (h' : Feeds js a log' taken' a') :
    taken = taken' := List.append_cancel_right (h.tokens_eq.symm.trans h'.tokens_eq)

theorem mono {js : List ℕ} (h : Feeds is a log taken a') (hi : is ⊆ js) :
    Feeds js a log taken a' where
  autoDashes_eq := h.autoDashes_eq
  moves m hm := by
    obtain ⟨i, hmem, rfl⟩ := h.moves m hm
    exact ⟨i, hi hmem, rfl⟩
  length_eq := h.length_eq
  tokens_eq := h.tokens_eq
  servable := h.servable

/-- An argument takes the first token, or none. -/
theorem argument (ha : s.argv.autoDashes = false)
    (h : (Positional.argument leaf).Runs false s log b t) :
    ∃ taken, Feeds [leaf.slot] s.argv log taken t.argv ∧
      (t.slots.get leaf.slot).texts = (s.slots.get leaf.slot).texts ++ taken.map (·.text) := by
  cases h with
  | filled | barred => exact ⟨[], still ha rfl, (List.append_nil _).symm⟩
  | refused =>
    refine ⟨[], still ?_ s.argv.positional_tokens, (List.append_nil _).symm⟩
    rw [Argv.positional_eq]
    exact ha
  | taken hw _ hpl hu hacc =>
    obtain ⟨rfl, u, rest, htokens, hd⟩ := Argv.positional_of_not_autoDashes ha hpl
    rw [htokens] at hu
    obtain rfl := Option.some.inj hu
    refine ⟨[u], ⟨?_, ?_, rfl, ?_, ?_⟩, ?_⟩
    · rw [Argv.positional_eq]
      exact ha
    · exact List.forall_mem_singleton.mpr ⟨_, List.mem_singleton_self _, rfl⟩
    · rw [Argv.remove, Argv.positional_tokens, htokens]
      rfl
    · exact List.forall_mem_singleton.mpr ⟨hd, Positional.accepts_argument_iff.mp hacc⟩
    · have hempty : (s.slots.get leaf.slot).texts = [] := by
        simp only [Bool.not_false, Bool.true_and, Positional.isFilled] at hw
        cases hs : s.slots.get leaf.slot <;> simp_all [Slot.hasText, Slot.texts]
      rw [hempty, List.nil_append, Positional.slot, Slots.get_modify_self]
      rfl

/-- A pattern of arguments of some slots. -/
theorem carries (scope : Scope) (is : List ℕ) :
    Carries scope (fun p => ∃ leaf : Leaf, p = .argument leaf ∧ leaf.slot ∈ is) (fun _ _ _ => True)
      fun s log t => s.argv.autoDashes = false → ∃ taken, Feeds is s.argv log taken t.argv where
  still hst ht _ hs := ⟨[], still (hst.autoDashes_eq.trans hs) ht⟩
  trans h h' hs := by
    obtain ⟨_, hfeeds⟩ := h hs
    obtain ⟨_, hfeeds'⟩ := h' hfeeds.autoDashes_eq
    exact ⟨_, hfeeds.trans hfeeds'⟩
  part {_ n _ _ _ _} hp run hs := by
    obtain ⟨leaf, rfl, hi⟩ := hp
    cases n with
    | zero => exact run.elim
    | succ n =>
      obtain ⟨taken, hfeeds, -⟩ := argument hs run
      exact ⟨taken, hfeeds.mono (List.cons_subset.mpr ⟨hi, List.nil_subset _⟩)⟩
  lend _ hl hs := ⟨[], still (hl.argv_eq ▸ hs) (hl.argv_eq ▸ rfl)⟩
  repeats _ _ ho hu hp _ := by
    have passes := hp.chain
      (C := fun a log b => a.autoDashes = false → ∃ taken, Feeds is a log taken b)
      (fun _ hs => ⟨[], still hs rfl⟩) (fun _ _ _ _ _ h h' hs => by
        obtain ⟨_, hfeeds⟩ := h hs
        obtain ⟨_, hfeeds'⟩ := h' hfeeds.autoDashes_eq
        exact ⟨_, hfeeds.trans hfeeds'⟩) ho hu
    exact passes

end Feeds

/-- The arguments of a pattern take tokens from the front of a stream without marks. -/
theorem Pattern.Worded.feeds (h : Worded p) (ha : s.argv.autoDashes = false)
    (run : Run scope n false p s log b t) : ∃ taken, Feeds (slots [p]) s.argv log taken t.argv := by
  have hbuilt {q : Pattern} (hq : Worded q) (hsub : slots [q] ⊆ slots [p]) :
      Built scope (fun q => ∃ leaf : Leaf, q = .argument leaf ∧ leaf.slot ∈ slots [p])
        (fun _ _ _ => True) q := by
    induction hq with
    | argument => exact .part ⟨_, rfl, hsub (List.mem_singleton_self _)⟩
    | group _ ih =>
      rw [Pattern.slots_group] at hsub
      exact .group trivial fun c hc =>
        ih c hc fun i hi => hsub (Pattern.mem_slots_of_mem hc hi)
  exact (hbuilt h (List.Subset.refl _)).run (Feeds.carries scope _) run ha

/-! ## One argument -/

/-- Without a repeating group in front of others, nothing is lent. -/
theorem Lending.not_lends {line : List Pattern}
    (hl : ∀ c ∈ line.dropLast, c.isRepeatingGroup = false) : ¬ Lends line s t := by
  rintro ⟨hloan, -, -⟩
  obtain ⟨before, children, rest, hsplit⟩ := splits_of_loan? hloan
  have hrest : rest ≠ [] := by
    rintro rfl
    exact hsplit.borrowers_ne (Option.some.inj hsplit.borrowers_eq).symm
  obtain ⟨kind, hmem⟩ : ∃ kind, .group kind children true ∈ line.dropLast := by
    rw [hsplit.line_eq, List.dropLast_append_cons, List.dropLast_cons_of_ne_nil hrest]
    exact ⟨_, List.mem_append_right _ List.mem_cons_self⟩
  cases hl _ hmem

/-- A single argument in groups of any kind, which may repeat. -/
inductive Serial : Pattern → Leaf → Prop
  | argument {leaf : Leaf} : Serial (.argument leaf) leaf
  | group {kind : GroupKind} {p : Pattern} {repeats : Bool} {leaf : Leaf} (h : Serial p leaf) :
      Serial (.group kind [p] repeats) leaf

namespace Serial

theorem worded (h : Serial p leaf) : p.Worded := by
  induction h with
  | argument => exact .argument
  | group _ ih => exact .group (List.forall_mem_singleton.mpr ih)

theorem slots_eq (h : Serial p leaf) : slots [p] = [leaf.slot] := by
  induction h with
  | argument => rfl
  | group _ ih => rwa [Pattern.slots_group]

theorem mem_atoms (h : Serial p leaf) : .argument leaf ∈ p.atoms := by
  induction h with
  | argument => exact List.mem_singleton_self _
  | group _ ih => exact List.mem_append_left _ ih

theorem texts_eq (h : Serial p leaf) (s : Slots) : p.texts s = (s.get leaf.slot).texts := by
  induction h with
  | argument => rfl
  | group _ ih => simp [Pattern.texts, Pattern.textsAll, ih]

theorem eq_of_slot? (h : Serial p leaf) (hq : Reaches scope p q) (hi : q.slot? = some i) :
    q = .argument leaf := by
  induction h with
  | argument =>
    cases hq
    rfl
  | group _ ih =>
    cases hq with
    | refl => cases hi
    | child hc hq => exact ih (List.mem_singleton.mp hc ▸ hq)

/-- What one argument takes in all its passes is appended to its slot. -/
def Appends (leaf : Leaf) (s : Attempt) (log : List Move) (t : Attempt) : Prop :=
  s.argv.autoDashes = false → ∃ taken, Feeds [leaf.slot] s.argv log taken t.argv ∧
    (t.slots.get leaf.slot).texts = (s.slots.get leaf.slot).texts ++ taken.map (·.text)

theorem trail (leaf : Leaf) : Trail (·.autoDashes = false) fun a log xs b =>
    ∃ taken, Feeds [leaf.slot] a log taken b ∧ xs = taken.map (·.text) where
  refl ha := ⟨[], .still ha rfl, rfl⟩
  trans := by
    rintro _ _ _ _ _ _ _ ⟨_, h, rfl⟩ ⟨_, h', rfl⟩
    exact ⟨_, h.trans h', List.map_append.symm⟩
  good := by
    rintro _ _ _ _ - ⟨_, h, -⟩
    exact h.autoDashes_eq

theorem carries (scope : Scope) (leaf : Leaf) :
    Carries scope (· = .argument leaf) (fun _ ps _ => ∃ p, ps = [p] ∧ Serial p leaf)
      (Appends leaf) where
  still hst ht hs ha := ⟨[], .still (hst.autoDashes_eq.trans ha) ht, by simp [hs]⟩
  trans h h' ha := by
    obtain ⟨_, hfeeds, htexts⟩ := h ha
    obtain ⟨_, hfeeds', htexts'⟩ := h' hfeeds.autoDashes_eq
    refine ⟨_, hfeeds.trans hfeeds', ?_⟩
    rw [htexts', htexts, List.map_append, List.append_assoc]
  part {_ n _ _ _ _} hp run ha := by
    subst hp
    cases n with
    | zero => exact run.elim
    | succ n => exact Feeds.argument ha run
  lend hl h := by
    obtain ⟨p, rfl, -⟩ := hl
    exact absurd h (Lending.not_lends nofun)
  repeats {_ ps once leaves _ s _ _} hl hr ho hu hp _ ha := by
    obtain ⟨p, rfl, hserial⟩ := hl
    have hi : ∀ r ∈ leaves, r.slot = leaf.slot → r = ⟨.texts, leaf.slot⟩ := fun r hmem _ => by
      obtain ⟨q, hq, hrecord⟩ := (hr r).mp hmem
      obtain rfl := (Serial.group hserial).eq_of_slot? hq (i := r.slot)
        (by simp [Pattern.slot?, hrecord])
      exact (Option.some.inj hrecord).symm
    obtain ⟨xs, ⟨taken, hfeeds, rfl⟩, htexts⟩ := (trail leaf).repeats (fun s log b t ha run => by
      obtain ⟨taken, hfeeds, htexts⟩ := ho s log b t run ha
      exact ⟨_, ⟨taken, hfeeds, rfl⟩, htexts⟩) hu hi ha hp
    exact ⟨taken, hfeeds, htexts⟩

theorem built (h : Serial p leaf) :
    Built scope (· = .argument leaf) (fun _ ps _ => ∃ p, ps = [p] ∧ Serial p leaf) p := by
  induction h with
  | argument => exact .part rfl
  | group h ih => exact .group ⟨_, rfl, h⟩ (List.forall_mem_singleton.mpr ih)

theorem appends (h : Serial p leaf) (run : Run scope n false p s log b t) : Appends leaf s log t :=
  h.built.run (carries scope leaf) run

end Serial

end Synopsis
