import Synopsis.Proofs.Matcher.ValueLines

/-! # Deliveries

The value of an option holds what the option got, in the order in which it got it: all that
the moves of a match gave to the option, one behind the other.
-/

namespace Synopsis

open Pattern (Reaches slots Built Worded)

variable {scope : Scope} {o : OptionAtom} {w p q : Pattern} {again b : Bool} {style : OptionStyle}
  {names : Names} {a : Argv} {x : Token} {attached : Option String} {name : String} {i k n : ℕ}
  {xs ys l : Tagged} {s t : Attempt} {S S' : Slots} {log : List Move} {us : List Token}

/-! ## Values -/

/-- A value pattern that holds its texts as it takes them. Several arguments do so only once. -/
inductive InLine (again : Bool) (w : Pattern) : Prop
  | serial {leaf : Leaf} (h : Serial w leaf) : InLine again w
  | orderly (ha : again = false) (h : Orderly w) : InLine again w

namespace InLine

theorem worded (h : InLine again w) : w.Worded := by
  cases h with
  | serial h => exact h.worded
  | orderly _ h => exact h.worded

theorem takes (h : InLine again w) (hd : (slots [w]).Nodup)
    (hs : again = false → ∀ i ∈ slots [w], (s.slots.get i).texts = [])
    (ha : s.argv.autoDashes = false) (ho : s.argv.optionOnly = false)
    (run : Run scope n false w s log b t) : ∃ taken, Feeds (slots [w]) s.argv log taken t.argv ∧
      w.texts t.slots = w.texts s.slots ++ taken.map (·.text) := by
  cases h with
  | serial h =>
    rw [h.slots_eq, h.texts_eq, h.texts_eq]
    exact h.appends run ha
  | orderly hagain h => exact h.takes hd (hs hagain) ha ho run

end InLine

/-! ## Single takes -/

/-- A flag that begins with one of some names. -/
def Token.BeginsWith (style : OptionStyle) (names : Names) (x : Token) : Prop :=
  x.kind = .flag ∧ (Argv.spelledBy? style names x.text).isSome = true

instance : Decidable (x.BeginsWith style names) :=
  inferInstanceAs (Decidable (_ ∧ _))

/-- Before the flag that is found, there is none of the same names. -/
theorem Argv.not_beginsWith_of_findOption? {found : Found} {ts us : List Token}
    (h : a.findOption? names i (ts ++ us) = some found) (hi : found.index = i + ts.length) :
    ∀ u ∈ ts, ¬ u.BeginsWith a.style names := by
  induction ts generalizing i with
  | nil => exact nofun
  | cons u ts ih =>
    simp only [List.cons_append, findOption?] at h
    have hnext (h : a.findOption? names (i + 1) (ts ++ us) = some found) :
        ∀ u ∈ ts, ¬ u.BeginsWith a.style names :=
      ih h (by rw [hi, List.length_cons, Nat.add_comm ts.length, Nat.add_assoc])
    split at h
    next => cases h
    next =>
      split at h
      next hk =>
        split at h
        next =>
          obtain rfl := Option.some.inj h
          exact absurd hi (Nat.ne_of_lt (Nat.lt_add_of_pos_right ts.length.succ_pos))
        next hnone =>
          refine List.forall_mem_cons.mpr ⟨?_, hnext h⟩
          rintro ⟨-, hs⟩
          rw [hnone] at hs
          cases hs
      next hk => exact List.forall_mem_cons.mpr ⟨fun hu => hk hu.1, hnext h⟩

/-- What an option gets from the flag `x` at `k` and from what stands behind, and what is left
of both. -/
inductive Serves (style : OptionStyle) (names : Names) (x : Token) (k : ℕ) (ys : Tagged) :
    List (String × ℕ) → Tagged → Prop
  | attached {name text : String} (hx : Argv.spelledBy? style names x.text = some (name, some text)) :
      Serves style names x k ys [(text, k)] ys
  | separate {name : String} {attached : Option String} {left : List Token} {given after : Tagged}
      (hx : Argv.spelledBy? style names x.text = some (name, attached))
      (hleft : OptionOf.Stays style x attached left) (ha : attached = none ∨ style.attached = false)
      (hys : ys = given ++ after) :
      Serves style names x k ys (Tagged.texts given) (left.map (·, k) ++ after)

theorem OptionOf.Spends.serves (hw : o.value = some w) (hwords : w.Worded)
    (hd : (slots [w]).Nodup) (hx : Argv.spelledBy? style o.names x.text = some (name, attached))
    (h : o.Spends (Run scope n false) style (xs.map (·.1)) x attached (ys.map (·.1)) S log us S') :
    ∃ rest, Move.replay log (xs ++ (x, k) :: ys) = xs ++ rest ∧
      Serves style o.names x k ys (o.receipts style log (xs ++ (x, k) :: ys)) rest ∧
      ∀ again, InLine again w → (again = false → ∀ i ∈ slots [w], (S.get i).texts = []) →
        w.texts S' = w.texts S ++ (o.receipts style log (xs ++ (x, k) :: ys)).map (·.1) := by
  cases h with
  | flag hv => simp [hw] at hv
  | @attached p text u log' hov hr _ run he =>
    obtain rfl := Option.some.inj (hw.symm.trans hov)
    subst hr
    obtain ⟨taken, hfeeds⟩ := hwords.feeds rfl run
    obtain rfl : [⟨text, .value⟩] = taken := by
      have htokens := hfeeds.tokens_eq
      rwa [he, List.append_nil] at htokens
    have hreceipts : o.receipts style [.flag o.slot (xs.map (·.1)).length false]
        (xs ++ (x, k) :: ys) = [(text, k)] := by
      simp [OptionOf.receipts, OptionOf.receipt, hx]
    rw [hreceipts]
    refine ⟨ys, ?_, .attached hx, fun again hl hs => ?_⟩
    · rw [List.length_map, Move.replay_flag]
    · obtain ⟨taken', hfeeds', htexts⟩ := hl.takes hd hs rfl rfl run
      rwa [hfeeds'.taken_eq hfeeds] at htexts
  | @separate p left given kept u log' hov hleft hattached hg run =>
    obtain rfl := Option.some.inj (hw.symm.trans hov)
    obtain ⟨kept, given, rfl, hnil, rfl, rfl⟩ := Tagged.exists_given hg
    obtain ⟨taken, hfeeds⟩ := hwords.feeds rfl run
    have hmoves : ∀ m ∈ log', ∃ i ∈ slots o.value.toList, m = .take i 0 := by
      rw [hw]
      exact hfeeds.moves
    obtain ⟨hreceipts, hreplay⟩ : o.receipts style log' given = _ ∧ Move.replay log' given = _ :=
      OptionOf.receipts_of_takes hmoves
    have htaken : (given.take log'.length).map (·.1) = taken := by
      have htokens : given.map (·.1) = taken ++ u.argv.tokens := hfeeds.tokens_eq
      rw [List.map_take, htokens, hfeeds.length_eq, List.take_left]
    simp only [List.length_append, List.length_map]
    rw [hleft.replay hx, hleft.receipts hx, hreceipts, hreplay]
    refine ⟨left.map (·, k) ++ (kept ++ given.drop log'.length), ?_, .separate hx hleft hattached ?_,
      fun again hl hs => ?_⟩
    · simp only [List.append_assoc]
    · rcases hnil with rfl | rfl
      · exact (List.take_append_drop _ _).symm
      · simp
    · obtain ⟨taken', hfeeds', htexts⟩ := hl.takes hd hs rfl rfl run
      rw [htexts, hfeeds'.taken_eq hfeeds, ← htaken]
      simp [Tagged.texts, Function.comp_def]

/-! ## Runs of the option -/

/-- Several arguments that still wait have no texts. -/
def Vacant (again : Bool) (o : OptionAtom) (w : Pattern) (S : Slots) : Prop :=
  again = false → (S.get o.slot).isTruthy = true ∨ ∀ i ∈ slots [w], (S.get i).texts = []

theorem Vacant.congr (h : Vacant again o w S) (ho : S'.get o.slot = S.get o.slot)
    (hs : ∀ i ∈ slots [w], S'.get i = S.get i) : Vacant again o w S' := by
  intro ha
  rw [ho]
  refine (h ha).imp_right fun hempty i hi => ?_
  rw [hs i hi]
  exact hempty i hi

/-- An option that runs is met already, or not there, or gets something. -/
inductive OptionOf.Gets (o : OptionAtom) (w : Pattern) (s : Attempt) (log : List Move) (l : Tagged)
    (t : Attempt) : Prop
  | nothing (hlog : log = []) (ht : t = s)
  | values {xs ys rest : Tagged} {x : Token} {k : ℕ} (hs : (s.slots.get o.slot).isTruthy = false)
      (ht : (t.slots.get o.slot).isTruthy = true) (hl : l = xs ++ (x, k) :: ys)
      (hxs : ∀ e ∈ xs, ¬ e.1.BeginsWith s.argv.style o.names) (hx : x.BeginsWith s.argv.style o.names)
      (hrest : Move.replay log l = xs ++ rest)
      (hserves : Serves s.argv.style o.names x k ys (o.receipts s.argv.style log l) rest)
      (htexts : ∀ again, InLine again w → Vacant again o w s.slots →
        w.texts t.slots = w.texts s.slots ++ (o.receipts s.argv.style log l).map (·.1))

theorem OptionOf.Runs.gets (hw : o.value = some w) (hwords : w.Worded)
    (hd : (slots [.option o]).Nodup) (htok : Tokenized s.argv.tokens) (hlist : l.map (·.1) = s.argv.tokens)
    (h : o.Runs (Run scope n false) false s log b t) : o.Gets w s log l t := by
  rw [Pattern.slots_option hw] at hd
  obtain ⟨hne, hdw⟩ := List.nodup_cons.mp hd
  cases h with
  | filled | absent => exact .nothing rfl rfl
  | @found _ _ _ found a hunmet hf hc =>
    have hmet : (s.slots.get o.slot).isTruthy = false := hunmet
    obtain ⟨xs, x, ys, htokens, hindex, hk, hx, hspends⟩ := spends_of_completes htok hf hc
    rw [htokens] at hlist
    obtain ⟨xs, k, ys, rfl, rfl, rfl⟩ := Tagged.exists_of_map_eq hlist
    have hsame (i : ℕ) (hi : i ∈ slots [w]) :
        (s.slots.modify o.slot (Slot.hit false)).get i = s.slots.get i :=
      Slots.get_modify_of_ne (ne_of_mem_of_not_mem hi hne)
    obtain ⟨rest, hrest, hserves, htexts⟩ := hspends.serves hw hwords hdw hx
    rw [hwords.texts_congr hsame] at htexts
    refine .values hmet ?_ rfl ?_ ⟨hk, by rw [hx]; rfl⟩ hrest hserves fun again hl hs => ?_
    · have hhit : (t.slots.get o.slot) = (s.slots.modify o.slot (Slot.hit false)).get o.slot := by
        rcases hc.value_run with ⟨hslots, -⟩ | ⟨v, s', log', t', hv, run, hs', ht', -⟩
        · exact congrArg (Slots.get · o.slot) hslots
        · obtain rfl := Option.some.inj (hw.symm.trans hv)
          have hkept := hwords.get_eq run hne
          rwa [hs', ht'] at hkept
      rw [hhit, Slots.get_modify_self]
      rfl
    · have hfound : s.argv.findOption? o.names 0 (xs.map (·.1) ++ x :: ys.map (·.1)) = some found := by
        obtain ⟨_, hfound, he⟩ := Option.map_eq_some_iff.mp hf
        rw [← (Prod.mk.inj he).1, ← hfound, htokens]
      have hnot := Argv.not_beginsWith_of_findOption? hfound (by rw [← hindex, Nat.zero_add])
      exact fun e he => hnot e.1 (List.mem_map_of_mem he)
    · refine htexts again hl fun ha i hi => ?_
      rw [hsame i hi]
      exact (hs ha).resolve_left (by simp [hmet]) i hi

/-! ## Patterns around the option -/

/-- A pattern without the names and the slots of an option. -/
structure Elsewhere (o : OptionAtom) (q : Pattern) : Prop where
  names_apart : ∀ p, q = .option p → ∀ name ∈ p.names.toList, o.names.contains name = false
  slots_apart : ∀ i ∈ slots [.option o], q.slot? ≠ some i

/-- A pattern that leads elsewhere, or the option itself. -/
def OptionOf.Part (scope : Scope) (o : OptionAtom) (p : Pattern) : Prop :=
  (∀ q, Reaches scope p q → Elsewhere o q) ∨ p = .option o

/-- A group around the option. What shares a slot with the option is a part of it. -/
structure OptionOf.Line (scope : Scope) (o : OptionAtom) (again : Bool) (kind : GroupKind)
    (ps : List Pattern) (repeats : Bool) : Prop where
  again_eq : repeats = true → again = true
  lenders : ∀ r : Positional, r.pattern ∈ ps.flatMap Pattern.leaves → r.slot ∉ slots [.option o]
  unique : ∀ q q' i, Reaches scope (.group kind ps repeats) q → q' ∈ (Pattern.option o).atoms →
    q.slot? = some i → q'.slot? = some i → q = q'

theorem Elsewhere.untouched (h : ∀ q, Reaches scope p q → Elsewhere o q)
    (run : Run scope n false p s log b t) (hi : i ∈ slots [.option o]) : Untouched i s log t :=
  run.untouched fun q hq => (h q hq).slots_apart i hi

theorem OptionOf.Line.untouched {kind : GroupKind} {ps : List Pattern} {repeats : Bool}
    (hline : o.Line scope again kind ps repeats) (h : Lending.Lends ps s t)
    (hi : i ∈ slots [.option o]) : Untouched i s [] t := by
  refine ⟨?_, nofun⟩
  apply h.get_of_forall_ne
  rintro r hr rfl
  exact hline.lenders r hr hi

/-- A value holds in addition what the moves gave to its option. -/
structure Delivers (style : OptionStyle) (again : Bool) (o : OptionAtom) (w : Pattern) (s : Attempt)
    (log : List Move) (t : Attempt) : Prop extends Replays s.argv log t.argv where
  delivered : s.argv.style = style → Tokenized s.argv.tokens → Vacant again o w s.slots →
    Vacant again o w t.slots ∧ ∀ l : Tagged, l.map (·.1) = s.argv.tokens →
      w.texts t.slots = w.texts s.slots ++ (o.receipts style log l).map (·.1)

namespace Delivers

variable {u : Attempt} {log' : List Move}

theorem trans (h : Delivers style again o w s log t) (h' : Delivers style again o w t log' u) :
    Delivers style again o w s (log ++ log') u where
  toReplays := h.toReplays.trans h'.toReplays
  delivered hstyle htok hs := by
    obtain ⟨ht, htexts⟩ := h.delivered hstyle htok hs
    obtain ⟨hu, htexts'⟩ := h'.delivered (h.style_eq.trans hstyle) (h.tokenized htok) ht
    refine ⟨hu, fun l hl => ?_⟩
    rw [htexts' _ (h.replayed htok l hl), htexts l hl, OptionOf.receipts_append, List.map_append,
      List.append_assoc]

section

variable (hw : o.value = some w) (hl : InLine again w) (hd : (slots [.option o]).Nodup)

include hw hl in
/-- Where nothing happens to the slots of the option, it gets nothing. -/
theorem of_untouched (hr : Replays s.argv log t.argv)
    (h : ∀ i ∈ slots [.option o], Untouched i s log t) : Delivers style again o w s log t where
  toReplays := hr
  delivered _ _ hs := by
    have hget (i : ℕ) (hi : i ∈ slots [w]) : t.slots.get i = s.slots.get i :=
      (h i (Pattern.slots_option hw ▸ List.mem_cons_of_mem _ hi)).get_eq
    have hslot : o.slot ∈ slots [.option o] := Pattern.slots_option hw ▸ List.mem_cons_self
    refine ⟨hs.congr (h _ hslot).get_eq hget, fun l _ => ?_⟩
    rw [OptionOf.receipts_eq_nil fun m hm hi => (h _ hi).moves m hm rfl, List.map_nil,
      List.append_nil, hl.worded.texts_congr hget]

include hw hl hd in
theorem option (run : o.Runs (Run scope n false) false s log b t) (hr : Replays s.argv log t.argv) :
    Delivers style again o w s log t where
  toReplays := hr
  delivered hstyle htok hs := by
    subst hstyle
    constructor
    · cases run.gets hw hl.worded hd htok (l := s.argv.tokens.map (·, 0)) (by simp [Function.comp_def]) with
      | nothing _ ht => exact ht ▸ hs
      | values _ ht => exact fun _ => .inl ht
    · intro l hlist
      cases run.gets hw hl.worded hd htok hlist with
      | nothing hlog ht =>
        subst hlog ht
        exact (List.append_nil _).symm
      | values _ _ _ _ _ _ _ htexts => exact htexts again hl hs

/-- What an option gets between two streams. -/
theorem trail (style : OptionStyle) (o : OptionAtom) :
    Trail (fun a => a.style = style ∧ Tokenized a.tokens) fun a log got b => Replays a log b ∧
      (Tokenized a.tokens → ∀ l : Tagged, l.map (·.1) = a.tokens →
        (o.receipts style log l).map (·.1) = got) where
  refl _ := ⟨.still rfl rfl, fun _ _ _ => rfl⟩
  trans := by
    rintro a b c log log' _ _ ⟨h, hgot⟩ ⟨h', hgot'⟩
    refine ⟨h.trans h', fun htok l hl => ?_⟩
    rw [OptionOf.receipts_append, List.map_append, hgot htok l hl,
      hgot' (h.tokenized htok) _ (h.replayed htok l hl)]
  good := by
    rintro a b _ _ ⟨hstyle, htok⟩ ⟨h, -⟩
    exact ⟨h.style_eq.trans hstyle, h.tokenized htok⟩

include hw in
/-- The one argument of a repeating group holds what it got in all passes. -/
theorem repeats {kind : GroupKind} {ps : List Pattern} {once : Step} {leaves : List Recorded}
    {history : List Slots} {leaf : Leaf} (hserial : Serial w leaf)
    (hline : o.Line scope again kind ps true)
    (hr : ∀ r, r ∈ leaves ↔ ∃ q, Reaches scope (.group kind ps true) q ∧ q.ownRecord? = some r)
    (ho : ∀ s log b t, once s log b t → Delivers style again o w s log t)
    (hu : ∀ s log t, once s log false t → Undone s log t)
    (hp : RepeatPasses once leaves [] s log history t) :
    Delivers style again o w s log
      ⟨Recorded.mergeAll leaves (s.slots :: history.reverse) t.slots, t.argv⟩ := by
  have hagain : again = true := hline.again_eq rfl
  have hvacant (S : Slots) : Vacant again o w S := by
    intro ha
    rw [hagain] at ha
    cases ha
  have hleaf : ∀ r ∈ leaves, r.slot = leaf.slot → r = ⟨.texts, leaf.slot⟩ := by
    intro r hmem hslot
    obtain ⟨q, hq, hown⟩ := (hr r).mp hmem
    have hatom : .argument leaf ∈ (Pattern.option o).atoms := by
      rw [Pattern.atoms_option, hw]
      exact List.mem_cons_of_mem _ hserial.mem_atoms
    obtain rfl := hline.unique q _ leaf.slot hq hatom (by simp [Pattern.slot?, hown, hslot]) rfl
    exact (Option.some.inj hown).symm
  have hreplays := hp.chain (C := Replays) (fun _ => .still rfl rfl) (fun _ _ _ _ _ => .trans)
    (fun s log b t run => (ho s log b t run).toReplays) hu
  refine ⟨hreplays, fun hstyle htok _ => ⟨hvacant _, fun l hl => ?_⟩⟩
  have step (s : Attempt) (log : List Move) (b : Bool) (t : Attempt)
      (hs : s.argv.style = style ∧ Tokenized s.argv.tokens) (run : once s log b t) :
      ∃ got, (Replays s.argv log t.argv ∧ (Tokenized s.argv.tokens → ∀ l : Tagged,
          l.map (·.1) = s.argv.tokens → (o.receipts style log l).map (·.1) = got)) ∧
        (t.slots.get leaf.slot).texts = (s.slots.get leaf.slot).texts ++ got := by
    have h := ho s log b t run
    obtain ⟨-, htexts⟩ := h.delivered hs.1 hs.2 (hvacant _)
    simp only [hserial.texts_eq] at htexts
    have hfirst := htexts (s.argv.tokens.map (·, 0)) (by simp [Function.comp_def])
    refine ⟨_, ⟨h.toReplays, fun _ l hl => ?_⟩, hfirst⟩
    exact List.append_cancel_left ((htexts l hl).symm.trans hfirst)
  obtain ⟨got, ⟨-, hgot⟩, htexts⟩ := (trail style o).repeats step hu hleaf ⟨hstyle, htok⟩ hp
  rw [hserial.texts_eq, hserial.texts_eq, hgot htok l hl]
  exact htexts

include hw hl hd in
theorem carries (scope : Scope) (style : OptionStyle) :
    Carries scope (o.Part scope) (o.Line scope again) (Delivers style again o w) where
  still hst ht hs := by
    refine of_untouched hw hl (.still ht hst.style_eq) fun i _ => ⟨?_, nofun⟩
    rw [hs]
  trans h h' := h.trans h'
  part {_ n _ _ _ _} hp run := by
    rcases hp with hp | rfl
    · exact of_untouched hw hl run.replays fun i hi => Elsewhere.untouched hp run hi
    · cases n with
      | zero => exact run.elim
      | succ n => exact option hw hl hd run run.replays
  lend hline h := of_untouched hw hl (.still (by rw [h.argv_eq]) (by rw [h.argv_eq]))
    fun _ hi => hline.untouched h hi
  repeats hline hr ho hu hp _ := by
    cases hl with
    | serial hserial => exact repeats hw hserial hline hr ho hu hp
    | orderly ha =>
      rw [hline.again_eq rfl] at ha
      cases ha

end

end Delivers

end Synopsis
