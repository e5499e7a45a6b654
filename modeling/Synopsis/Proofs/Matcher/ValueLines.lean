import Synopsis.Proofs.Matcher.Servings

/-! # Values in line

The arguments of a line are filled one behind the other, if nothing in the line can fail
after it has taken something: what stands behind is tried only when all before is full, or
nothing is left to take.
-/

namespace Synopsis

open Pattern (Reaches slots Built Worded)

variable {scope : Scope} {p q c d : Pattern} {ps cs as bs : List Pattern} {kind : GroupKind}
  {leaf : Leaf} {is : List ℕ} {i k n : ℕ} {a a' : Argv} {s t : Attempt} {S S' : Slots}
  {log : List Move} {taken : List Token} {last last' : Option ℕ} {b : Bool}

/-! ## States of lines -/

theorem Slot.hasText_iff {x : Slot} : x.hasText = true ↔ x.texts ≠ [] := by
  cases x <;> simp [hasText, texts]

/-- Nothing in front is left for an argument. -/
def Blocked (ts : List Token) : Prop := ∀ u ∈ ts.head?, ¬ u.Servable

theorem Feeds.eq_nil_of_blocked (h : Feeds is a log taken a') (hb : Blocked a.tokens) :
    taken = [] := by
  cases taken with
  | nil => rfl
  | cons u taken =>
    have hhead : u ∈ a.tokens.head? := by
      rw [h.tokens_eq]
      rfl
    exact absurd (h.servable u List.mem_cons_self) (hb u hhead)

theorem Feeds.blocked (h : Feeds is a log taken a') (hb : Blocked a.tokens) :
    Blocked a'.tokens := by
  have htokens := h.tokens_eq
  rw [h.eq_nil_of_blocked hb, List.nil_append] at htokens
  rwa [← htokens]

namespace Pattern

theorem textsAll_eq (S : Slots) (ps : List Pattern) : textsAll S ps = ps.flatMap (texts S) := by
  induction ps with
  | nil => rfl
  | cons p ps ih => rw [textsAll, ih, List.flatMap_cons]

theorem Worded.texts_congr (h : p.Worded) (hi : ∀ i ∈ slots [p], S'.get i = S.get i) :
    p.texts S' = p.texts S := by
  induction h with
  | argument => exact congrArg Slot.texts (hi _ (List.mem_singleton_self _))
  | group _ ih =>
    rw [slots_group] at hi
    simp only [texts, textsAll_eq]
    exact List.flatMap_congr fun c hc => ih c hc fun i hmem => hi i (mem_slots_of_mem hc hmem)

theorem Worded.texts_eq_nil (h : p.Worded) (hs : ∀ i ∈ slots [p], (S.get i).texts = []) :
    p.texts S = [] := by
  induction h with
  | argument => exact hs _ (List.mem_singleton_self _)
  | group _ ih =>
    rw [slots_group] at hs
    rw [texts, textsAll_eq, List.flatMap_eq_nil_iff]
    exact fun c hc => ih c hc fun i hi => hs i (mem_slots_of_mem hc hi)

theorem Worded.eq_argument (h : p.Worded) (hp : p.positional?.isSome) :
    ∃ leaf, p = .argument leaf := by
  cases h with
  | argument => exact ⟨_, rfl⟩
  | group => cases hp

end Pattern

theorem Run.hasText (h : Run scope n false (.argument leaf) s log true t) :
    (t.slots.get leaf.slot).hasText = true := by
  cases n with
  | zero => exact h.elim
  | succ n => exact Positional.Runs.isFilled (p := .argument leaf) h

/-- All arguments have their text. -/
inductive Full (S : Slots) : Pattern → Prop
  | argument {leaf : Leaf} (h : (S.get leaf.slot).hasText = true) : Full S (.argument leaf)
  | group {kind : GroupKind} {ps : List Pattern} (h : ∀ c ∈ ps, Full S c) :
      Full S (.group kind ps false)

namespace Full

theorem not_repeating (h : Full S p) : p.isRepeatingGroup = false := by
  cases h <;> rfl

theorem congr (h : Full S p) (hi : ∀ i ∈ slots [p], S'.get i = S.get i) : Full S' p := by
  induction h with
  | argument h => exact .argument (by rwa [hi _ (List.mem_singleton_self _)])
  | group _ ih =>
    rw [Pattern.slots_group] at hi
    exact .group fun c hc => ih c hc fun i hmem => hi i (Pattern.mem_slots_of_mem hc hmem)

theorem carries (scope : Scope) (S : Slots) :
    Carries scope (fun p => ∃ leaf : Leaf, p = .argument leaf ∧ (S.get leaf.slot).hasText = true)
      (fun _ ps repeats => repeats = false ∧ ∀ c ∈ ps, c.isRepeatingGroup = false)
      fun s log t => s.slots = S → t.slots = S ∧ log = [] where
  still _ _ hs h := ⟨hs.trans h, rfl⟩
  trans h h' hs := by
    obtain ⟨ht, rfl⟩ := h hs
    obtain ⟨hu, rfl⟩ := h' ht
    exact ⟨hu, rfl⟩
  part {_ n _ _ _ _} hp run hs := by
    obtain ⟨leaf, rfl, htext⟩ := hp
    subst hs
    cases n with
    | zero => exact run.elim
    | succ n =>
      cases (run : (Positional.argument leaf).Runs false _ _ _ _) with
      | filled => exact ⟨rfl, rfl⟩
      | barred hw | refused hw | taken hw =>
        rw [Bool.not_false, Bool.true_and] at hw
        exact absurd (htext.symm.trans hw) (by decide)
  lend hl h := absurd h (Lending.not_lends fun c hc => hl.2 c ((List.dropLast_sublist _).subset hc))
  repeats hl := by cases hl.1

theorem built (h : Full S p) :
    Built scope (fun p => ∃ leaf : Leaf, p = .argument leaf ∧ (S.get leaf.slot).hasText = true)
      (fun _ ps repeats => repeats = false ∧ ∀ c ∈ ps, c.isRepeatingGroup = false) p := by
  induction h with
  | argument h => exact .part ⟨_, rfl, h⟩
  | group h ih => exact .group ⟨rfl, fun c hc => (h c hc).not_repeating⟩ ih

/-- What is full takes nothing. -/
theorem run (h : Full s.slots p) (run : Run scope n false p s log b t) :
    t.slots = s.slots ∧ log = [] :=
  h.built.run (carries scope s.slots) run rfl

end Full

/-- In all lines, nothing holds a text as long as something before it is not full. -/
inductive Ranked (S : Slots) : Pattern → Prop
  | argument {leaf : Leaf} : Ranked S (.argument leaf)
  | repeated {kind : GroupKind} {ps : List Pattern} : Ranked S (.group kind ps true)
  | group {kind : GroupKind} {ps : List Pattern} (h : ∀ c ∈ ps, Ranked S c)
      (hp : ps.Pairwise fun c d => Full S c ∨ d.texts S = []) : Ranked S (.group kind ps false)

namespace Ranked

theorem congr (hw : p.Worded) (h : Ranked S p) (hi : ∀ i ∈ slots [p], S'.get i = S.get i) :
    Ranked S' p := by
  induction h with
  | argument => exact .argument
  | repeated => exact .repeated
  | group _ hp ih =>
    rw [Pattern.slots_group] at hi
    cases hw with
    | group hw =>
      have hchild {c : Pattern} (hc : c ∈ _) : ∀ i ∈ slots [c], S'.get i = S.get i :=
        fun i hmem => hi i (Pattern.mem_slots_of_mem hc hmem)
      refine .group (fun c hc => ih c hc (hw c hc) (hchild hc)) ?_
      refine hp.imp_of_mem fun {c d} hc hd hcd => ?_
      rw [(hw d hd).texts_congr (hchild hd)]
      exact hcd.imp_left fun hfull => hfull.congr (hchild hc)

theorem of_serial (h : Serial p leaf) : Ranked S p := by
  induction h with
  | argument => exact .argument
  | @group _ _ repeats _ _ ih =>
    cases repeats with
    | true => exact .repeated
    | false => exact .group (List.forall_mem_singleton.mpr ih) (List.pairwise_singleton _ _)

theorem of_fresh (h : p.Worded) (hs : ∀ i ∈ slots [p], (S.get i).texts = []) : Ranked S p := by
  induction h with
  | argument => exact .argument
  | @group kind ps repeats h ih =>
    rw [Pattern.slots_group] at hs
    have hchild {c : Pattern} (hc : c ∈ ps) : ∀ i ∈ slots [c], (S.get i).texts = [] :=
      fun i hi => hs i (Pattern.mem_slots_of_mem hc hi)
    cases repeats with
    | true => exact .repeated
    | false =>
      refine .group (fun c hc => ih c hc (hchild hc)) ?_
      exact List.pairwise_of_forall_mem_list fun _ _ d hd => .inr ((h d hd).texts_eq_nil (hchild hd))

end Ranked

/-! ## Lines -/

/-- A pattern of a line may be tried. What is barred is full. -/
structure Enters (p : Pattern) (s : Attempt) : Prop where
  autoDashes_eq : s.argv.autoDashes = false
  ranked : Ranked s.slots p
  full (ho : s.argv.optionOnly = true) : Full s.slots p

/-- A pattern appends the texts that it takes to those that it holds. -/
structure Queues (p : Pattern) (s : Attempt) (log : List Move) (taken : List Token)
    (t : Attempt) : Prop where
  feeds : Feeds (slots [p]) s.argv log taken t.argv
  texts_eq : p.texts t.slots = p.texts s.slots ++ taken.map (·.text)
  ranked : Ranked t.slots p

theorem Queues.trans {u : Attempt} {log' : List Move} {taken' : List Token}
    (h : Queues p s log taken t) (h' : Queues p t log' taken' u) :
    Queues p s (log ++ log') (taken ++ taken') u where
  feeds := h.feeds.trans h'.feeds
  texts_eq := by rw [h'.texts_eq, h.texts_eq, List.map_append, List.append_assoc]
  ranked := h'.ranked

def Queueing (scope : Scope) (n : ℕ) (p : Pattern) : Prop :=
  ∀ s log b t, Enters p s → Run scope n false p s log b t → ∃ taken, Queues p s log taken t

/-- A pattern stops only when it is full, or nothing is left for it. -/
def Settling (scope : Scope) (n : ℕ) (p : Pattern) : Prop :=
  ∀ s log b t, Enters p s → Run scope n false p s log b t →
    Blocked t.argv.tokens ∨ Full t.slots p

/-- The state of a line between two passes. -/
structure Ordered (cs : List Pattern) (last : Option ℕ) (S : Slots) : Prop where
  ranked : ∀ c ∈ cs, Ranked S c
  pairwise : cs.Pairwise fun c d => Full S c ∨ d.texts S = []
  full : ∀ k ∈ last, ∀ c ∈ cs.take (k + 1), Full S c

namespace Ordered

/-- What is barred stands before a pattern that has its text. -/
theorem enters (h : Ordered (as ++ c :: bs) last s.slots) (ha : s.argv.autoDashes = false) :
    Enters c (s.aimed as.length last) where
  autoDashes_eq := ha
  ranked := h.ranked c (by simp)
  full ho := by
    cases last with
    | none => cases ho
    | some k =>
      have hle : as.length ≤ k := of_decide_eq_true ho
      refine h.full k rfl c (List.mem_of_getElem? (i := as.length) ?_)
      rw [List.getElem?_take_of_lt (Nat.lt_succ_of_le hle),
        List.getElem?_append_right (Nat.le_refl _), Nat.sub_self, List.getElem?_cons_zero]

section Step

variable (hd : (slots (as ++ c :: bs)).Nodup) (hw : ∀ d ∈ as ++ c :: bs, d.Worded)
  (run : Run scope n false c s log b t)

theorem mem_of_beside (hmem : d ∈ as ++ bs) : d ∈ as ++ c :: bs := by
  rw [List.mem_append, List.mem_cons]
  exact (List.mem_append.mp hmem).imp_right .inr

theorem eq_or_beside (hmem : d ∈ as ++ c :: bs) : d = c ∨ d ∈ as ++ bs := by
  rwa [List.mem_append, List.mem_cons, or_left_comm, ← List.mem_append] at hmem

include hd hw run

/-- Beside the pattern that is tried, nothing changes. -/
theorem get_eq (hmem : d ∈ as ++ bs) : ∀ i ∈ slots [d], t.slots.get i = s.slots.get i := by
  intro i hi
  have hi' : i ∉ slots [c] := by
    have hperm : (slots (as ++ c :: bs)).Perm (slots [c] ++ slots (as ++ bs)) := by
      rw [Pattern.slots_append, Pattern.slots_cons, Pattern.slots_append, ← List.append_assoc,
        ← List.append_assoc]
      exact List.perm_append_comm.append_right _
    have hdisjoint := (List.nodup_append'.mp (hperm.nodup_iff.mp hd)).2.2
    exact fun hc => hdisjoint hc (Pattern.mem_slots_of_mem hmem hi)
  exact (hw c (by simp)).get_eq run hi'

theorem texts_beside (hmem : d ∈ as ++ bs) : d.texts t.slots = d.texts s.slots :=
  (hw d (mem_of_beside hmem)).texts_congr (get_eq hd hw run hmem)

theorem full_of_full (hmem : d ∈ as ++ c :: bs) (hf : Full s.slots d) : Full t.slots d := by
  rcases eq_or_beside hmem with rfl | hmem'
  · exact (hf.run run).1.symm ▸ hf
  · exact hf.congr (get_eq hd hw run hmem')

variable (h : Ordered (as ++ c :: bs) last s.slots) (hq : Queues c s log taken t)
include h hq

/-- What is taken is taken where all before is full. -/
theorem pairwise_step (hdone : Blocked s.argv.tokens ∨ ∀ a ∈ as, Full s.slots a) :
    (as ++ c :: bs).Pairwise fun d e => Full t.slots d ∨ e.texts t.slots = [] := by
  have hfull {d : Pattern} (hmem : d ∈ as ++ c :: bs) := full_of_full hd hw run hmem
  have hkeep {d e : Pattern} (hdmem : d ∈ as ++ c :: bs) (hemem : e ∈ as ++ bs)
      (hde : Full s.slots d ∨ e.texts s.slots = []) : Full t.slots d ∨ e.texts t.slots = [] :=
    hde.imp (hfull hdmem) fun he => (texts_beside hd hw run hemem).trans he
  obtain ⟨has, hcbs, hacross⟩ := List.pairwise_append.mp h.pairwise
  obtain ⟨hc, hbs⟩ := List.pairwise_cons.mp hcbs
  refine List.pairwise_append.mpr ⟨?_, List.pairwise_cons.mpr ⟨?_, ?_⟩, ?_⟩
  · exact has.imp_of_mem fun ha hd => hkeep (List.mem_append_left _ ha) (List.mem_append_left _ hd)
  · exact fun d hmem => hkeep (by simp) (List.mem_append_right _ hmem) (hc d hmem)
  · exact hbs.imp_of_mem fun ha hd =>
      hkeep (mem_of_beside (List.mem_append_right _ ha)) (List.mem_append_right _ hd)
  · intro a ha d hmem
    rcases List.mem_cons.mp hmem with rfl | hmem'
    · cases taken with
      | nil =>
        refine (hacross a ha d List.mem_cons_self).imp (hfull (List.mem_append_left _ ha)) ?_
        intro hempty
        rw [hq.texts_eq, hempty, List.map_nil, List.append_nil]
      | cons u taken =>
        refine .inl (hfull (List.mem_append_left _ ha) (hdone.resolve_left ?_ a ha))
        exact fun hb => List.cons_ne_nil u taken (hq.feeds.eq_nil_of_blocked hb)
    · exact hkeep (List.mem_append_left _ ha) (List.mem_append_right _ hmem')
        (hacross a ha d (List.mem_cons_of_mem _ hmem'))

/-- Behind a pattern that takes something, there are no texts yet. -/
theorem textsAll_step : Pattern.textsAll t.slots (as ++ c :: bs) =
    Pattern.textsAll s.slots (as ++ c :: bs) ++ taken.map (·.text) := by
  obtain ⟨hc, -⟩ := List.pairwise_cons.mp (List.pairwise_append.mp h.pairwise).2.1
  simp only [Pattern.textsAll_eq, List.flatMap_append, List.flatMap_cons, hq.texts_eq]
  rw [List.flatMap_congr fun d hmem => texts_beside hd hw run (List.mem_append_left _ hmem),
    List.flatMap_congr fun d hmem => texts_beside hd hw run (List.mem_append_right _ hmem)]
  by_cases hf : Full s.slots c
  · have hnil : taken = [] := by
      rw [← List.length_eq_zero_iff, ← hq.feeds.length_eq, (hf.run run).2, List.length_nil]
    simp [hnil]
  · have hnil : bs.flatMap (Pattern.texts s.slots) = [] :=
      List.flatMap_eq_nil_iff.mpr fun d hmem => (hc d hmem).resolve_left hf
    simp [hnil]

theorem step (hdone : Blocked s.argv.tokens ∨ ∀ a ∈ as, Full s.slots a) :
    Ordered (as ++ c :: bs) last t.slots ∧
      (Blocked t.argv.tokens ∨ ∀ a ∈ as, Full t.slots a) := by
  have hfull {d : Pattern} (hmem : d ∈ as ++ c :: bs) := full_of_full hd hw run hmem
  refine ⟨⟨fun d hmem => ?_, pairwise_step hd hw run h hq hdone, fun k hk d hmem => ?_⟩, ?_⟩
  · rcases eq_or_beside hmem with rfl | hmem'
    · exact hq.ranked
    · exact (h.ranked d hmem).congr (hw d hmem) (get_eq hd hw run hmem')
  · exact hfull (List.mem_of_mem_take hmem) (h.full k hk d hmem)
  · rcases hdone with hb | hf
    · exact .inl (hq.feeds.blocked hb)
    · exact .inr fun a ha => hfull (List.mem_append_left _ ha) (hf a ha)

end Step

theorem toRanked (h : Ordered cs last S) : Ranked S (.group kind cs false) :=
  .group h.ranked h.pairwise

theorem still (h : Ordered cs last s.slots) (ha : s.argv.autoDashes = false) :
    Queues (.group kind cs false) s [] [] s where
  feeds := .still ha rfl
  texts_eq := (List.append_nil _).symm
  ranked := h.toRanked

/-- All up to an argument that has its text are full. -/
theorem mark (h : Ordered (as ++ .argument leaf :: bs) last S)
    (hl : (S.get leaf.slot).hasText = true) :
    Ordered (as ++ .argument leaf :: bs) (some as.length) S where
  ranked := h.ranked
  pairwise := h.pairwise
  full k hk d hmem := by
    obtain rfl := Option.some.inj hk
    rw [List.take_append, List.take_of_length_le (Nat.le_succ _), Nat.add_sub_cancel_left,
      List.take_succ_cons, List.take_zero, List.mem_append, List.mem_singleton] at hmem
    rcases hmem with hmem | rfl
    · have hacross := (List.pairwise_append.mp h.pairwise).2.2 d hmem _ List.mem_cons_self
      exact hacross.resolve_right (Slot.hasText_iff.mp hl)
    · exact .argument hl

section Pass

variable (kind : GroupKind) (hd : (slots cs).Nodup) (hw : ∀ c ∈ cs, c.Worded)
  (hq : ∀ c ∈ cs, Queueing scope n c) (hset : ∀ c ∈ cs.dropLast, Settling scope n c)
include hd hw hq hset

/-- One pattern of the line is tried, when all in front of it is done. -/
theorem child (hcs : cs = as ++ c :: bs) (hs : Ordered cs last s.slots)
    (ha : s.argv.autoDashes = false) (hdone : Blocked s.argv.tokens ∨ ∀ a ∈ as, Full s.slots a)
    (run : Run scope n false c (s.aimed as.length last) log b t) :
    ∃ taken, Queues (.group kind cs false) s log taken t ∧ Ordered cs last t.slots ∧
      (bs ≠ [] ∨ (∀ c ∈ cs, Settling scope n c) →
        Blocked t.argv.tokens ∨ ∀ a ∈ as ++ [c], Full t.slots a) := by
  subst hcs
  have hmem : c ∈ as ++ c :: bs := by simp
  have henters := hs.enters ha
  obtain ⟨taken, hqueues⟩ := hq c hmem _ _ _ _ henters run
  have hs' : Ordered (as ++ c :: bs) last (s.aimed as.length last).slots := hs
  obtain ⟨ht, hfull⟩ := step hd hw run hs' hqueues hdone
  have htexts := textsAll_step hd hw run hs' hqueues
  have hfeeds : Feeds (slots (as ++ c :: bs)) (s.aimed as.length last).argv log taken t.argv :=
    hqueues.feeds.mono fun i hi => Pattern.mem_slots_of_mem hmem hi
  refine ⟨taken, ⟨?_, htexts, ht.toRanked⟩, ht, fun hsettles => ?_⟩
  · rw [Pattern.slots_group]
    exact ⟨hfeeds.autoDashes_eq, hfeeds.moves, hfeeds.length_eq, hfeeds.tokens_eq, hfeeds.servable⟩
  · have hsettling : Settling scope n c := by
      rcases hsettles with hbs | hall
      · apply hset
        rw [List.dropLast_append_cons, List.dropLast_cons_of_ne_nil hbs]
        exact List.mem_append_right _ List.mem_cons_self
      · exact hall c hmem
    rcases hsettling _ _ _ _ henters run with hb | hf
    · exact .inl hb
    · refine hfull.imp_right fun has => ?_
      exact List.forall_mem_append.mpr ⟨has, List.forall_mem_singleton.mpr hf⟩

theorem pass {place : ℕ} {xs ys : List Scanned}
    (h : Pass (Run scope n false) place last xs s log last' ys t) (hplace : place = as.length)
    (hcs : cs = as ++ xs.map (·.pattern)) (hs : Ordered cs last s.slots)
    (ha : s.argv.autoDashes = false)
    (hdone : xs ≠ [] ∨ (∀ c ∈ cs, Settling scope n c) →
      Blocked s.argv.tokens ∨ ∀ a ∈ as, Full s.slots a) :
    ∃ taken, Queues (.group kind cs false) s log taken t ∧ Ordered cs last' t.slots ∧
      ys.map (·.pattern) = xs.map (·.pattern) ∧
      ((∀ c ∈ cs, Settling scope n c) → Blocked t.argv.tokens ∨ ∀ c ∈ cs, Full t.slots c) := by
  induction h generalizing as with
  | nil =>
    refine ⟨[], hs.still ha, hs, rfl, fun hall => ?_⟩
    rw [hcs, List.map_nil, List.append_nil]
    exact hdone (.inr hall)
  | empty he =>
    refine ⟨[], hs.still ha, hs, rfl, fun _ => .inl ?_⟩
    rw [Blocked, List.isEmpty_iff.mp he]
    exact nofun
  | @hit s t u log log' place last last' x xs ys _ run _ ih =>
    subst hplace
    rw [List.map_cons] at hcs
    obtain ⟨taken, hqueues, ht, hfull⟩ := child kind hd hw hq hset hcs hs ha
      (hdone (.inl (List.cons_ne_nil x xs))) run
    have hlast : Ordered cs (if !x.matched && x.pattern.positional?.isSome then some as.length
        else last) t.slots := by
      split
      next hfirst =>
        rw [Bool.and_eq_true] at hfirst
        have hmem : x.pattern ∈ cs := by simp [hcs]
        obtain ⟨leaf, hleaf⟩ := (hw _ hmem).eq_argument hfirst.2
        rw [hleaf] at hcs run
        subst hcs
        exact ht.mark (Run.hasText run)
      next => exact ht
    obtain ⟨taken', hqueues', hu, hys, hend⟩ := ih
      (show as.length + 1 = (as ++ [x.pattern]).length by simp)
      (by simp [hcs]) hlast hqueues.feeds.autoDashes_eq (by simpa using hfull)
    exact ⟨_, hqueues.trans hqueues', hu, by simp [hys], hend⟩
  | @miss s t u log log' place last last' x xs ys _ run _ ih =>
    subst hplace
    rw [List.map_cons] at hcs
    obtain ⟨taken, hqueues, ht, hfull⟩ := child kind hd hw hq hset hcs hs ha
      (hdone (.inl (List.cons_ne_nil x xs))) run
    obtain ⟨taken', hqueues', hu, hys, hend⟩ := ih
      (show as.length + 1 = (as ++ [x.pattern]).length by simp)
      (by simp [hcs]) ht hqueues.feeds.autoDashes_eq (by simpa using hfull)
    exact ⟨_, hqueues.trans hqueues', hu, by simp [hys], hend⟩

theorem passes {xs ys : List Scanned} (h : Passes (Run scope n false) last xs s log ys t)
    (hcs : cs = xs.map (·.pattern)) (hs : Ordered cs last s.slots)
    (ha : s.argv.autoDashes = false) :
    ∃ taken, Queues (.group kind cs false) s log taken t ∧
      ((∀ c ∈ cs, Settling scope n c) → Blocked t.argv.tokens ∨ ∀ c ∈ cs, Full t.slots c) := by
  induction h with
  | empty he =>
    refine ⟨[], hs.still ha, fun _ => .inl ?_⟩
    rw [Blocked, List.isEmpty_iff.mp he]
    simp
  | still _ hpass =>
    obtain ⟨taken, hqueues, -, -, hend⟩ := pass kind hd hw hq hset hpass
      List.length_nil.symm hcs hs ha fun _ => .inr (List.forall_mem_nil _)
    exact ⟨taken, hqueues, hend⟩
  | again _ hpass _ _ ih =>
    obtain ⟨taken, hqueues, ht, hys, -⟩ := pass kind hd hw hq hset hpass
      List.length_nil.symm hcs hs ha fun _ => .inr (List.forall_mem_nil _)
    obtain ⟨taken', hqueues', hend⟩ := ih (hcs.trans hys.symm) ht hqueues.feeds.autoDashes_eq
    exact ⟨_, hqueues.trans hqueues', hend⟩

theorem scan {xs : List Scanned} (h : Scan (Run scope n false) cs s log xs t)
    (hs : Ranked s.slots (.group kind cs false)) (ha : s.argv.autoDashes = false) :
    ∃ taken, Queues (.group kind cs false) s log taken t ∧
      ((∀ c ∈ cs, Settling scope n c) → Blocked t.argv.tokens ∨ ∀ c ∈ cs, Full t.slots c) := by
  cases hs with
  | group hranked hpairwise =>
    refine passes kind hd hw hq hset h ?_ ⟨hranked, hpairwise, nofun⟩ ha
    simp [Function.comp_def, Scanned.start]

end Pass

end Ordered

/-! ## Values of several arguments -/

/-- Arguments in brackets, which do not repeat. -/
inductive Gradual : Pattern → Prop
  | argument {leaf : Leaf} : Gradual (.argument leaf)
  | group {ps : List Pattern} (h : ∀ c ∈ ps, Gradual c) : Gradual (.group .optional ps false)

namespace Gradual

theorem worded (h : Gradual p) : p.Worded := by
  induction h with
  | argument => exact .argument
  | group _ ih => exact .group ih

theorem not_repeating (h : Gradual p) : p.isRepeatingGroup = false := by
  cases h <;> rfl

theorem argument_queueing (n : ℕ) : Queueing scope n (.argument leaf) := by
  intro s log b t hs run
  cases n with
  | zero => exact run.elim
  | succ n =>
    obtain ⟨taken, hfeeds, htexts⟩ := Feeds.argument hs.autoDashes_eq run
    exact ⟨taken, hfeeds, htexts, .argument⟩

theorem argument_settling (n : ℕ) : Settling scope n (.argument leaf) := by
  intro s log b t hs run
  cases n with
  | zero => exact run.elim
  | succ n =>
    cases (run : (Positional.argument leaf).Runs false s log b t) with
    | filled hf =>
      rw [Bool.not_false, Bool.true_and] at hf
      exact .inr (.argument hf)
    | barred _ ho => exact .inr (hs.full ho)
    | refused _ _ hr =>
      refine .inl fun u hu hservable => ?_
      rw [Argv.positional_tokens] at hu
      have hfirst : s.argv.positional.2 = some 0 := by
        simp [Argv.positional, Option.mem_def.mp hu, hservable.1]
      have hrefused := hr 0 hfirst u (by rwa [← List.head?_eq_getElem?])
      rw [Positional.accepts_argument_iff.mpr hservable.2] at hrefused
      cases hrefused
    | taken => exact .inr (.argument (Positional.isFilled_record (.argument leaf) _ _))

theorem queues (h : Gradual p) (hd : (slots [p]).Nodup) (n : ℕ) :
    Queueing scope n p ∧ Settling scope n p := by
  induction h generalizing n with
  | argument => exact ⟨argument_queueing n, argument_settling n⟩
  | @group ps h ih =>
    rw [Pattern.slots_group] at hd
    have hd' := hd
    rw [Pattern.slots_eq_flatMap, List.nodup_flatMap] at hd'
    have hchild {c : Pattern} (hc : c ∈ ps) (n : ℕ) := ih c hc (hd'.1 c hc) n
    have scan {s t : Attempt} {log : List Move} {b : Bool}
        (hs : Enters (.group .optional ps false) s)
        (run : Run scope n false (.group .optional ps false) s log b t) :
        ∃ taken, Queues (.group .optional ps false) s log taken t ∧
          (Blocked t.argv.tokens ∨ ∀ c ∈ ps, Full t.slots c) := by
      cases n with
      | zero => exact run.elim
      | succ n =>
        cases (run : OnceRun (Run scope n false) ps .optional s log b t) with
        | optional scan =>
          obtain ⟨taken, hqueues, hend⟩ := Ordered.scan .optional hd
            (fun c hc => (h c hc).worded) (fun c hc => (hchild hc n).1)
            (fun c hc => (hchild ((List.dropLast_sublist _).subset hc) n).2) scan hs.ranked hs.autoDashes_eq
          exact ⟨taken, hqueues, hend fun c hc => (hchild hc n).2⟩
    constructor
    · intro s log b t hs run
      obtain ⟨taken, hqueues, -⟩ := scan hs run
      exact ⟨taken, hqueues⟩
    · intro s log b t hs run
      obtain ⟨_, -, hend⟩ := scan hs run
      exact hend.imp_right .group

end Gradual

theorem Serial.queueing (h : Serial p leaf) (n : ℕ) : Queueing scope n p := by
  intro s log b t hs run
  obtain ⟨taken, hfeeds, htexts⟩ := h.appends run hs.autoDashes_eq
  refine ⟨taken, ?_, ?_, .of_serial h⟩
  · rwa [h.slots_eq]
  · rwa [h.texts_eq, h.texts_eq]

/-- Several arguments in line. What may fail, or repeat, stands at the end. -/
inductive Orderly : Pattern → Prop
  | gradual {p : Pattern} (h : Gradual p) : Orderly p
  | serial {p : Pattern} {leaf : Leaf} (h : Serial p leaf) : Orderly p
  | group {kind : GroupKind} {ps : List Pattern} {c : Pattern} (h : ∀ d ∈ ps, Gradual d)
      (hc : Orderly c) : Orderly (.group kind (ps ++ [c]) false)

namespace Orderly

theorem worded (h : Orderly p) : p.Worded := by
  induction h with
  | gradual h => exact h.worded
  | serial h => exact h.worded
  | group h _ ih =>
    refine .group fun d hmem => ?_
    rcases List.mem_append.mp hmem with hmem | hmem
    · exact (h d hmem).worded
    · exact List.mem_singleton.mp hmem ▸ ih

theorem queueing (h : Orderly p) (hd : (slots [p]).Nodup) (n : ℕ) : Queueing scope n p := by
  induction h generalizing n with
  | gradual h => exact (h.queues hd n).1
  | serial h => exact h.queueing n
  | @group kind ps c h hc ih =>
    intro s log b t hs run
    cases n with
    | zero => exact run.elim
    | succ n =>
      rw [Pattern.slots_group] at hd
      have hline := hd
      rw [Pattern.slots_eq_flatMap, List.nodup_flatMap] at hline
      have hwords : ∀ d ∈ ps ++ [c], d.Worded := by
        intro d hmem
        rcases List.mem_append.mp hmem with hmem | hmem
        · exact (h d hmem).worded
        · exact List.mem_singleton.mp hmem ▸ hc.worded
      have hgradual {d : Pattern} (hmem : d ∈ ps) : Queueing scope n d ∧ Settling scope n d :=
        (h d hmem).queues (hline.1 d (List.mem_append_left _ hmem)) n
      have hqueueing : ∀ d ∈ ps ++ [c], Queueing scope n d := by
        intro d hmem
        rcases List.mem_append.mp hmem with hps | hlast
        · exact (hgradual hps).1
        · obtain rfl := List.mem_singleton.mp hlast
          exact ih (hline.1 d hmem) n
      have hsettling : ∀ d ∈ (ps ++ [c]).dropLast, Settling scope n d := by
        rw [List.dropLast_concat]
        exact fun d hmem => (hgradual hmem).2
      have scan {t : Attempt} {log : List Move} {xs : List Scanned}
          (scan : Scan (Run scope n false) (ps ++ [c]) s log xs t) :
          ∃ taken, Queues (.group kind (ps ++ [c]) false) s log taken t := by
        obtain ⟨taken, hqueues, -⟩ := Ordered.scan kind hd hwords hqueueing hsettling scan hs.ranked
          hs.autoDashes_eq
        exact ⟨taken, hqueues⟩
      cases (run : OnceRun (Run scope n false) (ps ++ [c]) kind s log b t) with
      | optional hscan => exact scan hscan
      | required run =>
        cases run with
        | matched hscan => exact scan hscan
        | lent _ _ hlent =>
          refine absurd hlent (Lending.not_lends ?_)
          rw [List.dropLast_concat]
          exact fun d hmem => (h d hmem).not_repeating
        | failed hscan =>
          obtain ⟨taken, hqueues⟩ := scan hscan
          exact ⟨[], .still hqueues.feeds.autoDashes_eq rfl, (List.append_nil _).symm, hs.ranked⟩

/-- What the arguments of a value take all at once is what they hold, one behind the other. -/
theorem takes (h : Orderly p) (hd : (slots [p]).Nodup)
    (hs : ∀ i ∈ slots [p], (s.slots.get i).texts = []) (ha : s.argv.autoDashes = false)
    (ho : s.argv.optionOnly = false) (run : Run scope n false p s log b t) :
    ∃ taken, Feeds (slots [p]) s.argv log taken t.argv ∧
      p.texts t.slots = p.texts s.slots ++ taken.map (·.text) := by
  have henters : Enters p s := by
    refine ⟨ha, .of_fresh h.worded hs, fun honly => ?_⟩
    rw [ho] at honly
    cases honly
  obtain ⟨taken, hqueues⟩ := h.queueing hd n s log b t henters run
  exact ⟨taken, hqueues.feeds, hqueues.texts_eq⟩

end Orderly

end Synopsis
