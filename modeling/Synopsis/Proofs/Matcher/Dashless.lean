import Synopsis.Proofs.Matcher.Origins
import Synopsis.Proofs.Matcher.Taking

/-! # Matches without a `--`

If no token is a `--` and no stack ends in a hyphen, then no argument takes a `--`, and a
command of that name is never met.
-/

namespace Synopsis

open Argv (Spelled)
open OptionOf (Stays)

variable {scope : Scope} {i : Nat} {s t u : Attempt} {log : List Move} {b : Bool} {p : Positional}
  {ts us xs ys : List Token} {x : Token} {text : String}

/-! ## Streams -/

/-- No `--` is among the tokens, and no stack can become one. -/
def Dashless (ts : List Token) : Prop :=
  ∀ x ∈ ts, if x.kind = .flag then x.text.toList.getLast? ≠ some '-' else x.text ≠ "--"

namespace Dashless

theorem sublist (h : Dashless ts) (hs : us.Sublist ts) : Dashless us :=
  fun x hx => h x (hs.subset hx)

theorem append (h : Dashless ts) (h' : Dashless us) : Dashless (ts ++ us) :=
  List.forall_mem_append.mpr ⟨h, h'⟩

theorem text_ne (h : Dashless ts) (hx : x ∈ ts) : x.text ≠ "--" := by
  have hown := h x hx
  split at hown
  · intro he
    rw [he] at hown
    exact hown rfl
  · exact hown

theorem of_value (h : text ≠ "--") : Dashless [⟨text, .value⟩] :=
  List.forall_mem_singleton.mpr h

variable {style : OptionStyle} {name : String} {attached : Option String} {left : List Token}

/-- What is attached to an option of a stack that ends in no hyphen ends in none. -/
theorem getLast?_attached (h : Dashless [x]) (hk : x.kind = .flag) (hs : Spelled style x.text name attached)
    {rest : String} (hr : attached = some rest) : rest.toList.getLast? ≠ some '-' := by
  obtain ⟨before, hbefore⟩ := hs.suffix_of_some rest hr
  have hown := List.forall_mem_singleton.mp h
  rw [if_pos hk, ← hbefore, List.getLast?_append] at hown
  intro hlast
  rw [hlast] at hown
  exact hown rfl

theorem value (h : Dashless [x]) (hk : x.kind = .flag) (hs : Spelled style x.text name attached)
    {rest : String} (hr : attached = some rest) : Dashless [⟨rest, .value⟩] := by
  refine of_value ?_
  rintro rfl
  exact h.getLast?_attached hk hs hr rfl

theorem stays (h : Dashless [x]) (hk : x.kind = .flag) (hs : Spelled style x.text name attached)
    (hx : Stays style x attached left) : Dashless left := by
  cases hx with
  | none => exact nofun
  | stack hw =>
    have hlast := h.getLast?_attached hk hs rfl
    obtain ⟨c, cs, -, hne, -, rfl⟩ := hs.stack_of_some hw
    rw [OptionOf.restOfStack_ofList]
    refine List.forall_mem_singleton.mpr ?_
    rw [if_pos rfl, String.toList_ofList, List.getLast?_cons_of_ne_nil hne]
    rwa [String.toList_ofList] at hlast

end Dashless

/-! ## Slots -/

namespace Recorded

variable {P : Slot → Prop} {rs : List Recorded} {slots : Slots} {history : List Slots}

/-- What clearing gives every slot, it gives all of them. -/
theorem prop_clearAll (hc : ∀ r s, P (cleared r s)) (hs : P (slots.get i)) :
    P ((clearAll rs slots).get i) := by
  induction rs generalizing slots with
  | nil => exact hs
  | cons r rs ih =>
    refine ih ?_
    rw [Slots.get_modify]
    split
    · exact hc _ _
    · exact hs

/-- What a slot had after each pass, it has when the passes are merged. -/
theorem prop_mergeAll (hm : ∀ r history, (∀ s ∈ history, P s) → P (merged r history))
    (hh : ∀ s ∈ history, P (s.get i)) (hs : P (slots.get i)) :
    P ((mergeAll rs history slots).get i) := by
  induction rs generalizing slots with
  | nil => exact hs
  | cons r rs ih =>
    refine ih ?_
    rw [Slots.get_set]
    split
    next he => exact hm r _ (List.forall_mem_map.mpr (he ▸ hh))
    next => exact hs

end Recorded

/-- A slot has not taken a `--`, and has nothing at all if it is to stay empty. -/
def Slot.Spotless (empty : Prop) (s : Slot) : Prop := "--" ∉ s.texts ∧ (empty → s.isSet = false)

namespace Recorded

variable {empty : Prop} {r : Recorded}

theorem spotless_cleared (r : Recorded) (s : Slot) : (r.cleared s).Spotless empty := by
  refine ⟨?_, fun _ => r.isSet_cleared s⟩
  obtain ⟨kind, i⟩ := r
  cases kind <;> cases s <;> exact List.not_mem_nil

theorem spotless_merged {history : List Slot} (h : ∀ s ∈ history, s.Spotless empty) :
    (r.merged history).Spotless empty := by
  constructor
  · obtain ⟨kind, i⟩ := r
    cases kind with
    | hits => exact List.not_mem_nil
    | texts =>
      intro hmem
      obtain ⟨s, hs, hmem⟩ := List.mem_flatMap.mp hmem
      exact (h s hs).1 hmem
  · intro hempty
    by_contra hset
    obtain ⟨s, hs, hset⟩ := isSet_of_merged (Bool.eq_true_of_not_eq_false hset)
    rw [(h s hs).2 hempty] at hset
    cases hset

end Recorded

/-- No slot has taken a `--`, and slot number `i` has nothing. -/
def Spotless (i : Nat) (s : Slots) : Prop := ∀ j, (s.get j).Spotless (j = i)

namespace Spotless

variable {slots left : Slots} {texts : List String} {lenders : List Nat}

theorem blank (size : Nat) : Spotless i (.blank size) := fun j => by
  rw [Slots.get_blank]
  exact ⟨List.not_mem_nil, fun _ => rfl⟩

theorem set {j : Nat} {v : Slot} (h : Spotless i slots) (hi : j ≠ i) (hv : "--" ∉ v.texts) :
    Spotless i (slots.set j v) := by
  intro k
  rw [Slots.get_set]
  split
  next he => exact ⟨hv, fun hk => absurd (he.symm.trans hk) hi⟩
  next => exact h k

theorem clearAll {rs : List Recorded} (h : Spotless i slots) :
    Spotless i (Recorded.clearAll rs slots) :=
  fun j => Recorded.prop_clearAll (fun r s => r.spotless_cleared s) (h j)

theorem mergeAll {rs : List Recorded} {history : List Slots} (hh : ∀ s ∈ history, Spotless i s)
    (h : Spotless i slots) : Spotless i (Recorded.mergeAll rs history slots) :=
  fun j => Recorded.prop_mergeAll (fun _ _ => Recorded.spotless_merged) (fun s hs => hh s hs j) (h j)

/-- Only a `--` makes a slot dirty. -/
theorem record {counting : Bool} (h : Spotless i slots) (htext : text ≠ "--") (hi : p.slot ≠ i) :
    Spotless i (slots.modify p.slot (p.record counting text)) := by
  refine h.set hi ?_
  have hown := (h p.slot).1
  cases p with
  | command leaf => cases counting <;> exact List.not_mem_nil
  | argument leaf =>
    cases counting with
    | false => simpa [Positional.record, Slot.pushText, Slot.texts] using htext.symm
    | true =>
      rw [Positional.slot] at hown
      simpa [Positional.record, Slot.pushText, Slot.texts, not_or] using ⟨hown, htext.symm⟩

theorem pops (h : Spotless i slots) (hi : i ∉ lenders) (hp : Lending.Pops lenders slots texts left) :
    "--" ∉ texts ∧ Spotless i left := by
  induction hp with
  | nil => exact ⟨List.not_mem_nil, h⟩
  | @cons s t u j text texts hj hpop _ ih =>
    obtain ⟨rest, hslot, rfl⟩ := Lending.popText?_eq_some hpop
    have hown := (h j).1
    rw [Slot.texts_of_popText? hslot, List.mem_append, not_or, List.mem_singleton] at hown
    obtain ⟨htexts, hleft⟩ := ih (h.set (ne_of_mem_of_not_mem hj hi) hown.1)
    exact ⟨List.not_mem_cons_of_ne_of_not_mem hown.2 htexts, hleft⟩

end Spotless

/-! ## Runs -/

/-- A leaf has another slot, or is the command `--`. -/
def IsDashes (i : Nat) (q : Pattern) : Prop :=
  q.slot? = some i → ∃ leaf, q = .command leaf ∧ leaf.names = .singleton "--"

/-- From one attempt to another, no `--` is taken if there is none. -/
structure StaysDashless (i : Nat) (s t : Attempt) : Prop extends Thins s.argv t.argv where
  dashless (hs : Tokenized s.argv.tokens) (hd : Dashless s.argv.tokens) (h : Spotless i s.slots) :
    Dashless t.argv.tokens ∧ Spotless i t.slots

namespace StaysDashless

theorem refl (s : Attempt) : StaysDashless i s s := ⟨.refl s.argv, fun _ hd h => ⟨hd, h⟩⟩

theorem trans (h : StaysDashless i s t) (h' : StaysDashless i t u) : StaysDashless i s u where
  toThins := h.toThins.trans h'.toThins
  dashless hs hd hslots := by
    obtain ⟨hd, hslots⟩ := h.dashless hs hd hslots
    exact h'.dashless (h.tokenized hs) hd hslots

/-- The command `--` is named by nothing else. -/
theorem slot_ne {place : Nat} (hp : IsDashes i p.pattern) (ha : p.accepts place x = true)
    (hx : x.text ≠ "--") : p.slot ≠ i := by
  rintro rfl
  obtain ⟨leaf, hpattern, hnames⟩ := hp p.slot?_pattern
  cases p with
  | argument => cases hpattern
  | command own =>
    obtain rfl := Pattern.command.inj hpattern
    simp only [Positional.accepts, hnames, Bool.and_eq_true] at ha
    exact hx (List.mem_singleton.mp (OrderedSet.contains_iff.mp ha.1))

theorem positionalRuns {counting : Bool} (hp : IsDashes i p.pattern)
    (h : p.Runs counting s log b t) (hd : Dashless s.argv.tokens) (hs : Spotless i s.slots) :
    Dashless t.argv.tokens ∧ Spotless i t.slots := by
  cases h with
  | filled | barred => exact ⟨hd, hs⟩
  | refused =>
    rw [Argv.positional_tokens]
    exact ⟨hd, hs⟩
  | taken hw _ hpl ht ha =>
    have htext := hd.text_ne (List.mem_of_getElem? ht)
    refine ⟨?_, hs.record htext (slot_ne hp ha htext)⟩
    refine Dashless.sublist ?_ (List.eraseIdx_sublist _ _)
    rwa [Argv.positional_tokens]

theorem borrows {ps : List Positional} (hps : ∀ p ∈ ps, IsDashes i p.pattern)
    (h : Lending.Borrows ps s t) (hd : Dashless s.argv.tokens) (hs : Spotless i s.slots) :
    Spotless i t.slots := by
  induction h with
  | nil => exact hs
  | cons run _ ih =>
    obtain ⟨hp, hps⟩ := List.forall_mem_cons.mp hps
    obtain ⟨hd, hs⟩ := positionalRuns hp run hd hs
    exact ih hps hd hs

theorem lends {line : List Pattern} (hl : ∀ q ∈ line.flatMap Pattern.atoms, IsDashes i q)
    (h : Lending.Lends line s t) (hs : Spotless i s.slots) : Spotless i t.slots := by
  obtain ⟨hloan, ht, hb⟩ := h
  obtain ⟨before, children, rest, hsplit⟩ := Lending.splits_of_loan? hloan
  obtain ⟨new, hpops, hperm⟩ := Lending.Loan.texts?_pops ht
  have hlenders : i ∉ _ := fun hi => by
    obtain ⟨leaf, hleaf, rfl⟩ := hsplit.lender_atom hi
    obtain ⟨_, hcommand, -⟩ := hl _ hleaf rfl
    cases hcommand
  obtain ⟨htexts, hleft⟩ := hs.pops hlenders hpops
  have hlent := borrows (i := i) (fun p hp => hl _ (hsplit.borrower_atom hp)) hb ?_ hleft
  · exact hlent
  · refine List.forall_mem_map.mpr fun text htext => ?_
    exact ne_of_mem_of_not_mem (hperm.mem_iff.mpr htext) htexts

theorem takes {o : OptionAtom} {value : Pattern → Step} {slots : Slots}
    (hv : ∀ v s log t, o.value = some v → value v s log true t → StaysDashless i s t)
    (hs : Tokenized s.argv.tokens) (hd : Dashless s.argv.tokens) (hslots : Spotless i slots)
    (h : o.Takes value s slots t) : Dashless t.argv.tokens ∧ Spotless i t.slots := by
  obtain @⟨xs, ys, x, _, _, htokens, hk, -, -, hspelled, uses⟩ := h
  rw [htokens] at hs hd
  have hxs : Dashless xs := hd.sublist (List.sublist_append_left _ _)
  have hx : Dashless [x] := hd.sublist (by simp)
  have hys : Dashless ys := hd.sublist (by simp)
  generalize t.argv.tokens = us, t.slots = slots' at uses
  cases uses with
  | flag _ hleft => exact ⟨(hxs.append (hx.stays hk hspelled hleft)).append hys, hslots⟩
  | attached hov hr _ run =>
    have hvalue := (hv _ _ _ _ hov run).dashless (.value _) (hx.value hk hspelled hr) hslots
    exact ⟨hxs.append hys, hvalue.2⟩
  | @separate _ left given kept u _ hov hleft _ hg run =>
    have hgiven : given.Sublist ys ∧ kept.Sublist ys := by
      rcases hg with ⟨rfl, rfl⟩ | ⟨rfl, rfl, -⟩
      · exact ⟨.refl _, List.nil_sublist _⟩
      · exact ⟨List.nil_sublist _, .refl _⟩
    have htok : Tokenized given := hs.sublist (hgiven.1.trans (by simp))
    obtain ⟨hused, hslots⟩ := (hv _ _ _ _ hov run).dashless htok (hys.sublist hgiven.1) hslots
    have hfront := hxs.append (hx.stays hk hspelled hleft)
    exact ⟨(hfront.append (hys.sublist hgiven.2)).append hused, hslots⟩

/-- All passes of a repetition keep it so. -/
theorem repeatPasses {once : Step} {leaves : List Recorded} {history history' : List Slots}
    (ho : ∀ s log b t, once s log b t → StaysDashless i s t)
    (hp : RepeatPasses once leaves history s log history' t) (hs : Tokenized s.argv.tokens)
    (hd : Dashless s.argv.tokens) (hslots : Spotless i s.slots) (hh : ∀ s ∈ history, Spotless i s) :
    Dashless t.argv.tokens ∧ Spotless i t.slots ∧ ∀ s ∈ history', Spotless i s := by
  induction hp with
  | empty => exact ⟨hd, hslots, hh⟩
  | failed _ run =>
    obtain ⟨hd, hslots⟩ := (ho _ _ _ _ run).dashless hs hd hslots.clearAll
    exact ⟨hd, hslots, hh⟩
  | still _ run =>
    obtain ⟨hd, hslots⟩ := (ho _ _ _ _ run).dashless hs hd hslots.clearAll
    exact ⟨hd, hslots, List.forall_mem_cons.mpr ⟨hslots, hh⟩⟩
  | again _ run _ _ ih =>
    have hrun := ho _ _ _ _ run
    obtain ⟨hd, hslots⟩ := hrun.dashless hs hd hslots.clearAll
    exact ih (hrun.tokenized hs) hd hslots (List.forall_mem_cons.mpr ⟨hslots, hh⟩)

theorem closed (scope : Scope) (i : Nat) :
    Closed scope (IsDashes i) fun s _ t => StaysDashless i s t where
  refl := refl
  trans := trans
  marks s _ _ := ⟨⟨rfl, fun _ => .refl s.argv.tokens⟩, fun _ hd h => ⟨hd, h⟩⟩
  take hp hw ho hpl ht ha := ⟨(Thins.closed scope).take trivial hw ho hpl ht ha,
    fun _ hd h => positionalRuns hp (.taken hw ho hpl ht ha) hd h⟩
  option {o value counting found a s t log} ho hw hf hv hrun hc := by
    refine ⟨(Thins.closed scope).option trivial hw hf (fun w s log t hov run => (hv w s log t hov run).toThins)
      hrun hc, fun hs hd h => ?_⟩
    refine takes hv hs hd (h.set ?_ ?_) (OptionOf.takes_of_completes hs hf hc)
    · rintro rfl
      obtain ⟨_, hcommand, -⟩ := ho rfl
      cases hcommand
    · cases counting <;> exact List.not_mem_nil
  lend {line repeats s t} hl h := by
    refine ⟨?_, fun _ hd hs => ⟨h.argv_eq ▸ hd, lends (fun q hq => ?_) h hs⟩⟩
    · rw [h.argv_eq]
      exact .refl _
    · obtain ⟨c, hc, hq⟩ := List.mem_flatMap.mp hq
      exact hl q (.child hc (Pattern.reaches_of_mem_atoms hq))
  repeats {once leaves history s t log} _ ho _ hp _ := by
    have hthins : Thins s.argv t.argv := hp.argv Thins.refl (fun _ _ _ => .trans)
      fun s log b t run => (ho s log b t run).toThins
    refine ⟨hthins, fun hs hd h => ?_⟩
    obtain ⟨hd, hslots, hhistory⟩ := repeatPasses ho hp hs hd h nofun
    refine ⟨hd, .mergeAll (List.forall_mem_cons.mpr ⟨h, fun s hs => ?_⟩) hslots⟩
    exact hhistory s (List.mem_reverse.mp hs)

end StaysDashless

/-- Without a `--` among the arguments, no command of that name is met. -/
theorem Run.isSet_eq_false {n : Nat} {counting : Bool} {p : Pattern}
    (hp : ∀ q, Pattern.Reaches scope p q → IsDashes i q) (h : Run scope n counting p s log b t)
    (hs : Tokenized s.argv.tokens) (hd : Dashless s.argv.tokens) (hslots : Spotless i s.slots) :
    (t.slots.get i).isSet = false :=
  (((StaysDashless.closed scope i).run hp h).dashless hs hd hslots).2 i |>.2 rfl

end Synopsis
