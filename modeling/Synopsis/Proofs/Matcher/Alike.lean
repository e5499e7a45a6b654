import Mathlib.Data.Set.Basic
import Synopsis.Matcher.Basic
import Synopsis.Proofs.Matcher.Steps

/-! # Matches side by side

Two attempts on the same stream whose slots differ in a set at most, and the steps that
take them to the same answer and to such attempts again.
-/

namespace Synopsis

/-! ## Streams without flags -/

namespace Argv

/-- No option is left to take. -/
def Quiet (a : Argv) : Prop := ∀ t ∈ a.tokens, t.kind ≠ .flag

/-- The same stream, except that only options may be taken from one of them. -/
structure Near (a b : Argv) : Prop where
  tokens : b.tokens = a.tokens
  style : b.style = a.style
  autoDashes : b.autoDashes = a.autoDashes
  dashes : b.dashes = a.dashes

variable {a b c : Argv}

theorem Quiet.takeOption?_eq (h : a.Quiet) (names : Names) : a.takeOption? names = none := by
  rw [takeOption?, Option.map_eq_none_iff]
  have search : ∀ (ts : List Token) (i : Nat), (∀ t ∈ ts, t.kind ≠ .flag) →
      a.findOption? names i ts = none := by
    intro ts
    induction ts with
    | nil => exact fun _ _ => rfl
    | cons t ts ih =>
      intro i h
      obtain ⟨ht, hts⟩ := List.forall_mem_cons.mp h
      rw [findOption?, if_neg ht]
      split
      · rfl
      · exact ih (i + 1) hts
  exact search _ 0 h

theorem Quiet.of_subset (h : a.Quiet) (hb : b.tokens ⊆ a.tokens) : b.Quiet :=
  fun t ht => h t (hb ht)

theorem Quiet.ofValues (texts : List String) (style : OptionStyle) :
    (Argv.ofValues texts style).Quiet := by
  simp [Quiet, Argv.ofValues]

/-- What may be known of a stream, however much of it is taken. -/
structure Trait where
  Holds : Argv → Prop
  of_subset {a b : Argv} (h : Holds a) (hb : b.tokens ⊆ a.tokens) : Holds b
  ofValues (texts : List String) (style : OptionStyle) : Holds (.ofValues texts style)

def Trait.quiet : Trait where
  Holds := Quiet
  of_subset := Quiet.of_subset
  ofValues := Quiet.ofValues

def Trait.none : Trait where
  Holds _ := True
  of_subset _ _ := trivial
  ofValues _ _ := trivial

namespace Near

theorem refl (a : Argv) : a.Near a := ⟨rfl, rfl, rfl, rfl⟩

theorem symm (h : a.Near b) : b.Near a :=
  ⟨h.tokens.symm, h.style.symm, h.autoDashes.symm, h.dashes.symm⟩

theorem trans (h : a.Near b) (h' : b.Near c) : a.Near c where
  tokens := h'.tokens.trans h.tokens
  style := h'.style.trans h.style
  autoDashes := h'.autoDashes.trans h.autoDashes
  dashes := h'.dashes.trans h.dashes

theorem eq (h : a.Near b) (ho : b.optionOnly = a.optionOnly) : b = a := by
  obtain ⟨tokens, style, autoDashes, dashes, optionOnly⟩ := a
  obtain ⟨rfl, rfl, rfl, rfl⟩ := h
  cases ho
  rfl

theorem optionOnly (a : Argv) (only : Bool) : a.Near { a with optionOnly := only } :=
  ⟨rfl, rfl, rfl, rfl⟩

theorem isEmpty_eq (h : a.Near b) : b.isEmpty = a.isEmpty := by
  rw [isEmpty, h.tokens, isEmpty]

theorem isExhausted_eq (h : a.Near b) : b.isExhausted = a.isExhausted := by
  rw [isExhausted, h.tokens, h.autoDashes, isExhausted]

theorem size_eq (h : a.Near b) : b.size = a.size := by
  rw [size, h.tokens, size]

end Near

end Argv

/-! ## Attempts -/

/-- The slots are the same outside a set. -/
def Slots.Agree (H : Set Nat) (s t : Slots) : Prop := ∀ i ∉ H, t.get i = s.get i

namespace Slots.Agree

variable {H : Set Nat} {s t u : Slots}

theorem refl (s : Slots) : s.Agree H s := fun _ _ => rfl

theorem trans (h : s.Agree H t) (h' : t.Agree H u) : s.Agree H u :=
  fun i hi => (h' i hi).trans (h i hi)

theorem modify {i : Nat} (h : s.Agree H t) (hi : i ∉ H) (f : Slot → Slot) :
    (s.modify i f).Agree H (t.modify i f) := by
  intro j hj
  rw [Slots.modify, Slots.modify, get_set, get_set, h i hi, h j hj]

end Slots.Agree

/-- Two attempts that differ at most in some slots. Unless they are exact, they may
also differ in whether only options may be taken. -/
structure Alike (K : Argv.Trait) (exact : Prop) (H : Set Nat) (s t : Attempt) : Prop where
  known : K.Holds s.argv
  near : s.argv.Near t.argv
  only : exact → t.argv.optionOnly = s.argv.optionOnly
  slots : s.slots.Agree H t.slots

namespace Alike

variable {K : Argv.Trait} {exact : Prop} {H : Set Nat} {s t u : Attempt}

theorem refl (h : K.Holds s.argv) : Alike K exact H s s := ⟨h, .refl _, fun _ => rfl, .refl _⟩

theorem trans (h : Alike K exact H s t) (h' : Alike K exact H t u) : Alike K exact H s u where
  known := h.known
  near := h.near.trans h'.near
  only he := (h'.only he).trans (h.only he)
  slots := h.slots.trans h'.slots

theorem weaken (h : Alike K True H s t) : Alike K exact H s t :=
  ⟨h.known, h.near, fun _ => h.only trivial, h.slots⟩

theorem known_right (h : Alike K exact H s t) : K.Holds t.argv :=
  K.of_subset h.known (by rw [h.near.tokens]; exact List.Subset.refl _)

theorem argv_eq (h : Alike K True H s t) : t.argv = s.argv := h.near.eq (h.only trivial)

theorem withSlots {slots slots' : Slots} (h : Alike K exact H s t) (hs : slots.Agree H slots') :
    Alike K exact H ⟨slots, s.argv⟩ ⟨slots', t.argv⟩ :=
  ⟨h.known, h.near, h.only, hs⟩

theorem withArgv {a : Argv} (h : Alike K exact H s t) (ha : K.Holds a) :
    Alike K True H ⟨s.slots, a⟩ ⟨t.slots, a⟩ :=
  ⟨ha, .refl _, fun _ => rfl, h.slots⟩

/-- In a line, it does not matter what the attempts could take before. -/
theorem aimed {place place' : Nat} {last last' : Option Nat} (h : Alike K exact H s t)
    (hp : last'.any (place' ≤ ·) = last.any (place ≤ ·)) :
    Alike K True H (s.aimed place last) (t.aimed place' last') where
  known := K.of_subset h.known (List.Subset.refl _)
  near := ⟨h.near.tokens, h.near.style, h.near.autoDashes, h.near.dashes⟩
  only _ := hp
  slots := h.slots

theorem restored {s' t' : Attempt} (h : Alike K exact H s s') (ht : Alike K exact H t t') :
    Alike K exact H (s.restored t) (s'.restored t') where
  known := K.of_subset h.known (List.Subset.refl _)
  near := ⟨h.near.tokens, ht.near.style, ht.near.autoDashes, h.near.dashes⟩
  only := ht.only
  slots := h.slots

end Alike

/-! ## Answers -/

/-- Two matches that come to answers in a relation, or both stop for reasons in another one. -/
inductive Meets {α β : Type} (S : Stop → Stop → Prop) (Q : α → Attempt → β → Attempt → Prop) :
    EStateM.Result Stop Attempt α → EStateM.Result Stop Attempt β → Prop
  | ok {a : α} {b : β} {s t : Attempt} (h : Q a s b t) : Meets S Q (.ok a s) (.ok b t)
  | stop {e e' : Stop} {s t : Attempt} (h : S e e') : Meets S Q (.error e s) (.error e' t)

/-- The same answer. -/
def Same {α : Type} (K : Argv.Trait) (exact : Prop) (H : Set Nat) (a : α) (s : Attempt) (b : α) (t : Attempt) : Prop :=
  b = a ∧ Alike K exact H s t

namespace MatchM

variable {α β : Type} {s : Attempt}

@[simp] theorem pure_apply (a : α) (s : Attempt) : (pure a : MatchM α) s = .ok a s := rfl

@[simp] theorem throw_apply (e : Stop) (s : Attempt) : (throw e : MatchM α) s = .error e s := rfl

@[simp] theorem get_bind (f : Attempt → MatchM β) : (get >>= f) s = f s s := rfl

@[simp] theorem argv_bind (f : Argv → MatchM β) : (argv >>= f) s = f s.argv s := rfl

@[simp] theorem setArgv_bind (a : Argv) (f : Unit → MatchM β) :
    (setArgv a >>= f) s = f () { s with argv := a } := rfl

@[simp] theorem slots_bind (f : Slots → MatchM β) : (slots >>= f) s = f s.slots s := rfl

@[simp] theorem setSlots_bind (a : Slots) (f : Unit → MatchM β) :
    (setSlots a >>= f) s = f () { s with slots := a } := rfl

@[simp] theorem modifySlot_bind (i : Nat) (g : Slot → Slot) (f : Unit → MatchM β) :
    (modifySlot i g >>= f) s = f () { s with slots := s.slots.modify i g } := rfl

@[simp] theorem restore_bind (saved : Attempt) (f : Unit → MatchM β) :
    (restore saved >>= f) s = f () (saved.restored s) := rfl

theorem bind_apply_of_ok {m : MatchM α} {f : α → MatchM β} {a : α} {t : Attempt} (h : m s = .ok a t) :
    (m >>= f) s = f a t := by
  change EStateM.bind m f s = _
  rw [EStateM.bind, h]

end MatchM

namespace Meets

variable {α β γ δ : Type} {S : Stop → Stop → Prop} {Q : α → Attempt → β → Attempt → Prop}
  {R : γ → Attempt → δ → Attempt → Prop} {m : MatchM α} {m' : MatchM β}
  {r : EStateM.Result Stop Attempt α} {r' : EStateM.Result Stop Attempt β}
  {K : Argv.Trait} {exact : Prop} {H : Set Nat} {s t : Attempt}

theorem imp {Q' : α → Attempt → β → Attempt → Prop} (h : Meets S Q r r')
    (hQ : ∀ a s b t, Q a s b t → Q' a s b t) : Meets S Q' r r' := by
  cases h with
  | ok h => exact .ok (hQ _ _ _ _ h)
  | stop h => exact .stop h

theorem bind {f : α → MatchM γ} {f' : β → MatchM δ} (h : Meets S Q (m s) (m' t))
    (hf : ∀ a s b t, Q a s b t → Meets S R (f a s) (f' b t)) :
    Meets S R ((m >>= f) s) ((m' >>= f') t) := by
  change Meets S R (EStateM.bind m f s) (EStateM.bind m' f' t)
  unfold EStateM.bind
  generalize m s = r at h
  generalize m' t = r' at h
  cases h with
  | ok h => exact hf _ _ _ _ h
  | stop h => exact .stop h

/-- A step that one of the matches makes alone. -/
theorem bind_right {f' : β → MatchM δ} {R : α → Attempt → δ → Attempt → Prop}
    (h : Meets S Q r (m' t)) (hf : ∀ a s b t, Q a s b t → Meets S R (.ok a s) (f' b t)) :
    Meets S R r ((m' >>= f') t) := by
  change Meets S R r (EStateM.bind m' f' t)
  unfold EStateM.bind
  generalize m' t = r' at h
  cases h with
  | ok h => exact hf _ _ _ _ h
  | stop h => exact .stop h

/-- What matches in one of the attempts matches in the other. -/
theorem ok_iff {a : α} {u : Attempt} (h : Meets S Q r r') (hr : r = .ok a u) :
    ∃ b u', r' = .ok b u' ∧ Q a u b u' := by
  cases h with
  | ok h =>
    obtain ⟨rfl, rfl⟩ := EStateM.Result.ok.inj hr
    exact ⟨_, _, rfl, h⟩
  | stop => cases hr

theorem restoring {m m' : MatchM Bool} (hs : Alike K exact H s t)
    (h : Meets Eq (Same K exact H) (m s) (m' t)) :
    Meets Eq (Same K exact H) (MatchM.restoring m s) (MatchM.restoring m' t) := by
  simp only [MatchM.restoring, MatchM.get_bind]
  refine h.bind ?_
  rintro b u _ v ⟨rfl, hu⟩
  split
  · exact .ok ⟨rfl, hu⟩
  · exact .ok ⟨rfl, hs.restored hu⟩

end Meets

/-- Matches that answer the same in attempts that are alike. -/
def Couples (K : Argv.Trait) (exact : Prop) (H : Set Nat) (m m' : MatchM Bool) : Prop :=
  ∀ s s', Alike K exact H s s' → Meets Eq (Same K exact H) (m s) (m' s')

theorem MatchM.onStream_meets {stream : Argv} {m m' : MatchM Bool} {K : Argv.Trait}
    {exact : Prop} {H : Set Nat} {s t : Attempt} (hm : Couples K True H m m') (hs : Alike K exact H s t) (hk : K.Holds stream) :
    Meets Eq (Same K exact H) (onStream stream m s) (onStream stream m' t) := by
  simp only [onStream, argv_bind, setArgv_bind]
  refine (hm _ _ (hs.withArgv hk)).bind ?_
  rintro b u _ v ⟨rfl, hu⟩
  simp only [argv_bind, setArgv_bind, hu.argv_eq]
  exact .ok ⟨rfl, hs.withSlots hu.slots⟩

end Synopsis
