import Synopsis.Proofs.Matcher.Replaced
import Synopsis.Proofs.Matcher.Unseen

/-! # Tokens in front of the options

An option is looked for in the whole stream, and only what stands behind it is touched. So
a token in front that is no such option changes nothing. Neither do slots that the option
and its value pattern do not reach.
-/

namespace Synopsis

open Pattern (Reaches)

variable {exact : Prop} {H : Set Nat} {front : List Token} {s t : Attempt} {scope : Scope}
  {o : OptionAtom} {value value' : Pattern → MatchM Bool} {m m' : MatchM Bool}

/-- One of the attempts has some more tokens in front, and other slots in a set. Unless they
are exact, the marks of the streams may differ. -/
structure Fronted (front : List Token) (exact : Prop) (H : Set Nat) (s t : Attempt) : Prop where
  tokens : t.argv.tokens = front ++ s.argv.tokens
  style : t.argv.style = s.argv.style
  autoDashes : t.argv.autoDashes = s.argv.autoDashes
  dashes : exact → t.argv.dashes = s.argv.dashes
  only : exact → t.argv.optionOnly = s.argv.optionOnly
  slots : s.slots.Agree H t.slots

theorem Alike.fronted {K : Argv.Trait} (h : Alike K exact H s t) : Fronted [] exact H s t :=
  ⟨h.near.tokens, h.near.style, h.near.autoDashes, fun _ => h.near.dashes, h.only, h.slots⟩

namespace Fronted

theorem alike (h : Fronted [] True H s t) : Alike .none True H s t :=
  ⟨trivial, ⟨h.tokens, h.style, h.autoDashes, h.dashes trivial⟩, h.only, h.slots⟩

/-- Other tokens behind the ones in front. -/
theorem behind {slots slots' : Slots} {ts : List Token} (h : Fronted front exact H s t)
    (hs : slots.Agree H slots') : Fronted front exact H ⟨slots, { s.argv with tokens := ts }⟩
      ⟨slots', { t.argv with tokens := front ++ ts }⟩ :=
  ⟨rfl, h.style, h.autoDashes, h.dashes, h.only, hs⟩

end Fronted

/-- The same answer beside tokens in front. -/
def SameFronted (front : List Token) (exact : Prop) (H : Set Nat) (a : Bool) (s : Attempt) (b : Bool)
    (t : Attempt) : Prop :=
  b = a ∧ Fronted front exact H s t

theorem MatchM.onStream_agree {stream : Argv} (hm : Couples .none True H m m')
    (hs : s.slots.Agree H t.slots) :
    Meets Eq (fun x u y v => y = x ∧ u.argv = s.argv ∧ v.argv = t.argv ∧ u.slots.Agree H v.slots)
      (onStream stream m s) (onStream stream m' t) := by
  simp only [onStream, argv_bind, setArgv_bind]
  have halike : Alike .none True H ⟨s.slots, stream⟩ ⟨t.slots, stream⟩ :=
    ⟨trivial, .refl _, fun _ => rfl, hs⟩
  refine (hm _ _ halike).bind ?_
  rintro b u _ v ⟨rfl, hu⟩
  simp only [argv_bind, setArgv_bind, hu.argv_eq]
  exact .ok ⟨rfl, rfl, rfl, hu.slots⟩

namespace OptionOf

theorem takeSeparate_fronted {arity : Arity} {place : Nat} (hm : Couples .none True H m m')
    (h : Fronted front exact H s t) :
    Meets Eq (SameFronted front exact H) (o.takeSeparate arity m place s)
      (o.takeSeparate arity m' (front.length + place) t) := by
  have hat : t.argv.tokens[front.length + place]? = s.argv.tokens[place]? := by
    rw [h.tokens, List.getElem?_append_right (Nat.le_add_right _ _), Nat.add_sub_cancel_left]
  have htake : t.argv.tokens.take (front.length + place) = front ++ s.argv.tokens.take place := by
    rw [h.tokens, List.take_length_add_append]
  have hdrop : t.argv.tokens.drop (front.length + place) = s.argv.tokens.drop place := by
    rw [h.tokens, List.drop_length_add_append]
  simp only [takeSeparate, MatchM.argv_bind, h.autoDashes, hat, htake, hdrop, Argv.valueStream, h.style]
  generalize (s.argv.autoDashes && s.argv.tokens[place]?.any Token.isDoubleDash) = atDashes
  split
  · exact .stop rfl
  have hsplit : ∃ kept given,
      (if atDashes = true then (s.argv.tokens, []) else (s.argv.tokens.take place, s.argv.tokens.drop place)) =
        (kept, given) ∧
      (if atDashes = true then (t.argv.tokens, [])
        else (front ++ s.argv.tokens.take place, s.argv.tokens.drop place)) = (front ++ kept, given) := by
    cases atDashes with
    | false => exact ⟨_, _, rfl, rfl⟩
    | true => exact ⟨_, _, rfl, by rw [h.tokens]; rfl⟩
  obtain ⟨kept, given, hkept, hkept'⟩ := hsplit
  rw [hkept, hkept']
  refine (MatchM.onStream_agree hm h.slots).bind ?_
  rintro ⟨b, left⟩ u ⟨_, _⟩ v ⟨he, hu, hv, hslots⟩
  obtain ⟨rfl, rfl⟩ := Prod.mk.inj he
  dsimp only
  split
  · exact .stop rfl
  · exact .ok ⟨rfl, List.append_assoc _ _ _, rfl, rfl, h.dashes, h.only, hslots⟩

theorem takeAttached_fronted {text : String} (hm : Couples .none True H m m')
    (h : Fronted front exact H s t) :
    Meets Eq (SameFronted front exact H) (o.takeAttached m text s) (o.takeAttached m' text t) := by
  simp only [takeAttached, MatchM.argv_bind, Argv.valueStream, h.style]
  refine (MatchM.onStream_agree hm h.slots).bind ?_
  rintro ⟨b, left⟩ u ⟨_, _⟩ v ⟨he, hu, hv, hslots⟩
  obtain ⟨rfl, rfl⟩ := Prod.mk.inj he
  dsimp only
  split
  · exact .stop rfl
  · exact .ok ⟨rfl, by rw [hu, hv]; exact h.tokens, by rw [hu, hv]; exact h.style,
      by rw [hu, hv]; exact h.autoDashes, by rw [hu, hv]; exact h.dashes,
      fun he => by rw [hu, hv]; exact h.only he, hslots⟩

theorem takeFound_fronted {found : Argv.Found} (hv : ∀ v, o.value = some v → Couples .none True H (value v) (value' v))
    (h : Fronted front exact H s t) :
    Meets Eq (SameFronted front exact H) (o.takeFound value found s)
      (o.takeFound value' { found with index := front.length + found.index } t) := by
  have hinsert (x : Token) : Fronted front exact H { s with argv := s.argv.insert found.index x }
      { t with argv := t.argv.insert (front.length + found.index) x } := by
    refine ⟨?_, h.style, h.autoDashes, h.dashes, h.only, h.slots⟩
    simp [Argv.insert, h.tokens, List.take_length_add_append, List.drop_length_add_append]
  simp only [takeFound, MatchM.argv_bind, h.style]
  cases hov : o.value with
  | none =>
    cases found.attached with
    | none => exact .ok ⟨rfl, h⟩
    | some rest =>
      dsimp only
      split
      · exact .ok ⟨rfl, hinsert _⟩
      · exact .stop rfl
  | some v =>
    cases found.attached with
    | none => exact takeSeparate_fronted (hv v hov) h
    | some rest =>
      dsimp only
      split
      · split
        · exact .stop rfl
        · exact takeSeparate_fronted (hv v hov) (hinsert _)
      · exact takeAttached_fronted (hv v hov) h

/-- A token that the option does not take is passed over. -/
theorem run_fronted {counting : Bool} (ho : o.slot ∉ H)
    (hv : ∀ v, o.value = some v → Couples .none True H (value v) (value' v))
    (hfront : ∀ x ∈ front, x.isDoubleDash = false)
    (hnone : s.argv.findOption? o.names 0 front = none) (h : Fronted front exact H s t) :
    Meets Eq (SameFronted front exact H) (o.run value counting s) (o.run value' counting t) := by
  have hfind : t.argv.findOption? o.names 0 t.argv.tokens =
      (s.argv.findOption? o.names 0 s.argv.tokens).map
        fun found => { found with index := front.length + found.index } := by
    rw [Argv.findOption?_congr h.style h.autoDashes, h.tokens, Argv.findOption?_append hfront, hnone,
      Option.none_or, Argv.findOption?_add]
    simp only [Nat.add_comm]
  simp only [run, MatchM.slots_bind, h.slots _ ho]
  split
  · exact .ok ⟨rfl, h⟩
  simp only [MatchM.argv_bind, Argv.takeOption?, hfind]
  cases s.argv.findOption? o.names 0 s.argv.tokens with
  | none => exact .ok ⟨rfl, h⟩
  | some found =>
    simp only [Option.map_some, MatchM.setArgv_bind, MatchM.modifySlot_bind]
    refine takeFound_fronted hv ⟨?_, h.style, h.autoDashes, h.dashes, h.only, h.slots.modify ho _⟩
    simp only [Argv.remove, h.tokens]
    rw [List.eraseIdx_append_of_length_le (Nat.le_add_right _ _), Nat.add_sub_cancel_left]

end OptionOf

/-- What a match answers does not depend on the slots that its pattern does not reach. -/
theorem matchPattern_agrees {p : Pattern} {n : Nat} {counting : Bool} (hp : p.Avoids scope H) :
    Couples .none True H (matchPattern scope n counting p) (matchPattern scope n counting p) := by
  induction n generalizing p counting with
  | zero => exact fun _ _ _ => .stop rfl
  | succ n ih =>
    refine matchPattern_couples_succ hp (fun o ho s s' hs => ?_) fun c hc _ =>
      ih (hp.trans (Pattern.reaches_of_mem_tried hc))
    subst ho
    refine (OptionOf.run_fronted (hp.slot_notMem rfl) (fun v hv => ih (hp.trans (.value hv .refl)))
      (List.forall_mem_nil _) rfl hs.fronted).imp ?_
    rintro b t _ t' ⟨rfl, ht⟩
    exact ⟨rfl, ht.alike⟩

end Synopsis
