import Synopsis.Proofs.Argv.Spelling
import Synopsis.Proofs.Argv.Spent
import Synopsis.Proofs.Matcher.Parallel

/-! # Options in step

An option that is found in both streams, with the same text attached, takes the same value.
-/

namespace Synopsis

/-! ## Where options are found

A search goes on from one part of a stream to the next one. The flag that it finds parts
the stream in two. -/

namespace Argv

variable {a : Argv} {names : Names} {style : OptionStyle} {name text rest : String} {i k : Nat}
  {xs ys ts : List Token} {found : Found} {x : Token}

theorem findOption?_append (hx : ∀ t ∈ xs, t.isDoubleDash = false) :
    a.findOption? names i (xs ++ ys) =
      (a.findOption? names i xs).or (a.findOption? names (i + xs.length) ys) := by
  induction xs generalizing i with
  | nil => rfl
  | cons x xs ih =>
    obtain ⟨hx, hxs⟩ := List.forall_mem_cons.mp hx
    have hnext := ih hxs (i := i + 1)
    rw [Nat.add_right_comm, Nat.add_assoc] at hnext
    simp only [List.cons_append, findOption?, hx, Bool.and_false, Bool.false_eq_true, if_false,
      List.length_cons]
    split
    · split
      · rfl
      · exact hnext
    · exact hnext

theorem findOption?_add : a.findOption? names (i + k) ts =
    (a.findOption? names i ts).map fun f => { f with index := f.index + k } := by
  induction ts generalizing i with
  | nil => rfl
  | cons t ts ih =>
    have hnext := ih (i := i + 1)
    rw [Nat.add_right_comm] at hnext
    simp only [findOption?]
    split
    · rfl
    · split
      · split
        · rfl
        · exact hnext
      · exact hnext

theorem exists_parts_of_findOption? (h : a.findOption? names i ts = some found) :
    ∃ xs x ys, ts = xs ++ x :: ys ∧ found.index = i + xs.length ∧
      spelledBy? a.style names x.text = some (found.name, found.attached) := by
  obtain ⟨k, x, hi, ht, -, hs⟩ := exists_of_findOption? h
  obtain ⟨hlt, rfl⟩ := List.getElem?_eq_some_iff.mp ht
  refine ⟨ts.take k, ts[k], ts.drop (k + 1), ?_, ?_, hs⟩
  · rw [List.getElem_cons_drop, List.take_append_drop]
  · rw [List.length_take_of_le (Nat.le_of_lt hlt)]
    exact hi

/-- What is attached to a short option is the rest of its flag. -/
theorem length_of_short (h : spelledBy? style names text = some (name, some rest))
    (hshort : (style.standard && !name.startsWith "--") = true) : rest.length + 2 = text.length := by
  rw [Bool.and_eq_true, Bool.not_eq_true'] at hshort
  unfold spelledBy? at h
  cases hw : style.readsWhole text with
  | true =>
    have hdashes : text.startsWith "--" = true := by simpa [OptionStyle.readsWhole, hshort.1] using hw
    have hspelled : name = wholeName text := by
      rw [wholeName]
      cases hcut : Text.cutString? "=" text with
      | none | some =>
        simp only [hw, hcut, if_true, Option.ite_none_right_eq_some] at h
        exact (Prod.mk.inj (Option.some.inj h.2)).1.symm
    rw [hspelled, startsWith_wholeName hdashes] at hshort
    cases hshort.2
  | false =>
    simp only [hw, Bool.false_eq_true, if_false, Option.ite_none_right_eq_some] at h
    have hrest := (Prod.mk.inj (Option.some.inj h.2)).2
    split at hrest
    next => cases hrest
    next hlen =>
      obtain rfl := Option.some.inj hrest
      rw [← String.length_toList, ← String.length_toList, String.toList_ofList, List.length_drop]
      omega

end Argv

/-! ## Options that are found in both streams -/

variable {σ : OptionStyle} {E : List Token → List Token → Prop} {I : Slots → Prop} {s t : Attempt} {α : Type}

theorem Fronts.dashes_eq {ts us : List Token} (h : Fronts E ts us) :
    us.head?.any Token.isDoubleDash = ts.head?.any Token.isDoubleDash := by
  cases h with
  | same | token => rfl
  | option ht hu => simp [ht.isDoubleDash_eq, hu.isDoubleDash_eq]

theorem MatchM.onStream_parallel {stream stream' : Argv} {m m' : MatchM α} (h : Parallel σ E I m m')
    (hs : Twins σ E I ⟨s.slots, stream⟩ ⟨t.slots, stream'⟩) :
    Meets BothFail (fun x u y v => y.1 = x.1 ∧ Twins σ E I ⟨u.slots, x.2⟩ ⟨v.slots, y.2⟩ ∧
        u.argv = s.argv ∧ v.argv = t.argv ∧
        InStep stream.tokens x.2.tokens stream'.tokens y.2.tokens)
      (onStream stream m s) (onStream stream' m' t) := by
  simp only [onStream, argv_bind, setArgv_bind]
  refine (h _ _ hs).bind ?_
  rintro a u _ v ⟨rfl, hu, hstep⟩
  exact .ok ⟨rfl, hu, rfl, rfl, hstep⟩

namespace OptionOf

variable {o : OptionAtom} {m m' : MatchM Bool} {E' : List Token → List Token → Prop} {J : Slots → Prop}
  {slots : Slots} {a b : Argv} {xs ys xs' ys' : List Token}

/-- The same answer, with less left in the streams than some bounds. -/
structure Shortened (σ : OptionStyle) (E : List Token → List Token → Prop) (I : Slots → Prop) (n m : Nat)
    (x : Bool) (s : Attempt) (y : Bool) (t : Attempt) : Prop where
  answer : y = x
  twins : Twins σ E I s t
  left : Token.total s.argv.tokens < n
  right : Token.total t.argv.tokens < m

theorem takeSeparate_parallel {arity : Arity} (hE' : Akin E')
    (hput : ∀ zs zs', E' zs zs' → E (xs ++ zs) (xs' ++ zs')) (hys : E' ys ys')
    (hv : Parallel σ E' J m m') (hJ : ∀ slots, J slots → I slots) (hslots : J slots)
    (hab : a.Twin σ E b) (ha : a.tokens = xs ++ ys) (hb : b.tokens = xs' ++ ys') {k l : Nat}
    (hk : Token.total (xs ++ ys) < k) (hl : Token.total (xs' ++ ys') < l) :
    Meets BothFail (Shortened σ E I k l)
      (o.takeSeparate arity m xs.length ⟨slots, a⟩) (o.takeSeparate arity m' xs'.length ⟨slots, b⟩) := by
  have hfront (zs us : List Token) : (zs ++ us)[zs.length]? = us.head? := by
    rw [List.getElem?_append_right (Nat.le_refl _), Nat.sub_self, List.head?_eq_getElem?]
  simp only [takeSeparate, MatchM.argv_bind, ha, hb, hfront, (hE'.fronts hys).dashes_eq, hab.autoDashes,
    hab.style, List.take_left, List.drop_left]
  generalize (a.autoDashes && ys.head?.any Token.isDoubleDash) = atDashes
  split
  · exact .stop (.errors _ _)
  -- At a `--`, the value gets nothing and leaves nothing.
  have hsplit : ∃ kept given kept' given',
      (if atDashes = true then (xs ++ ys, []) else (xs, ys)) = (kept, given) ∧
      (if atDashes = true then (xs' ++ ys', []) else (xs', ys')) = (kept', given') ∧
      kept ++ given = xs ++ ys ∧ kept' ++ given' = xs' ++ ys' ∧ E' given given' ∧
      ∀ left left', InStep given left given' left' → E' left left' → E (kept ++ left) (kept' ++ left') := by
    cases atDashes with
    | false => exact ⟨xs, ys, xs', ys', rfl, rfl, rfl, rfl, hys, fun _ _ _ => hput _ _⟩
    | true =>
      refine ⟨xs ++ ys, [], xs' ++ ys', [], rfl, rfl, List.append_nil _, List.append_nil _, hE'.refl _, ?_⟩
      rintro left left' (⟨rfl, rfl⟩ | ⟨hlt, -⟩) -
      · simpa using hput _ _ hys
      · cases hlt
  obtain ⟨kept, given, kept', given', hkept, hkept', hall, hall', hgiven, hleft⟩ := hsplit
  have hstreams : Twins σ E' J ⟨slots, a.valueStream given⟩ ⟨slots, b.valueStream given'⟩ :=
    ⟨rfl, hslots, ⟨hgiven, hab.style_eq, hab.style, rfl, rfl, rfl⟩⟩
  rw [hkept, hkept']
  refine (MatchM.onStream_parallel (s := ⟨slots, a⟩) (t := ⟨slots, b⟩) hv hstreams).bind ?_
  rintro ⟨c, left⟩ u ⟨c', left'⟩ v ⟨hc, hu, -, -, hstep⟩
  obtain rfl : c' = c := hc
  cases c' with
  | false => exact .stop (.errors _ _)
  | true =>
    have hle : Token.total left.tokens ≤ Token.total given := hstep.le_left
    have hle' : Token.total left'.tokens ≤ Token.total given' := hstep.le_right
    refine .ok ⟨rfl, ⟨hu.slots, hJ _ hu.known, hleft _ _ hstep hu.argv.tokens, hab.style_eq, rfl, rfl,
      hab.dashes, hab.optionOnly⟩, ?_, ?_⟩
    · rw [← hall, Token.total_append] at hk
      simpa using Nat.lt_of_le_of_lt (Nat.add_le_add_left hle _) hk
    · rw [← hall', Token.total_append] at hl
      simpa using Nat.lt_of_le_of_lt (Nat.add_le_add_left hle' _) hl

/-- A relation that a flag in front does not change. -/
def FlagsAhead (E : List Token → List Token → Prop) : Prop :=
  ∀ t ts us, t.kind = .flag → E ts us → E (t :: ts) (t :: us)

theorem takeAttached_parallel (text : String) (hE' : Akin E') (hv : Parallel σ E' J m m')
    (hJ : ∀ slots, J slots → I slots) (hslots : J slots) (hab : a.Twin σ E b) {k l : Nat}
    (hk : Token.total a.tokens < k) (hl : Token.total b.tokens < l) :
    Meets BothFail (Shortened σ E I k l) (o.takeAttached m text ⟨slots, a⟩)
      (o.takeAttached m' text ⟨slots, b⟩) := by
  simp only [takeAttached, MatchM.argv_bind]
  have hstreams : Twins σ E' J ⟨slots, a.valueStream [⟨text, .value⟩]⟩ ⟨slots, b.valueStream [⟨text, .value⟩]⟩ :=
    ⟨rfl, hslots, ⟨hE'.refl _, hab.style_eq, hab.style, rfl, rfl, rfl⟩⟩
  refine (MatchM.onStream_parallel (s := ⟨slots, a⟩) (t := ⟨slots, b⟩) hv hstreams).bind ?_
  rintro ⟨c, left⟩ u ⟨c', left'⟩ v ⟨hc, hu, hua, hvb, -⟩
  obtain rfl : c' = c := hc
  have hempty : left'.isEmpty = left.isEmpty := hu.isEmpty_eq hE'.emptyTogether
  simp only [hempty]
  split
  · exact .stop (.errors _ _)
  · refine .ok ⟨rfl, ⟨hu.slots, hJ _ hu.known, ?_⟩, ?_, ?_⟩
    · rw [hua, hvb]
      exact hab
    · rw [hua]
      exact hk
    · rw [hvb]
      exact hl

theorem insert_tokens (ha : a.tokens = xs ++ ys) (r : Token) :
    (a.insert xs.length r).tokens = xs ++ r :: ys := by
  simp [Argv.insert, ha]

theorem takeFound_parallel {value value' : Pattern → MatchM Bool} {name : String} {attached : Option String}
    (hE' : Akin E') (hcons : FlagsAhead E')
    (hput : ∀ zs zs', E' zs zs' → E (xs ++ zs) (xs' ++ zs')) (hys : E' ys ys')
    (hv : ∀ w, o.value = some w → Parallel σ E' J (value w) (value' w)) (hJ : ∀ slots, J slots → I slots)
    (hslots : J slots) (hab : a.Twin σ E b) (ha : a.tokens = xs ++ ys) (hb : b.tokens = xs' ++ ys')
    {k l : Nat} (hk : Token.total (xs ++ ys) < k) (hl : Token.total (xs' ++ ys') < l)
    (hrest : ∀ rest, attached = some rest → (a.style.standard && !name.startsWith "--") = true →
      Token.total (xs ++ restOfStack rest :: ys) < k ∧ Token.total (xs' ++ restOfStack rest :: ys') < l) :
    Meets BothFail (Shortened σ E I k l)
      (o.takeFound value ⟨name, attached, xs.length⟩ ⟨slots, a⟩)
      (o.takeFound value' ⟨name, attached, xs'.length⟩ ⟨slots, b⟩) := by
  have hstack (rest : String) : E' (restOfStack rest :: ys) (restOfStack rest :: ys') := hcons _ _ _ rfl hys
  have hinsert (rest : String) : (a.insert xs.length (restOfStack rest)).Twin σ E
      (b.insert xs'.length (restOfStack rest)) := by
    refine ⟨?_, hab.style_eq, hab.style, hab.autoDashes, hab.dashes, hab.optionOnly⟩
    rw [insert_tokens ha, insert_tokens hb]
    exact hput _ _ (hstack rest)
  simp only [takeFound, MatchM.argv_bind, hab.style]
  cases hov : o.value with
  | none =>
    cases attached with
    | none => exact .ok ⟨rfl, ⟨rfl, hJ _ hslots, hab⟩, ha ▸ hk, hb ▸ hl⟩
    | some rest =>
      dsimp only
      split
      next hc =>
        rw [Bool.and_eq_true] at hc
        refine .ok ⟨rfl, ⟨rfl, hJ _ hslots, hinsert rest⟩, ?_, ?_⟩
        · exact insert_tokens ha _ ▸ (hrest rest rfl hc.1).1
        · exact insert_tokens hb _ ▸ (hrest rest rfl hc.1).2
      next => exact .stop (.errors _ _)
  | some w =>
    cases attached with
    | none => exact takeSeparate_parallel hE' hput hys (hv w hov) hJ hslots hab ha hb hk hl
    | some rest =>
      dsimp only
      split
      next hc =>
        rw [Bool.and_eq_true] at hc
        split
        · exact .stop (.errors _ _)
        · simp only [MatchM.setArgv_bind]
          have hlen (zs : List Token) : zs.length + 1 = (zs ++ [restOfStack rest]).length := by simp
          have happend (zs us : List Token) : zs ++ restOfStack rest :: us = zs ++ [restOfStack rest] ++ us := by simp
          rw [hlen xs, hlen xs']
          refine takeSeparate_parallel hE' (fun zs zs' h => ?_) hys (hv w hov) hJ hslots (hinsert rest)
            (by rw [insert_tokens ha, happend]) (by rw [insert_tokens hb, happend]) ?_ ?_
          · rw [← happend, ← happend]
            exact hput _ _ (hcons _ _ _ rfl h)
          · exact happend xs ys ▸ (hrest rest rfl hc.1).1
          · exact happend xs' ys' ▸ (hrest rest rfl hc.1).2
      next => exact takeAttached_parallel rest hE' (hv w hov) hJ hslots hab (ha ▸ hk) (hb ▸ hl)

/-! ## Finding -/

/-- Searches in two streams come to the same flag, or to none. What stands behind the flag is the
same or in the relation of the streams, in which they are without the flag. -/
inductive Searches (E : List Token → List Token → Prop) (names : Names) (a b : Argv) : Prop
  | absent (ha : a.takeOption? names = none) (hb : b.takeOption? names = none)
  | found {E' : List Token → List Token → Prop} {x : Token} {name : String} {attached : Option String}
      {xs ys xs' ys' : List Token} (hsort : E' = E ∨ E' = Eq) (hE' : Akin E') (hahead : FlagsAhead E')
      (hys : E' ys ys')
      (hput : ∀ zs zs', E' zs zs' → E (xs ++ zs) (xs' ++ zs'))
      (hx : Argv.spelledBy? a.style names x.text = some (name, attached))
      (ha : a.tokens = xs ++ x :: ys)
      (hfa : a.findOption? names 0 a.tokens = some ⟨name, attached, xs.length⟩)
      (hb : b.tokens = xs' ++ x :: ys')
      (hfb : b.findOption? names 0 b.tokens = some ⟨name, attached, xs'.length⟩)

theorem total_restOfStack {x : Token} {rest : String} (h : rest.length + 2 = x.text.length)
    (xs ys : List Token) : Token.total (xs ++ restOfStack rest :: ys) < Token.total (xs ++ x :: ys) := by
  simp only [Token.total_append, Token.total_cons, restOfStack, String.length_append, ← h]
  have hhyphen : "-".length = 1 := rfl
  omega

theorem remove_tokens {x : Token} (ha : a.tokens = xs ++ x :: ys) :
    (a.remove xs.length).tokens = xs ++ ys := by
  simp [Argv.remove, ha, List.eraseIdx_append_of_length_le]

/-- If both searches come to the same flag, the option does the same with it. -/
theorem run_of_searches {value value' : Pattern → MatchM Bool} (h : Twins σ E I s t)
    (hsearch : Searches E o.names s.argv t.argv)
    (hv : ∀ E', E' = E ∨ E' = Eq → Akin E' → ∀ w, o.value = some w →
      Parallel σ E' J (value w) (value' w))
    (hJ : ∀ slots, J slots → I slots)
    (hhit : ∀ slots, I slots → J (slots.modify o.slot (Slot.hit false))) :
    Meets BothFail (Abreast σ E I s t) (o.run value false s) (o.run value' false t) := by
  simp only [run, MatchM.slots_bind, h.slots]
  split
  · exact .ok ⟨rfl, h, .refl⟩
  simp only [MatchM.argv_bind]
  cases hsearch with
  | absent ha hb =>
    rw [ha, hb]
    exact .ok ⟨rfl, h, .refl⟩
  | @found E' x name attached xs ys xs' ys' hsort hE' hahead hys hput hx ha hfa hb hfb =>
    simp only [Argv.takeOption?, hfa, hfb, Option.map_some, MatchM.setArgv_bind,
      MatchM.modifySlot_bind, h.slots]
    have hab : (s.argv.remove xs.length).Twin σ E (t.argv.remove xs'.length) := by
      refine ⟨?_, h.argv.style_eq, h.argv.style, h.argv.autoDashes, h.argv.dashes, h.argv.optionOnly⟩
      rw [remove_tokens ha, remove_tokens hb]
      exact hput _ _ hys
    have hless (zs us : List Token) : Token.total (zs ++ us) < Token.total (zs ++ x :: us) := by
      simp only [Token.total_append, Token.total_cons]
      omega
    refine (takeFound_parallel hE' hahead hput hys (hv E' hsort hE') hJ (hhit _ h.known) hab (remove_tokens ha)
      (remove_tokens hb) (hless xs ys) (hless xs' ys') ?_).imp ?_
    · rintro rest rfl hshort
      have hlen := Argv.length_of_short hx hshort
      exact ⟨total_restOfStack hlen xs ys, total_restOfStack hlen xs' ys'⟩
    · rintro _ s' _ t' ⟨rfl, hu, hl, hr⟩
      rw [← ha] at hl
      rw [← hb] at hr
      exact ⟨rfl, hu, .moved hl hr⟩

end OptionOf

end Synopsis
