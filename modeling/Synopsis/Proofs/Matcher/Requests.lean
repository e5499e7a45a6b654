import Mathlib.Data.List.Chain
import Synopsis.Proofs.Argv.Reading
import Synopsis.Proofs.Matcher.Attached
import Synopsis.Proofs.Matcher.Gathering
import Synopsis.Proofs.Matcher.Stacked

/-! # What a stream asks for

The flags of a stream ask for options, each of which takes no value or one. What they ask for
can be read off from the front, and supplying one of the requests leaves the others.
So it does not matter in which order they are supplied.
-/

namespace Synopsis

open Argv (spelledBy?)

/-- An option that is asked for, and the text of its value if it has one. -/
structure Request where
  option : OptionAtom
  given : Option String

/-- Where a name is read from a stack, the rest of the stack is a flag again. -/
def OptionStyle.stacks (σ : OptionStyle) (name : String) : Bool :=
  (σ.standard && !name.startsWith "--") && σ.combined

/-- A token in front of others supplies a request, and what it leaves. -/
inductive Supplies (σ : OptionStyle) : Token → List Token → Request → List Token → Prop
  | flag {t : Token} {ts : List Token} {o : OptionAtom} {name : String} (hk : t.kind = .flag)
    (hs : spelledBy? σ o.names t.text = some (name, none)) (hv : o.value = none) :
    Supplies σ t ts ⟨o, none⟩ ts
  | stacked {t : Token} {ts : List Token} {o : OptionAtom} {name rest : String} (hk : t.kind = .flag)
    (hs : spelledBy? σ o.names t.text = some (name, some rest)) (hv : o.value = none)
    (hstacks : σ.stacks name = true) :
    Supplies σ t ts ⟨o, none⟩ (OptionOf.restOfStack rest :: ts)
  | attached {t : Token} {ts : List Token} {o : OptionAtom} {v : Pattern} {name text : String}
    (hk : t.kind = .flag) (hs : spelledBy? σ o.names t.text = some (name, some text))
    (hv : o.value = some v) : Supplies σ t ts ⟨o, some text⟩ ts
  | separate {t x : Token} {ts : List Token} {o : OptionAtom} {v : Pattern} {name : String}
    (hk : t.kind = .flag) (hs : spelledBy? σ o.names t.text = some (name, none))
    (hv : o.value = some v) (hx : x.Given) : Supplies σ t (x :: ts) ⟨o, some x.text⟩ ts

/-- How a token supplies an option that it spells. -/
def OptionOf.supplied? (σ : OptionStyle) (o : OptionAtom) (t : Token) (ts : List Token) :
    Option (Request × List Token) :=
  match spelledBy? σ o.names t.text, o.value, ts with
  | some (_, none), none, ts => some (⟨o, none⟩, ts)
  | some (_, some rest), none, ts => some (⟨o, none⟩, OptionOf.restOfStack rest :: ts)
  | some (_, some text), some _, ts => some (⟨o, some text⟩, ts)
  | some (_, none), some _, x :: ts => some (⟨o, some x.text⟩, ts)
  | _, _, _ => none

/-- What the flags in front of the end of the options ask for, and the tokens that they leave. -/
inductive Asks (σ : OptionStyle) (auto : Bool) (O : OptionAtom → Prop) :
    List Token → List Request → List Token → Prop
  | nil : Asks σ auto O [] [] []
  | ended {d : Token} {ts : List Token} (hd : (auto && d.isDoubleDash) = true) :
    Asks σ auto O (d :: ts) [] (d :: ts)
  | passed {t : Token} {ts ls : List Token} {rs : List Request} (hd : (auto && t.isDoubleDash) = false)
    (hflag : t.kind = .flag → looksLikeOption t.text = false) (h : Asks σ auto O ts rs ls) :
    Asks σ auto O (t :: ts) rs (t :: ls)
  | asked {t : Token} {ts us ls : List Token} {r : Request} {rs : List Request} (ho : O r.option)
    (ht : Supplies σ t ts r us) (h : Asks σ auto O us rs ls) : Asks σ auto O (t :: ts) (r :: rs) ls

/-- Options that share neither names nor slots, and each of which takes no value or one. -/
structure Offer (O : OptionAtom → Prop) : Prop where
  looks : ∀ o, O o → ∀ name ∈ o.names.toList, looksLikeOption name = true
  apart : ∀ o p, O o → O p → ∀ name ∈ o.names.toList, name ∈ p.names.toList → o = p
  value : ∀ o, O o → ∀ v ∈ o.value, ∃ leaf, SoleArgument v leaf
  nodup : ∀ o, O o → (Pattern.slots [.option o]).Nodup
  disjoint : ∀ o p, O o → O p → o ≠ p → (Pattern.slots [.option o]).Disjoint (Pattern.slots [.option p])

variable {σ : OptionStyle} {auto : Bool} {O : OptionAtom → Prop} {t x : Token}
  {ts us front ls : List Token} {r r' : Request} {rs : List Request} {o p : OptionAtom}

/-! ## Requests -/

/-- The options do not end in some tokens. -/
def Unended (auto : Bool) (ts : List Token) : Prop := ∀ x ∈ ts, (auto && x.isDoubleDash) = false

theorem unended_cons : Unended auto (x :: ts) ↔ (auto && x.isDoubleDash) = false ∧ Unended auto ts :=
  List.forall_mem_cons

theorem unended_flag (hk : x.kind = .flag) : (auto && x.isDoubleDash) = false := by
  rw [Token.isDoubleDash, hk]
  simp

/-- Behind some tokens in which the options do not end, a token is the first one that spells an option. -/
structure Finds (σ : OptionStyle) (auto : Bool) (o : OptionAtom) (front : List Token) (t : Token) :
    Prop where
  kind : t.kind = .flag
  spelled : (spelledBy? σ o.names t.text).isSome = true
  unended : Unended auto front
  missed : ∀ x ∈ front, x.kind = .flag → spelledBy? σ o.names x.text = none

theorem Finds.tail (h : Finds σ auto o (x :: front) t) : Finds σ auto o front t :=
  ⟨h.kind, h.spelled, (unended_cons.mp h.unended).2, (List.forall_mem_cons.mp h.missed).2⟩

/-- A flag of which the last option waits for its value. -/
inductive Expects (σ : OptionStyle) (O : OptionAtom → Prop) : Token → Prop
  | last {t : Token} {o : OptionAtom} {name : String} (hk : t.kind = .flag) (ho : O o)
    (hs : spelledBy? σ o.names t.text = some (name, none)) (hv : o.value.isSome = true) : Expects σ O t
  | stacked {t : Token} {o : OptionAtom} {name rest : String} (hk : t.kind = .flag) (ho : O o)
    (hs : spelledBy? σ o.names t.text = some (name, some rest)) (hv : o.value = none)
    (hstacks : σ.stacks name = true) (h : Expects σ O (OptionOf.restOfStack rest)) : Expects σ O t

/-- No flag stands where a value is waited for. -/
def Chained (σ : OptionStyle) (O : OptionAtom → Prop) (ts : List Token) : Prop :=
  ts.IsChain fun x y => y.kind = .flag → ¬ Expects σ O x

theorem Token.Given.not_option (h : x.Given) (hk : x.kind = .flag) : looksLikeOption x.text = false := by
  simpa [Positional.accepts, hk] using h.2 ⟨{}, 0⟩

theorem Offer.looks_of_spelled (hO : Offer O) (ho : O o)
    (h : (spelledBy? σ o.names t.text).isSome = true) : looksLikeOption t.text = true := by
  obtain ⟨⟨name, attached⟩, hs⟩ := Option.isSome_iff_exists.mp h
  exact Argv.looksLikeOption_of_prefix (Argv.prefix_of_spelledBy? hs)
    (hO.looks o ho name (Argv.mem_of_spelledBy? hs))

/-- What a flag spells depends on the names only in whether they have it. -/
theorem Argv.spelledBy?_inj {names names' : Names} {text name name' : String}
    {attached attached' : Option String} (h : spelledBy? σ names text = some (name, attached))
    (h' : spelledBy? σ names' text = some (name', attached')) : name' = name ∧ attached' = attached := by
  unfold spelledBy? at h h'
  simp only [Option.ite_none_right_eq_some] at h h'
  exact Prod.mk.inj (Option.some.inj (h'.2.symm.trans h.2))

/-- An option that is read as a whole is no stack, and nothing is attached to it if it waits. -/
theorem Expects.whole {text : String} (h : Expects σ O ⟨text, .flag⟩) (hd : Dashed text)
    (hw : σ.readsWhole text = true) : Text.cutString? "=" text = none ∧
      ∃ o, O o ∧ o.value.isSome = true ∧ Argv.wholeName text ∈ o.names.toList := by
  cases h with
  | last _ ho ho' hv =>
    have hname := Argv.mem_of_spelledBy? ho'
    generalize hattached : none = attached at ho'
    cases Argv.spelled_of_spelledBy? hd ho' with
    | whole => exact ⟨Option.map_eq_none_iff.mp hattached.symm, _, ho, hv, hname⟩
    | short hw' => simp [hw] at hw'
    | stack => cases hattached
  | stacked _ _ ho' _ hstacks =>
    have hshort := (Argv.spelled_of_spelledBy? hd ho').isShort_eq
    rw [OptionStyle.stacks, hshort, hw] at hstacks
    cases hstacks

namespace Supplies

theorem told (h : Supplies σ t ts r us) : r.option.supplied? σ t ts = some (r, us) := by
  cases h with
  | flag _ hs hv | stacked _ hs hv | attached _ hs hv | separate _ hs hv =>
    simp only [OptionOf.supplied?, hs, hv]

theorem kind (h : Supplies σ t ts r us) : t.kind = .flag := by
  cases h <;> assumption

theorem spelled (h : Supplies σ t ts r us) : (spelledBy? σ r.option.names t.text).isSome = true := by
  cases h with
  | flag _ hs | stacked _ hs | attached _ hs | separate _ hs => rw [hs]; rfl

/-- A token that spells an option does not supply another one. -/
theorem option_eq (hO : Offer O) (ho : O o) (hr : O r.option) (h : Supplies σ t ts r us)
    (hs : (spelledBy? σ o.names t.text).isSome = true) : r.option = o := by
  obtain ⟨⟨name, attached⟩, hs⟩ := Option.isSome_iff_exists.mp hs
  obtain ⟨⟨name', attached'⟩, hs'⟩ := Option.isSome_iff_exists.mp h.spelled
  obtain ⟨rfl, -⟩ := Argv.spelledBy?_inj hs hs'
  exact hO.apart _ _ hr ho name' (Argv.mem_of_spelledBy? hs') (Argv.mem_of_spelledBy? hs)

/-- A flag supplies an option in one way. -/
theorem unique {us' : List Token} (h : Supplies σ t ts r us) (h' : Supplies σ t ts r' us')
    (ho : r'.option = r.option) : r' = r ∧ us' = us := by
  have htold := h.told
  rw [← ho, h'.told] at htold
  obtain ⟨rfl, rfl⟩ := Prod.mk.inj (Option.some.inj htold)
  exact ⟨rfl, rfl⟩

/-- More tokens behind the others. -/
theorem append (h : Supplies σ t front r us) (ts : List Token) :
    Supplies σ t (front ++ ts) r (us ++ ts) := by
  cases h with
  | flag hk hs hv => exact .flag hk hs hv
  | stacked hk hs hv hstacks => exact .stacked hk hs hv hstacks
  | attached hk hs hv => exact .attached hk hs hv
  | separate hk hs hv hx => exact .separate hk hs hv hx

/-- What a token leaves of some tokens in front of others, if it does not take one of these. -/
theorem split (h : Supplies σ t (front ++ ts) r us) (ho : O r.option)
    (hts : front = [] → Expects σ O t → ∀ x ∈ ts.head?, ¬ x.Given) :
    ∃ left, us = left ++ ts ∧ Supplies σ t front r left := by
  generalize hws : front ++ ts = ws at h
  cases h with
  | flag hk hs hv => exact ⟨front, hws.symm, .flag hk hs hv⟩
  | stacked hk hs hv hstacks => exact ⟨_ :: front, by rw [← hws]; rfl, .stacked hk hs hv hstacks⟩
  | attached hk hs hv => exact ⟨front, hws.symm, .attached hk hs hv⟩
  | separate hk hs hv hx =>
    cases front with
    | nil =>
      obtain rfl : ts = _ := hws
      exact absurd hx (hts rfl (.last hk ho hs (by rw [hv]; rfl)) _ rfl)
    | cons y front =>
      obtain ⟨rfl, rfl⟩ := List.cons.inj hws
      exact ⟨front, rfl, .separate hk hs hv hx⟩

theorem unended (h : Supplies σ t front r us) (hfront : Unended auto front) : Unended auto us := by
  cases h with
  | flag | attached => exact hfront
  | stacked => exact unended_cons.mpr ⟨unended_flag rfl, hfront⟩
  | separate => exact (unended_cons.mp hfront).2

end Supplies

/-! ## Streams -/

/-- Some token in front of the end of the options spells an option. -/
def Spots (σ : OptionStyle) (auto : Bool) (o : OptionAtom) (ts : List Token) : Prop :=
  ∃ front t rest, ts = front ++ t :: rest ∧ Unended auto front ∧ t.kind = .flag ∧
    (spelledBy? σ o.names t.text).isSome = true

namespace Spots

theorem cons (h : Spots σ auto o ts) (hx : (auto && x.isDoubleDash) = false) :
    Spots σ auto o (x :: ts) := by
  obtain ⟨front, t, rest, rfl, hfront, ht⟩ := h
  exact ⟨x :: front, t, rest, rfl, unended_cons.mpr ⟨hx, hfront⟩, ht⟩

theorem tail (h : Spots σ auto o (x :: ts)) :
    (x.kind = .flag ∧ (spelledBy? σ o.names x.text).isSome = true) ∨
      (auto && x.isDoubleDash) = false ∧ Spots σ auto o ts := by
  obtain ⟨front, t, rest, hts, hfront, ht⟩ := h
  cases front with
  | nil =>
    obtain ⟨rfl, rfl⟩ := List.cons.inj hts
    exact .inl ht
  | cons y front =>
    obtain ⟨rfl, rfl⟩ := List.cons.inj hts
    obtain ⟨hx, hfront⟩ := unended_cons.mp hfront
    exact .inr ⟨hx, front, t, rest, rfl, hfront, ht⟩

/-- What spells an option is not taken as a value. -/
theorem supplied (hO : Offer O) (ho : O o) (h : Spots σ auto o ts) (ht : Supplies σ t ts r us) :
    Spots σ auto o us := by
  cases ht with
  | flag | attached => exact h
  | stacked => exact h.cons (unended_flag rfl)
  | separate _ _ _ hx =>
    rcases h.tail with ⟨hk, hspelled⟩ | ⟨-, h⟩
    · have hlooks := hO.looks_of_spelled ho hspelled
      rw [hx.not_option hk] at hlooks
      cases hlooks
    · exact h

end Spots

/-- Supplying a request leaves no flag where a value is waited for. -/
theorem Chained.supplied (h : Chained σ O (t :: ts)) (hr : O r.option) (ht : Supplies σ t ts r us) :
    Chained σ O us := by
  cases ht with
  | flag | attached => exact h.tail
  | stacked hk hs hv hstacks =>
    cases ts with
    | nil => exact .singleton _
    | cons y ts =>
      obtain ⟨hy, h⟩ := List.isChain_cons_cons.mp h
      refine List.isChain_cons_cons.mpr ⟨fun hflag hexpects => hy hflag ?_, h⟩
      exact .stacked hk hr hs hv hstacks hexpects
  | separate => exact h.tail.tail

theorem Chained.behind (h : Chained σ O (front ++ t :: ts)) (hr : O r.option)
    (ht : Supplies σ t ts r us) : Chained σ O (front ++ us) := by
  obtain ⟨hfront, hts, hjoint⟩ := List.isChain_append.mp h
  refine List.isChain_append.mpr ⟨hfront, Chained.supplied hts hr ht, fun x hx y _ _ => ?_⟩
  exact hjoint x hx t rfl ht.kind

namespace Asks

theorem offered (h : Asks σ auto O ts rs ls) : ∀ r ∈ rs, O r.option := by
  induction h with
  | nil | ended => exact List.forall_mem_nil _
  | passed _ _ _ ih => exact ih
  | asked ho _ _ ih => exact List.forall_mem_cons.mpr ⟨ho, ih⟩

/-- An option that is spelled is asked for. -/
theorem of_spots (hO : Offer O) (ho : O o) (h : Asks σ auto O ts rs ls) (hs : Spots σ auto o ts) :
    o ∈ rs.map (·.option) := by
  induction h with
  | nil =>
    obtain ⟨front, t, rest, hts, -⟩ := hs
    simp at hts
  | ended hd =>
    rcases hs.tail with ⟨hk, -⟩ | ⟨hx, -⟩
    · rw [unended_flag hk] at hd
      cases hd
    · rw [hd] at hx
      cases hx
  | passed _ hflag _ ih =>
    rcases hs.tail with ⟨hk, hspelled⟩ | ⟨-, hs⟩
    · have hlooks := hO.looks_of_spelled ho hspelled
      rw [hflag hk] at hlooks
      cases hlooks
    · exact ih hs
  | asked hr ht _ ih =>
    rcases hs.tail with ⟨-, hspelled⟩ | ⟨-, hs⟩
    · rw [List.map_cons, ht.option_eq hO ho hr hspelled]
      exact List.mem_cons_self
    · exact List.mem_cons_of_mem _ (ih (hs.supplied hO ho ht))

/-- Where something is asked for, its option is spelled. -/
theorem spots (h : Asks σ auto O ts (r :: rs) ls) : Spots σ auto r.option ts := by
  generalize hrs : r :: rs = rs' at h
  induction h with
  | nil | ended => cases hrs
  | passed hd _ _ ih => exact (ih hrs).cons hd
  | asked _ ht =>
    obtain ⟨rfl, -⟩ := List.cons.inj hrs
    exact ⟨[], _, _, rfl, nofun, ht.kind, ht.spelled⟩

/-- An option that is spelled by two tokens is asked for twice. -/
theorem asks_twice (hO : Offer O) (ho : O o) (h : Asks σ auto O (x :: ts) rs ls) (hk : x.kind = .flag)
    (hspelled : (spelledBy? σ o.names x.text).isSome = true) (hs : Spots σ auto o ts) :
    ¬ (rs.map (·.option)).Nodup := by
  cases h with
  | ended hd =>
    rw [unended_flag hk] at hd
    cases hd
  | passed _ hflag =>
    have hlooks := hO.looks_of_spelled ho hspelled
    rw [hflag hk] at hlooks
    cases hlooks
  | asked hr ht h =>
    rw [List.map_cons, ht.option_eq hO ho hr hspelled, List.nodup_cons]
    exact fun hnodup => hnodup.1 (h.of_spots hO ho (hs.supplied hO ho ht))

/-- The first token that spells an option supplies it, and the other requests are left. -/
theorem supply (hO : Offer O) (h : Asks σ auto O (front ++ t :: ts) rs ls) (ho : O o)
    (hf : Finds σ auto o front t) (hnodup : (rs.map (·.option)).Nodup) :
    ∃ r us rs₁ rs₂, r.option = o ∧ Supplies σ t ts r us ∧ rs = rs₁ ++ r :: rs₂ ∧
      Asks σ auto O (front ++ us) (rs₁ ++ rs₂) ls := by
  have hlooks := hO.looks_of_spelled ho hf.spelled
  generalize hws : front ++ t :: ts = ws at h
  induction h generalizing front with
  | nil => simp at hws
  | ended hd =>
    cases front with
    | nil =>
      obtain ⟨rfl, -⟩ := List.cons.inj hws
      rw [unended_flag hf.kind] at hd
      cases hd
    | cons y front =>
      obtain ⟨rfl, -⟩ := List.cons.inj hws
      rw [(unended_cons.mp hf.unended).1] at hd
      cases hd
  | passed hd hflag _ ih =>
    cases front with
    | nil =>
      obtain ⟨rfl, -⟩ := List.cons.inj hws
      rw [hflag hf.kind] at hlooks
      cases hlooks
    | cons y front =>
      obtain ⟨rfl, rfl⟩ := List.cons.inj hws
      obtain ⟨r, us, rs₁, rs₂, hr, hsupplies, rfl, hasks⟩ := ih hf.tail hnodup rfl
      exact ⟨r, us, rs₁, rs₂, hr, hsupplies, rfl, .passed hd hflag hasks⟩
  | @asked y ws us' ls r' rs hr' hy hus ih =>
    cases front with
    | nil =>
      obtain ⟨rfl, rfl⟩ := List.cons.inj hws
      exact ⟨r', us', [], rs, hy.option_eq hO ho hr' hf.spelled, hy, rfl, hus⟩
    | cons z front =>
      obtain ⟨rfl, rfl⟩ := List.cons.inj hws
      have hf := hf.tail
      rw [List.map_cons, List.nodup_cons] at hnodup
      obtain ⟨left, rfl, hleft⟩ := hy.split hr' fun _ _ x hx hgiven => by
        obtain rfl := Option.some.inj hx
        rw [hgiven.not_option hf.kind] at hlooks
        cases hlooks
      have hmissed : ∀ x ∈ left, x.kind = .flag → spelledBy? σ o.names x.text = none := by
        cases hleft with
        | flag | attached => exact hf.missed
        | stacked =>
          refine List.forall_mem_cons.mpr ⟨fun _ => ?_, hf.missed⟩
          by_contra hrest
          have htwice : Spots σ auto o (front ++ t :: ts) :=
            ⟨front, t, ts, rfl, hf.unended, hf.kind, hf.spelled⟩
          exact hus.asks_twice hO ho rfl (Option.isSome_iff_ne_none.mpr hrest) htwice hnodup.2
        | separate => exact (List.forall_mem_cons.mp hf.missed).2
      obtain ⟨r, us, rs₁, rs₂, hr, hsupplies, rfl, hasks⟩ :=
        ih ⟨hf.kind, hf.spelled, hleft.unended hf.unended, hmissed⟩ hnodup.2 rfl
      exact ⟨r, us, r' :: rs₁, rs₂, hr, hsupplies, rfl, .asked hr' (hleft.append us) hasks⟩

/-- A request that was supplied was one of those that the stream asked for. -/
theorem unsupply (h : Asks σ auto O (front ++ us) rs ls) (hr : O r.option) (ht : Supplies σ t ts r us)
    (hfront : Unended auto front) (hchain : Chained σ O (front ++ t :: ts)) :
    ∃ rs₁ rs₂, rs = rs₁ ++ rs₂ ∧ Asks σ auto O (front ++ t :: ts) (rs₁ ++ r :: rs₂) ls := by
  generalize hws : front ++ us = ws at h
  induction h generalizing front with
  | nil =>
    obtain ⟨rfl, rfl⟩ := List.append_eq_nil_iff.mp hws
    exact ⟨[], [], rfl, .asked hr ht .nil⟩
  | ended hd =>
    cases front with
    | nil =>
      obtain rfl : us = _ := hws
      exact ⟨[], [], rfl, .asked hr ht (.ended hd)⟩
    | cons y front =>
      obtain ⟨rfl, -⟩ := List.cons.inj hws
      rw [(unended_cons.mp hfront).1] at hd
      cases hd
  | passed hd hflag h ih =>
    cases front with
    | nil =>
      obtain rfl : us = _ := hws
      exact ⟨[], _, rfl, .asked hr ht (.passed hd hflag h)⟩
    | cons y front =>
      obtain ⟨rfl, rfl⟩ := List.cons.inj hws
      obtain ⟨rs₁, rs₂, rfl, hasks⟩ := ih (unended_cons.mp hfront).2 hchain.tail rfl
      exact ⟨rs₁, rs₂, rfl, .passed hd hflag hasks⟩
  | @asked y ws us' ls r' rs hr' hy h ih =>
    cases front with
    | nil =>
      obtain rfl : us = _ := hws
      exact ⟨[], _, rfl, .asked hr ht (.asked hr' hy h)⟩
    | cons z front =>
      obtain ⟨rfl, rfl⟩ := List.cons.inj hws
      obtain ⟨left, rfl, hleft⟩ := hy.split hr' fun hnil hexpects => by
        subst hnil
        exact absurd hexpects ((List.isChain_cons_cons.mp hchain).1 ht.kind)
      obtain ⟨rs₁, rs₂, rfl, hasks⟩ := ih (hleft.unended (unended_cons.mp hfront).2)
        (hchain.supplied hr' (hleft.append (t :: ts))) rfl
      exact ⟨r' :: rs₁, rs₂, rfl, .asked hr' (hleft.append _) hasks⟩

/-- Tokens behind others may be replaced by tokens that ask for the same. -/
theorem congr_behind {us' : List Token} (h : Asks σ auto O (front ++ us) rs ls)
    (hus : ∀ rs ls, Asks σ auto O us rs ls → Asks σ auto O us' rs ls)
    (hhead : ∀ x ∈ us.head?, ¬ x.Given) (hfront : Unended auto front) :
    Asks σ auto O (front ++ us') rs ls := by
  generalize hws : front ++ us = ws at h
  induction h generalizing front with
  | nil =>
    obtain ⟨rfl, rfl⟩ := List.append_eq_nil_iff.mp hws
    exact hus _ _ .nil
  | ended hd =>
    cases front with
    | nil =>
      obtain rfl : us = _ := hws
      exact hus _ _ (.ended hd)
    | cons y front =>
      obtain ⟨rfl, -⟩ := List.cons.inj hws
      rw [(unended_cons.mp hfront).1] at hd
      cases hd
  | passed hd hflag h ih =>
    cases front with
    | nil =>
      obtain rfl : us = _ := hws
      exact hus _ _ (.passed hd hflag h)
    | cons y front =>
      obtain ⟨rfl, rfl⟩ := List.cons.inj hws
      exact .passed hd hflag (ih (unended_cons.mp hfront).2 rfl)
  | asked hr hy h ih =>
    cases front with
    | nil =>
      obtain rfl : us = _ := hws
      exact hus _ _ (.asked hr hy h)
    | cons z front =>
      obtain ⟨rfl, rfl⟩ := List.cons.inj hws
      obtain ⟨left, rfl, hleft⟩ := hy.split hr fun _ _ => hhead
      exact .asked hr (hleft.append us') (ih (hleft.unended (unended_cons.mp hfront).2) rfl)

/-- Nothing is left to ask for. -/
theorem eq_of_nil (h : Asks σ auto O ts [] ls) : ls = ts := by
  generalize hrs : ([] : List Request) = rs at h
  induction h with
  | nil | ended => rfl
  | passed _ _ _ ih => rw [ih hrs]
  | asked => cases hrs

/-- Plain tokens ask for nothing. -/
theorem of_plain (hfront : ∀ x ∈ front, x.Plain) (h : Asks σ auto O ts rs ls) :
    Asks σ auto O (front ++ ts) rs (front ++ ls) := by
  induction front with
  | nil => exact h
  | cons x front ih =>
    obtain ⟨hx, hfront⟩ := List.forall_mem_cons.mp hfront
    exact .passed (by rw [hx.1, Bool.and_false]) hx.2 (ih hfront)

end Asks

/-! ## Tokens of arguments -/

/-- What an option table has to know of options that take one value at most. -/
structure OptionTable.Knows (t : OptionTable) (O : OptionAtom → Prop) : Prop where
  count : ∀ o, O o → ∀ name ∈ o.names.toList, t.valueCount? name = o.value.map fun _ => 1
  dashes : t.contains "--" = false

namespace OptionTable.Knows

variable {table : OptionTable} (h : table.Knows O) (hs : σ.standard = true)
include h hs

omit hs in
/-- A flag of the table takes no value. -/
theorem value_eq_none {name : String} (ho : O o) (hname : o.names.contains name = true)
    (hflag : table.valueCount? name = none) : o.value = none := by
  rw [h.count o ho name (OrderedSet.contains_iff.mp hname)] at hflag
  exact Option.map_eq_none_iff.mp hflag

omit hs in
theorem ne_hyphen {d : Char} (hknown : ¬ (!table.contains (String.ofList ['-', d])) = true) :
    d ≠ '-' := by
  rintro rfl
  exact hknown (by rw [show String.ofList ['-', '-'] = "--" from rfl, h.dashes]; rfl)

theorem pos_of_stackReserve (hcombined : σ.combined = true) {token : String} {wanted n : Nat} {d : Char}
    {cs : List Char} (hn : table.stackReserve σ token wanted (d :: cs) = .ok n)
    (hexpects : Expects σ O (stackOf (d :: cs))) : 0 < n := by
  induction cs generalizing d wanted with
  | nil =>
    rw [stackReserve] at hn
    split at hn
    · cases hn
    next hknown =>
      have hspelled (o : OptionAtom) : spelledBy? σ o.names (stackOf [d]).text = _ :=
        Argv.spelledBy?_stackOf hs (h.ne_hyphen hknown)
      cases hexpects with
      | @last _ o _ hk ho ho' hv =>
        rw [hspelled, Option.ite_none_right_eq_some] at ho'
        obtain ⟨v, hv⟩ := Option.isSome_iff_exists.mp hv
        have hcount : table.valueCount? (String.ofList ['-', d]) = o.value.map fun _ => 1 :=
          h.count o ho _ (OrderedSet.contains_iff.mp ho'.1)
        rw [hcount, hv] at hn
        obtain rfl := Except.ok.inj hn
        exact Nat.one_pos
      | stacked hk ho ho' =>
        rw [hspelled, Option.ite_none_right_eq_some] at ho'
        cases ho'.2
  | cons e cs ih =>
    rw [stackReserve] at hn
    split at hn
    · cases hn
    next hknown =>
      have hspelled (o : OptionAtom) : spelledBy? σ o.names (stackOf (d :: e :: cs)).text = _ :=
        Argv.spelledBy?_stackOf hs (h.ne_hyphen hknown)
      cases hexpects with
      | last hk ho ho' =>
        rw [hspelled, Option.ite_none_right_eq_some] at ho'
        cases ho'.2
      | @stacked _ o _ _ hk ho ho' hv _ hexpects =>
        rw [hspelled, Option.ite_none_right_eq_some] at ho'
        obtain ⟨hname, ho'⟩ := ho'
        obtain rfl := Option.some.inj (Prod.mk.inj (Option.some.inj ho')).2
        have hcount : table.valueCount? (String.ofList ['-', d]) = o.value.map fun _ => 1 :=
          h.count o ho _ (OrderedSet.contains_iff.mp hname)
        rw [OptionOf.restOfStack_ofList] at hexpects
        simp only [hcount, hv, Option.map_none, hcombined, List.isEmpty_cons, Bool.not_true, Bool.or_false,
          Bool.false_eq_true, if_false] at hn
        exact ih hn hexpects

theorem pos_of_normalize (hcombined : σ.combined = true) {arg text : String} {n : Nat}
    (hl : looksLikeOption arg = true) (hn : Normalizes table σ arg text n)
    (hexpects : Expects σ O ⟨text, .flag⟩) : 0 < n := by
  have hd : Dashed text := dashed_of_normalize (dashed_of_looksLikeOption hl) (normalize_eq_ok_iff.mpr hn)
  have longer {name known : String} (hw : name.startsWith "--" = true)
      (hk : name.toList <+: known.toList) : σ.readsWhole known = true := by
    obtain ⟨cs, hcs⟩ := (Argv.startsWith_dashes_iff name).mp hw
    obtain ⟨more, hmore⟩ := hk
    rw [hcs] at hmore
    rw [OptionStyle.readsWhole, (Argv.startsWith_dashes_iff known).mpr ⟨_, hmore.symm⟩, Bool.true_or]
  have starts {name : String} (hw : σ.readsWhole name = true) : name.startsWith "--" = true := by
    simpa [OptionStyle.readsWhole, hs] using hw
  cases hn with
  | @whole name _ hw hname hk =>
    obtain ⟨hcut, o, ho, hv, hname⟩ := hexpects.whole hd (longer (starts hw) (toList_prefix_of_resolve hk))
    obtain ⟨v, hv⟩ := Option.isSome_iff_exists.mp hv
    rw [Argv.wholeName, hcut, Option.elim_none] at hname
    rw [h.count o ho _ hname, hv]
    exact Nat.one_pos
  | @assigned name known value hw hname hk =>
    have hwhole : Argv.wholeName (name ++ "=" ++ value) = name := by
      rw [Argv.wholeName, Text.cutString?_append hname, Option.elim_some]
    have hprefix : name.toList <+: (known ++ "=" ++ value).toList := by
      simpa using (toList_prefix_of_resolve hk).trans (List.prefix_append _ _)
    have hread := longer (hwhole ▸ Argv.startsWith_wholeName (starts hw)) hprefix
    have hmark : '=' ∈ (known ++ "=" ++ value).toList := by simp
    obtain ⟨a, b, ha, htext⟩ := Text.exists_parts_of_mem hmark
    have hcut := (hexpects.whole hd hread).1
    rw [htext, Text.cutString?_append ha] at hcut
    cases hcut
  | stack hw hreserve =>
    obtain ⟨d, cs, harg⟩ := dashed_of_looksLikeOption hl
    have hstack : (⟨arg, .flag⟩ : Token) = stackOf (d :: cs) :=
      congrArg (Token.mk · .flag) (String.toList_inj.mp (harg.trans (toList_stackOf _).symm))
    rw [harg] at hreserve
    exact h.pos_of_stackReserve hs hcombined hreserve (hstack ▸ hexpects)

/-- The value that a flag waits for stands behind it, if anything does. -/
theorem chained {c : Config} (hc : c.style = σ) (hcombined : σ.combined = true) {n : Nat}
    {raw : List String} (ht : Tokenizes table c n raw ts) :
    Chained σ O ts ∧ (0 < n → ∀ x ∈ ts.head?, x.kind ≠ .flag) := by
  subst hc
  -- A flag is behind nothing else that is not one.
  have other {x : Token} {ts : List Token} (hx : x.kind ≠ .flag) (hts : Chained c.style O ts) :
      Chained c.style O (x :: ts) := by
    refine List.isChain_cons.mpr ⟨fun y _ _ hexpects => ?_, hts⟩
    cases hexpects <;> contradiction
  have literals (args : List String) : Chained c.style O (args.map (⟨·, .literal⟩)) := by
    induction args with
    | nil => exact .nil
    | cons arg args ih => exact other nofun ih
  induction ht with
  | nil => exact ⟨.nil, fun _ => nofun⟩
  | value _ _ ih => exact ⟨other nofun ih.1, by rintro - x ⟨⟩; exact nofun⟩
  | marked => exact ⟨other nofun (literals _), by rintro - x ⟨⟩; exact nofun⟩
  | unmarked _ _ ih => exact ⟨other nofun ih.1, by rintro - x ⟨⟩; exact nofun⟩
  | flag hl hn _ ih =>
    refine ⟨List.isChain_cons.mpr ⟨fun y hy hflag hexpects => ?_, ih.1⟩, nofun⟩
    exact ih.2 (h.pos_of_normalize hs hcombined hl hn hexpects) y hy hflag
  | ended => exact ⟨other nofun (literals _), nofun⟩
  | word _ _ _ _ ih => exact ⟨other nofun ih.1, nofun⟩

end OptionTable.Knows

/-! ## Stacks -/

section Stacks

variable {cs : List Char} {d : Char} (hs : σ.standard = true) (hcombined : σ.combined = true)
include hs hcombined

/-- A stack asks for the option that its first flag names, and the rest for the others. -/
theorem asks_stacked_iff (hd : d ≠ '-')
    (hvalue : ∀ o, O o → o.names.contains (stackOf [d]).text = true → o.value = none) :
    Asks σ auto O (stacked (d :: cs) ++ ts) rs ls ↔ ∃ o rs', O o ∧
      o.names.contains (stackOf [d]).text = true ∧ rs = ⟨o, none⟩ :: rs' ∧
        Asks σ auto O (stacked cs ++ ts) rs' ls := by
  have hspelled (o : OptionAtom) : spelledBy? σ o.names (stackOf (d :: cs)).text = _ :=
    Argv.spelledBy?_stackOf hs hd
  constructor
  · intro h
    cases h with
    | ended hend =>
      rw [unended_flag rfl] at hend
      cases hend
    | passed _ hflag =>
      have hlooks : looksLikeOption (stackOf (d :: cs)).text = true := (isOption_stackOf hd).looks
      rw [hflag rfl] at hlooks
      cases hlooks
    | @asked _ _ us _ r rs' hr ht h =>
      have hname : r.option.names.contains (stackOf [d]).text = true := by
        have hsome := ht.spelled
        rw [hspelled] at hsome
        by_contra hname
        simp [hname] at hsome
      have htold := ht.told
      simp only [OptionOf.supplied?, hspelled, hname, hvalue _ hr hname, if_true] at htold
      cases cs with
      | nil =>
        obtain ⟨hrequest, rfl⟩ := Prod.mk.inj (Option.some.inj htold)
        exact ⟨_, rs', hr, hname, by rw [hrequest], h⟩
      | cons e cs =>
        obtain ⟨hrequest, rfl⟩ := Prod.mk.inj (Option.some.inj htold)
        rw [OptionOf.restOfStack_ofList] at h
        exact ⟨_, rs', hr, hname, by rw [hrequest], h⟩
  · rintro ⟨o, rs', ho, hname, rfl, h⟩
    have hs' := hspelled o
    rw [if_pos hname] at hs'
    cases cs with
    | nil => exact .asked ho (.flag rfl hs' (hvalue o ho hname)) h
    | cons e cs =>
      have hstacks : σ.stacks (stackOf [d]).text = true := by
        rw [OptionStyle.stacks, hs, hcombined, Argv.startsWith_dashes_eq_false (toList_stackOf _) hd]
        rfl
      refine .asked ho (.stacked rfl hs' (hvalue o ho hname) hstacks) ?_
      rw [OptionOf.restOfStack_ofList]
      exact h

/-- A stack asks for the same as its flags one by one. -/
theorem asks_unstacked_iff (hcs : '-' ∉ cs)
    (hvalue : ∀ d ∈ cs, ∀ o, O o → o.names.contains (stackOf [d]).text = true → o.value = none) :
    Asks σ auto O (unstacked cs ++ ts) rs ls ↔ Asks σ auto O (stacked cs ++ ts) rs ls := by
  induction cs generalizing rs with
  | nil => exact .rfl
  | cons d cs ih =>
    rw [List.mem_cons, not_or] at hcs
    obtain ⟨hd, hvalue⟩ := List.forall_mem_cons.mp hvalue
    have hfirst : unstacked (d :: cs) ++ ts = stacked [d] ++ (unstacked cs ++ ts) := rfl
    rw [hfirst, asks_stacked_iff hs hcombined (Ne.symm hcs.1) hd,
      asks_stacked_iff hs hcombined (Ne.symm hcs.1) hd]
    simp only [stacked, List.nil_append, ih hcs.2 hvalue]

/-- So does a stack behind other tokens. -/
theorem asks_behind_iff (hcs : '-' ∉ cs) (hfront : Unended auto front)
    (hvalue : ∀ d ∈ cs, ∀ o, O o → o.names.contains (stackOf [d]).text = true → o.value = none) :
    Asks σ auto O (front ++ (unstacked cs ++ ts)) rs ls ↔
      Asks σ auto O (front ++ (stacked cs ++ ts)) rs ls := by
  cases cs with
  | nil => exact .rfl
  | cons d cs =>
    have hd : d ≠ '-' := ne_of_mem_of_not_mem List.mem_cons_self hcs
    have hgiven (cs : List Char) : ¬ (stackOf (d :: cs)).Given := fun hgiven => by
      have hlooks : looksLikeOption (stackOf (d :: cs)).text = true := (isOption_stackOf hd).looks
      rw [hgiven.not_option rfl] at hlooks
      cases hlooks
    constructor
    · refine fun h => h.congr_behind (fun _ _ => ?_) ?_ hfront
      · exact (asks_unstacked_iff hs hcombined hcs hvalue).mp
      · rintro x ⟨⟩
        exact hgiven []
    · refine fun h => h.congr_behind (fun _ _ => ?_) ?_ hfront
      · exact (asks_unstacked_iff hs hcombined hcs hvalue).mpr
      · rintro x ⟨⟩
        exact hgiven cs

end Stacks

end Synopsis
