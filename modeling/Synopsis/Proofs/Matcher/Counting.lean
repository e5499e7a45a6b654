import Synopsis.Proofs.Matcher.Conservation
import Synopsis.Proofs.Matcher.Taking

/-! # No hit is lost

As often as an option occurs in the flags that leave the stream, as often its slots are
hit, whether they are hit one by one, in the passes of a repetition, or by values of
other options.
-/

namespace Synopsis

open Argv (occurrences occurrencesOf)

namespace Pattern

/-- How often an option of some names was met. -/
def hits (names : Names) : Pattern → Slot → Nat
  | .option o, x => if o.names = names then x.count?.getD 0 else 0
  | _, _ => 0

variable {names : Names} {q : Pattern} {r : Recorded}

theorem hits_cleared (hr : q.ownRecord? = some r) (x : Slot) : q.hits names (r.cleared x) = 0 := by
  cases q with
  | option o =>
    obtain rfl := Option.some.inj hr
    cases x <;> simp [hits, Recorded.cleared, Slot.count?]
  | _ => rfl

theorem hits_merged (hr : q.ownRecord? = some r) (history : List Slot) :
    q.hits names (r.merged history) = (history.map (q.hits names)).sum := by
  cases q with
  | option o =>
    obtain rfl := Option.some.inj hr
    by_cases hn : o.names = names
    · induction history with
      | nil => simp [hits, Recorded.merged, Slot.count?]
      | cons x history ih =>
        rw [List.map_cons, List.sum_cons, ← ih]
        simp only [hits, if_pos hn]
        rfl
    · have hnone : hits names (.option o) = fun _ => 0 := funext fun _ => if_neg hn
      simp [hnone]
  | command | argument =>
    suffices h : (history.map fun _ => 0).sum = 0 from h.symm
    simp
  | group | either | shortcut => cases hr

end Pattern

/-- How often the options of some names were met, as a tally. -/
def Tally.hits (names : Names) : Tally Nat where
  yield := Pattern.hits names
  unset q := by
    cases q with
    | option => simp [Pattern.hits, Slot.count?]
    | _ => rfl
  cleared := Pattern.hits_cleared
  merged := Pattern.hits_merged

@[simp] theorem Tally.hits_yield (names : Names) : (hits names).yield = Pattern.hits names := rfl

variable {names : Names} {takes : String → Bool} {all : List Pattern} {a b c : Argv}
  {s t : Attempt} {log : List Move} {x y z : Nat}

/-- Between two streams, as much is counted as leaves the stream. -/
structure Accounts (names : Names) (takes : String → Bool) (a b : Argv) (x y : Nat) : Prop
    extends Thins a b where
  counted : Tokenized a.tokens → y + occurrences a.style takes names b.tokens =
    x + occurrences a.style takes names a.tokens

namespace Accounts

theorem trans (h : Accounts names takes a b x y) (h' : Accounts names takes b c y z) :
    Accounts names takes a c x z where
  toThins := h.toThins.trans h'.toThins
  counted ht := by
    have hab := h.counted ht
    have hbc := h'.counted (h.tokenized ht)
    rw [h.style_eq] at hbc
    omega

theorem still (ht : b.tokens = a.tokens) (hs : b.style = a.style) (x : Nat) :
    Accounts names takes a b x x :=
  ⟨⟨hs, fun _ => ht ▸ .refl _⟩, fun _ => by rw [ht]⟩

theorem ledger : Ledger (Accounts names takes) where
  trans := trans
  add_right more h := ⟨h.toThins, fun ht => by
    have := h.counted ht
    omega⟩
  still := still

end Accounts

/-- An option of a name takes a value, or it has none that could take anything. -/
def Reckons (takes : String → Bool) (o : OptionAtom) (name : String) : Prop :=
  if takes name then o.takesValue = true else ∀ v, o.value = some v → v.leaves = []

/-- A leaf whose slot is its own among all leaves. Whether an option takes a value is
known, and it goes by all of some names or by none of them. -/
structure Countable (names : Names) (takes : String → Bool) (all : List Pattern) (q : Pattern) :
    Prop where
  mem : ∀ i, q.slot? = some i → q ∈ all
  named : ∀ o, q = .option o → ∀ name ∈ o.names.toList,
    names.contains name = decide (o.names = names) ∧ Reckons takes o name

abbrev Counts (names : Names) (takes : String → Bool) (all : List Pattern) (s : Attempt)
    (_ : List Move) (t : Attempt) : Prop :=
  Accounts names takes s.argv t.argv ((Tally.hits names).total all s.slots)
    ((Tally.hits names).total all t.slots)

namespace Counts

/-- Slots of commands and arguments do not count. -/
theorem total_congr (hall : (all.filterMap Pattern.slot?).Nodup) {s t : Slots}
    (h : ∀ i, (∀ p : Positional, p.pattern ∈ all → p.slot ≠ i) → t.get i = s.get i) :
    (Tally.hits names).total all t = (Tally.hits names).total all s := by
  refine (Tally.hits names).total_congr fun q hq i hi => ?_
  cases q with
  | option o =>
    rw [h i fun p hp he => ?_]
    have := Pattern.eq_of_slot?_eq hall hq hp hi (he ▸ p.slot?_pattern)
    cases p <;> cases this
  | command | argument => rfl
  | group | either | shortcut => cases hi

theorem take {p : Positional} {counting : Bool} {place : Nat} {token : Token}
    (hall : (all.filterMap Pattern.slot?).Nodup) (hdash : names.contains "--" = false)
    (hp : Countable names takes all p.pattern) (hpl : s.argv.positional.2 = some place)
    (ht : s.argv.tokens[place]? = some token) (ha : p.accepts place token = true) :
    Counts names takes all s [.take p.slot place]
      ⟨s.slots.modify p.slot (p.record counting token.text),
        s.argv.positional.1.remove place⟩ := by
  have hslots : (Tally.hits names).total all
      (s.slots.modify p.slot (p.record counting token.text)) =
        (Tally.hits names).total all s.slots :=
    total_congr hall fun i hi => Slots.get_modify_of_ne fun he =>
      hi p (hp.mem _ p.slot?_pattern) he.symm
  have htokens : (s.argv.positional.1.remove place).tokens = s.argv.tokens.eraseIdx place := by
    rw [Argv.remove, s.argv.positional_tokens]
  have hstyle : (s.argv.positional.1.remove place).style = s.argv.style := by
    rw [Argv.positional_eq]
    rfl
  refine ⟨⟨hstyle, fun _ => htokens ▸ .eraseIdx _ _⟩, fun hs => ?_⟩
  have hnone : occurrencesOf s.argv.style takes names token = 0 := by
    by_cases hk : token.kind = .flag
    · have htext := Argv.text_of_accepts hs hpl ht ha hk
      have hread : s.argv.style.readsWhole token.text = true := by
        rw [htext, OptionStyle.readsWhole, (Argv.startsWith_dashes_iff _).mpr ⟨[], by simp⟩,
          Bool.true_or]
      rw [Argv.occurrencesOf_of_whole hk (hs.flags token (List.mem_of_getElem? ht) hk) hread, htext]
      have hwhole : Argv.wholeName "--" = "--" := by decide
      rw [hwhole, hdash]
      rfl
    · exact Argv.occurrencesOf_of_not_flag hk
  have hleft := Argv.occurrences_eraseIdx s.argv.style takes names ht
  rw [htokens, hslots]
  omega

/-! ## Options -/

variable {o : OptionAtom} {counting : Bool}

/-- A hit counts once more for an option of the names. -/
theorem total_hit (hall : (all.filterMap Pattern.slot?).Nodup)
    (ho : Countable names takes all (.option o)) {name : String} (hname : name ∈ o.names.toList)
    {s : Slots} (hw : (!counting && (s.get o.slot).isTruthy) = false) :
    (Tally.hits names).total all (s.modify o.slot (Slot.hit counting)) =
      (Tally.hits names).total all s + (names.contains name).toNat := by
  have hslot : (Pattern.option o).slot? = some o.slot := rfl
  have h := (Tally.hits names).total_add_content (s := s)
    (t := s.modify o.slot (Slot.hit counting)) hall (ho.mem _ hslot) hslot
    fun j hj => Slots.get_modify_of_ne hj
  rw [Tally.content_of_slot? _ hslot, Tally.content_of_slot? _ hslot, Slots.get_modify_self] at h
  rw [(ho.named o rfl name hname).1]
  by_cases hn : o.names = names
  · simp only [Tally.hits_yield, Pattern.hits, if_pos hn, Slot.count?_hit hw] at h
    simp only [hn, decide_true, Bool.toNat_true]
    omega
  · simpa [Pattern.hits, hn] using h

/-- An option counts, and what stays of its flag counts on. -/
theorem occurrences_of_stays {style : OptionStyle} {x : Token} {name : String}
    {attached : Option String} {left xs ys : List Token} (hx : OptionOf.Stays style x attached left)
    (hk : x.kind = .flag) (hd : Dashed x.text) (hs : Argv.Spelled style x.text name attached)
    (hv : attached = none ∨ (takes name && style.attached) = false) :
    occurrences style takes names (xs ++ x :: ys) =
      (names.contains name).toNat + occurrences style takes names (xs ++ left ++ ys) := by
  cases hx with
  | none =>
    simp only [Argv.occurrences_append, Argv.occurrences_cons, Argv.occurrences_nil,
      Argv.occurrencesOf_of_none hk hd hs]
    omega
  | stack hw =>
    simp only [Argv.occurrences_append, Argv.occurrences_cons, Argv.occurrences_nil,
      Argv.occurrencesOf_of_rest names hk hs hw (hv.resolve_left nofun)]
    omega

theorem takes_option {value : Pattern → Step} {slots : Slots}
    (hname : ∀ name ∈ o.names.toList, Reckons takes o name)
    (hslots : ∀ name ∈ o.names.toList, (Tally.hits names).total all slots =
      (Tally.hits names).total all s.slots + (names.contains name).toNat)
    (hv : ∀ v s log t, o.value = some v → value v s log true t → Counts names takes all s log t)
    (hempty : ∀ v s log t, v.leaves = [] → value v s log true t → t.argv.tokens = s.argv.tokens)
    (hs : Tokenized s.argv.tokens) (h : o.Takes value s slots t) :
    (Tally.hits names).total all t.slots + occurrences s.argv.style takes names t.argv.tokens =
      (Tally.hits names).total all s.slots +
        occurrences s.argv.style takes names s.argv.tokens := by
  obtain @⟨xs, ys, x, name, attached, htokens, hk, hd, hmem, hspelled, uses⟩ := h
  have hhit := hslots name hmem
  have hreckons := hname name hmem
  rw [htokens] at hs ⊢
  generalize t.argv.tokens = us, t.slots = slots' at uses
  cases uses with
  | flag hov hx =>
    have hflag : takes name = false := by
      by_contra htakes
      rw [Reckons, if_pos (by simpa using htakes), OptionOf.takesValue, hov] at hreckons
      cases hreckons
    rw [occurrences_of_stays hx hk hd hspelled (.inr (by rw [hflag, Bool.false_and]))]
    omega
  | @attached p text u _ hov hr hattached run he =>
    -- The text was taken, so the value has a leaf.
    have htakes : takes name = true := by
      by_contra htakes
      rw [Reckons, if_neg htakes] at hreckons
      have hkept := hempty p _ _ _ (hreckons p hov) run
      rw [he] at hkept
      cases hkept
    have hone : Tokenized [(⟨text, .value⟩ : Token)] := ⟨by simp, by simp⟩
    have hvalue : (Tally.hits names).total all u.slots +
        occurrences s.argv.style takes names u.argv.tokens =
          (Tally.hits names).total all slots +
            occurrences s.argv.style takes names [⟨text, .value⟩] :=
      (hv _ _ _ _ hov run).counted hone
    rw [he, Argv.occurrences_cons, Argv.occurrencesOf_of_not_flag (by simp),
      Argv.occurrences_nil] at hvalue
    have hown : Argv.occurrencesOf s.argv.style takes names x = (names.contains name).toNat :=
      Argv.occurrencesOf_of_value hk hd (hr ▸ hspelled) fun hw =>
        ⟨htakes, hattached.resolve_left (by simp [hw])⟩
    rw [Argv.occurrences_append, Argv.occurrences_append, Argv.occurrences_cons, hown]
    omega
  | @separate p left given kept u _ hov hx hattached hg run =>
    have hgiven : Tokenized given := by
      rcases hg with ⟨rfl, -⟩ | ⟨rfl, -⟩
      · exact hs.sublist ((List.sublist_cons_self _ _).trans (List.sublist_append_right _ _))
      · exact ⟨nofun, .nil⟩
    have hvalue : (Tally.hits names).total all u.slots +
        occurrences s.argv.style takes names u.argv.tokens =
          (Tally.hits names).total all slots + occurrences s.argv.style takes names given :=
      (hv _ _ _ _ hov run).counted hgiven
    rw [occurrences_of_stays hx hk hd hspelled
      (hattached.imp_right fun h => by rw [h, Bool.and_false])]
    have hsplit : occurrences s.argv.style takes names ys =
        occurrences s.argv.style takes names given +
          occurrences s.argv.style takes names kept := by
      rw [← Argv.occurrences_append]
      rcases hg with ⟨rfl, rfl⟩ | ⟨rfl, rfl, -⟩ <;> simp
    simp only [Argv.occurrences_append, hsplit]
    omega

theorem option (scope : Scope) {value : Pattern → Step} {found : Argv.Found}
    (hall : (all.filterMap Pattern.slot?).Nodup) (ho : Countable names takes all (.option o))
    (hw : (!counting && (s.slots.get o.slot).isTruthy) = false)
    (hf : s.argv.takeOption? o.names = some (found, a))
    (hv : ∀ v s log t, o.value = some v → value v s log true t → Counts names takes all s log t)
    (hrun : ∃ n, value = Run scope n counting)
    (hc : o.Completes value found ⟨s.slots.modify o.slot (Slot.hit counting), a⟩ log t) :
    Counts names takes all s log t where
  toThins := (Thins.closed scope).option trivial hw hf
    (fun v s log t hov run => (hv v s log t hov run).toThins) hrun hc
  counted hs := takes_option (fun name hname => (ho.named o rfl name hname).2)
    (fun _ hname => total_hit hall ho hname hw) hv
    (fun v s log t hleafless run => by
      obtain ⟨n, rfl⟩ := hrun
      exact run.tokens_eq hleafless)
    hs (OptionOf.takes_of_completes hs hf hc)

theorem closed {scope : Scope} (hall : (all.filterMap Pattern.slot?).Nodup)
    (hdash : names.contains "--" = false) :
    Closed scope (Countable names takes all) (Counts names takes all) where
  refl _ := .still rfl rfl _
  trans := .trans
  marks s _ _ := ⟨⟨rfl, fun _ => .refl s.argv.tokens⟩, fun _ => rfl⟩
  take hp _ _ hpl ht ha := take hall hdash hp hpl ht ha
  option ho hw hf hv hrun hc := option scope hall ho hw hf hv hrun hc
  lend {line repeats s t} hl h := by
    have hheld : (Tally.hits names).total all t.slots = (Tally.hits names).total all s.slots :=
      total_congr hall fun i hi => h.get_of_forall_ne fun p hp => hi p (by
        obtain ⟨c, hc, hp⟩ := List.mem_flatMap.mp hp
        have hatom := Pattern.mem_atoms_of_mem_leaves hp p.slot?_pattern
        exact (hl _ (.child hc (Pattern.reaches_of_mem_atoms hatom))).mem _ p.slot?_pattern)
    cases h
    change Accounts _ _ _ _ _ _
    rw [hheld]
    exact .still rfl rfl _
  repeats hl ho hu hp _ := by
    refine (Tally.hits names).balance_of_repeatPasses Accounts.ledger ⟨hall, ?_⟩
      (fun s log t => ho s log true t)
      (fun s log t run => ⟨hu s log t run, (ho s log false t run).style_eq⟩) hp
    intro r hr
    obtain ⟨q, hq, hqr⟩ := hl r hr
    exact ⟨q, hq.mem r.slot (by simp [Pattern.slot?, hqr]), hqr⟩

end Counts

end Synopsis
