import Synopsis.Proofs.Argv.Letters
import Synopsis.Proofs.Matcher.Counting
import Synopsis.Proofs.Matcher.Exclusion

/-! # What a match can count

Tokens have prices, and what leaves count is paid with the tokens that leave the stream. So
wherever a match has come to, it has counted no more than what its stream was worth.
-/

namespace Synopsis

open Argv (Spelled)
open OptionOf (Stays)
open Pattern (Reaches)

/-- Prices of tokens that cover what leaves count of them. -/
structure Tariff (T : Tally Nat) where
  price (style : OptionStyle) (t : Token) : Nat
  /-- What an option counts when it is hit. -/
  fee : Nat
  take (p : Positional) (counting : Bool) (x : Slot) (style : OptionStyle) {t : Token}
    (hk : t.kind ≠ .doubleDash) :
    T.yield p.pattern (p.record counting t.text x) ≤ T.yield p.pattern x + price style t
  hit (o : OptionAtom) (counting : Bool) (x : Slot) :
    T.yield (.option o) (Slot.hit counting x) ≤ T.yield (.option o) x + fee
  stays {style : OptionStyle} {x : Token} {name : String} {attached : Option String}
    {left : List Token} (hk : x.kind = .flag) (hd : Dashed x.text)
    (hs : Spelled style x.text name attached) (hx : Stays style x attached left) :
    fee + (left.map (price style)).sum ≤ price style x
  attached (style : OptionStyle) {x : Token} (hk : x.kind = .flag) (hd : Dashed x.text)
    (text : String) : fee + price style ⟨text, .value⟩ ≤ price style x
  lend (leaf : Leaf) (style : OptionStyle) {x left : Slot} {text : String}
    (h : x.popText? = some (text, left)) :
    T.yield (.argument leaf) left + price style ⟨text, .value⟩ ≤ T.yield (.argument leaf) x

/-! ## Hits of options -/

theorem Tally.hits_positional (names : Names) (p : Positional) (x : Slot) :
    (hits names).yield p.pattern x = 0 := by
  cases p <;> rfl

theorem Tally.hits_hit_le (names : Names) (o : OptionAtom) (counting : Bool) (x : Slot) :
    (hits names).yield (.option o) (Slot.hit counting x) ≤ (hits names).yield (.option o) x + 1 := by
  simp only [Tally.hits_yield, Pattern.hits]
  split
  · cases counting with
    | true => exact le_rfl
    | false => exact Nat.le_add_left _ _
  · exact Nat.zero_le _

/-- The letter of an option is not among those that stay. -/
theorem OptionStyle.letters_stays {style : OptionStyle} {x : Token} {name : String}
    {attached : Option String} {left : List Token} (hk : x.kind = .flag) (hd : Dashed x.text)
    (hs : Spelled style x.text name attached) (hx : Stays style x attached left) :
    1 + (left.map style.letters).sum ≤ style.letters x := by
  cases hx with
  | none => exact OptionStyle.letters_pos hk hd
  | stack hw =>
    obtain ⟨c, cs, ht, hne, -, rfl⟩ := hs.stack_of_some hw
    have hlength : x.text.length = cs.length + 2 := by rw [← String.length_toList, ht]; rfl
    have hpos := List.length_pos_iff.mpr hne
    rw [OptionOf.restOfStack_ofList, List.map_singleton, List.sum_singleton]
    simp only [OptionStyle.letters, hk, hw, if_true, Bool.false_eq_true, if_false, hlength]
    split
    · omega
    · rw [String.length_ofList, List.length_cons]
      omega

/-- Each hit of an option takes a letter of a flag. -/
def Tariff.letters (names : Names) : Tariff (Tally.hits names) where
  price := OptionStyle.letters
  fee := 1
  take p _ _ _ _ _ := (Tally.hits_positional names p _).trans_le (Nat.zero_le _)
  hit := Tally.hits_hit_le names
  stays := OptionStyle.letters_stays
  attached _ _ hk hd _ := OptionStyle.letters_pos hk hd
  lend _ _ _ _ _ _ := le_rfl

/-! ## Commands and texts -/

/-- How often commands were met and how many texts arguments have, as a tally. -/
def Tally.words : Tally Nat where
  yield q x := (Tally.texts.yield q x).card
  unset q := by rw [Tally.texts.unset, Multiset.card_zero]
  cleared hr x := by rw [Tally.texts.cleared hr, Multiset.card_zero]
  merged {q _} hr history := by
    rw [Tally.texts.merged hr]
    induction history with
    | nil => rfl
    | cons x history ih =>
      rw [List.map_cons, List.sum_cons, Multiset.card_add, ih, List.map_cons, List.sum_cons]

theorem Tally.words_command (leaf : Leaf) (x : Slot) :
    words.yield (.command leaf) x = x.count?.getD 0 := Multiset.card_replicate _ _

theorem Tally.words_argument (leaf : Leaf) (x : Slot) :
    words.yield (.argument leaf) x = x.texts.length := Multiset.coe_card _

/-- A token gives one text, be it a name of a command. -/
def Tariff.words : Tariff Tally.words where
  price _ := Token.words
  fee := 0
  take p counting x _ t hk := by
    rw [Token.words_eq_one hk]
    cases p with
    | command leaf =>
      rw [Positional.pattern, Tally.words_command, Tally.words_command]
      cases counting with
      | true => exact le_rfl
      | false => exact Nat.le_add_left _ _
    | argument leaf =>
      rw [Positional.pattern, Tally.words_argument, Tally.words_argument]
      cases counting with
      | true => exact List.length_append.le
      | false => exact Nat.le_add_left _ _
  hit _ _ _ := le_rfl
  stays {_ x _ _ _} hk _ _ hx := by
    rw [Token.words_eq_one (t := x) (by simp [hk])]
    cases hx with
    | none => exact Nat.zero_le _
    | stack => exact le_rfl
  attached _ x hk _ _ := by
    rw [Token.words_eq_one (t := x) (by simp [hk])]
    exact le_rfl
  lend leaf _ x left text h := by
    rw [Tally.words_argument, Tally.words_argument, Slot.texts_of_popText? h, List.length_append]
    exact le_rfl

/-! ## Streams -/

variable {T : Tally Nat} (F : Tariff T) {all : List Pattern} {style : OptionStyle}
  {ts us : List Token} {a b c : Argv} {s t u : Attempt} {x y z i : Nat}

namespace Tariff

/-- The price of all tokens. -/
def worth (style : OptionStyle) (ts : List Token) : Nat := (ts.map (F.price style)).sum

@[simp] theorem worth_nil : F.worth style [] = 0 := rfl

@[simp] theorem worth_cons (t : Token) : F.worth style (t :: ts) = F.price style t + F.worth style ts :=
  List.sum_cons

@[simp] theorem worth_append : F.worth style (ts ++ us) = F.worth style ts + F.worth style us := by
  simp [worth]

theorem worth_eraseIdx {t : Token} (h : ts[i]? = some t) :
    F.worth style (ts.eraseIdx i) + F.price style t = F.worth style ts :=
  Argv.sum_map_eraseIdx _ h

theorem fee_add_worth_le {x : Token} {name : String} {attached : Option String} {left : List Token}
    (hk : x.kind = .flag) (hd : Dashed x.text) (hs : Spelled style x.text name attached)
    (hx : Stays style x attached left) : F.fee + F.worth style left ≤ F.price style x :=
  F.stays hk hd hs hx

theorem worth_perm {xs ys : List String} (h : xs.Perm ys) :
    F.worth style (xs.map (⟨·, .value⟩)) = F.worth style (ys.map (⟨·, .value⟩)) :=
  ((h.map _).map _).sum_eq

end Tariff

/-- Between two streams, what is counted in addition was paid with tokens. -/
structure Defrays (a b : Argv) (x y : Nat) : Prop extends Thins a b where
  paid : Tokenized a.tokens → y + F.worth a.style b.tokens ≤ x + F.worth a.style a.tokens

namespace Defrays

variable {F}

theorem trans (h : Defrays F a b x y) (h' : Defrays F b c y z) : Defrays F a c x z where
  toThins := h.toThins.trans h'.toThins
  paid ht := by
    have hab := h.paid ht
    have hbc := h'.paid (h.tokenized ht)
    rw [h.style_eq] at hbc
    exact hbc.trans hab

theorem still (ht : b.tokens = a.tokens) (hs : b.style = a.style) (h : y ≤ x) :
    Defrays F a b x y :=
  ⟨⟨hs, fun _ => ht ▸ .refl _⟩, fun _ => by
    rw [ht]
    exact Nat.add_le_add_right h _⟩

theorem ledger : Ledger (Defrays F) where
  trans := trans
  add_right more h := ⟨h.toThins, fun ht => by
    have := h.paid ht
    omega⟩
  still ht hs _ := still ht hs le_rfl

end Defrays

/-- A pattern whose slot is that of a leaf in the list. -/
def Listed (all : List Pattern) (q : Pattern) : Prop := ∀ i, q.slot? = some i → q ∈ all

abbrev Affords (all : List Pattern) (s : Attempt) (_ : List Move) (t : Attempt) : Prop :=
  Defrays F s.argv t.argv (T.total all s.slots) (T.total all t.slots)

theorem Argv.tokenized_ofValues (texts : List String) (style : OptionStyle) :
    Tokenized (Argv.ofValues texts style).tokens :=
  .of_values (allValues_ofValues texts style)

/-! ## Single slots -/

theorem Tally.total_modify (T : Tally Nat) (hall : (all.filterMap Pattern.slot?).Nodup)
    {q : Pattern} (hq : q ∈ all) (hi : q.slot? = some i) (s : Slots) (f : Slot → Slot) :
    T.total all (s.modify i f) + T.yield q (s.get i) = T.total all s + T.yield q (f (s.get i)) := by
  have h := T.total_add_content (s := s) (t := s.modify i f) hall hq hi
    fun j hj => Slots.get_modify_of_ne hj
  rwa [T.content_of_slot? hi, T.content_of_slot? hi, Slots.get_modify_self] at h

theorem Tally.yield_le_total (T : Tally Nat) {q : Pattern} (hq : q ∈ all) (hi : q.slot? = some i)
    (s : Slots) : T.yield q (s.get i) ≤ T.total all s := by
  obtain ⟨before, after, rfl⟩ := List.append_of_mem hq
  rw [Tally.total, List.map_append, List.map_cons, List.sum_append, List.sum_cons,
    T.content_of_slot? hi]
  omega

namespace Affords

variable {F} {p : Positional} {counting : Bool} {place : Nat} {token : Token} {log : List Move}
  {scope : Scope}

theorem takes_option {o : OptionAtom} {value : Pattern → Step} {slots : Slots}
    (hslots : T.total all slots ≤ T.total all s.slots + F.fee)
    (hv : ∀ v s log t, o.value = some v → value v s log true t → Affords F all s log t)
    (hs : Tokenized s.argv.tokens) (h : o.Takes value s slots t) :
    T.total all t.slots + F.worth s.argv.style t.argv.tokens ≤
      T.total all s.slots + F.worth s.argv.style s.argv.tokens := by
  obtain @⟨xs, ys, x, name, attached, htokens, hk, hd, hmem, hspelled, uses⟩ := h
  rw [htokens] at hs ⊢
  generalize t.argv.tokens = us, t.slots = slots' at uses
  cases uses with
  | flag _ hx =>
    have hstays := F.fee_add_worth_le hk hd hspelled hx
    simp only [Tariff.worth_append, Tariff.worth_cons]
    omega
  | @attached p text u _ hov _ _ run he =>
    have hpaid := (hv _ _ _ _ hov run).paid (.value text)
    have hprice := F.attached s.argv.style hk hd text
    simp only [he, Tariff.worth_append, Tariff.worth_cons, Tariff.worth_nil] at hpaid ⊢
    omega
  | @separate p left given kept u _ hov hx _ hg run =>
    have hstays := F.fee_add_worth_le hk hd hspelled hx
    have hgiven : Tokenized given ∧
        F.worth s.argv.style given + F.worth s.argv.style kept = F.worth s.argv.style ys := by
      rcases hg with ⟨rfl, rfl⟩ | ⟨rfl, rfl, -⟩
      · exact ⟨hs.sublist ((List.sublist_cons_self _ _).trans (List.sublist_append_right _ _)), rfl⟩
      · exact ⟨⟨nofun, .nil⟩, Nat.zero_add _⟩
    have hpaid := (hv _ _ _ _ hov run).paid hgiven.1
    simp only [Tariff.worth_append, Tariff.worth_cons] at hpaid ⊢
    omega

section Slots

variable (hall : (all.filterMap Pattern.slot?).Nodup)
include hall

theorem take (hp : p.pattern ∈ all) (hpl : s.argv.positional.2 = some place)
    (ht : s.argv.tokens[place]? = some token) :
    Affords F all s [.take p.slot place]
      ⟨s.slots.modify p.slot (p.record counting token.text),
        s.argv.positional.1.remove place⟩ := by
  have htokens : (s.argv.positional.1.remove place).tokens = s.argv.tokens.eraseIdx place := by
    rw [Argv.remove, s.argv.positional_tokens]
  have hstyle : (s.argv.positional.1.remove place).style = s.argv.style := by
    rw [Argv.positional_eq]
    rfl
  refine ⟨⟨hstyle, fun _ => htokens ▸ .eraseIdx _ _⟩, fun hs => ?_⟩
  have hslots := T.total_modify hall hp p.slot?_pattern s.slots (p.record counting token.text)
  have hprice := F.take p counting (s.slots.get p.slot) s.argv.style
    (Argv.kind_ne_doubleDash hs hpl ht)
  have hworth : F.worth s.argv.style (s.argv.tokens.eraseIdx place) + F.price s.argv.style token =
      F.worth s.argv.style s.argv.tokens := F.worth_eraseIdx ht
  rw [htokens]
  change T.total all (s.slots.modify p.slot _) + _ ≤ _
  omega

theorem runs {b : Bool} (hp : p.pattern ∈ all) (h : p.Runs counting s log b t) :
    Affords F all s log t := by
  cases h with
  | filled | barred => exact .still rfl rfl le_rfl
  | refused =>
    refine .still s.argv.positional_tokens ?_ le_rfl
    rw [Argv.positional_eq]
  | taken _ _ hpl ht => exact take hall hp hpl ht

/-- A hit costs the fee. -/
theorem total_hit (counting : Bool) {o : OptionAtom} (ho : .option o ∈ all) (s : Slots) :
    T.total all (s.modify o.slot (Slot.hit counting)) ≤ T.total all s + F.fee := by
  have hslots := T.total_modify hall ho (i := o.slot) rfl s (Slot.hit counting)
  have hhit := F.hit o counting (s.get o.slot)
  omega

/-! ### Loans -/

theorem pops (style : OptionStyle) {lenders : List Nat} {texts : List String} {s t : Slots}
    (hl : ∀ i ∈ lenders, ∃ leaf : Leaf, .argument leaf ∈ all ∧ leaf.slot = i)
    (h : Lending.Pops lenders s texts t) :
    T.total all t + F.worth style (texts.map (⟨·, .value⟩)) ≤ T.total all s := by
  induction h with
  | nil => exact le_rfl
  | @cons s t u i text texts hi hp _ ih =>
    obtain ⟨leaf, hleaf, rfl⟩ := hl _ hi
    obtain ⟨left, hpop, rfl⟩ := Lending.popText?_eq_some hp
    have hslots := T.total_modify hall hleaf (i := leaf.slot) rfl s fun _ => left
    have hprice := F.lend leaf style hpop
    rw [List.map_cons, Tariff.worth_cons]
    change T.total all (s.set leaf.slot left) + _ = _ at hslots
    omega

/-- Before a loan is offered, its texts are worth what the lenders gave away. -/
theorem loan (style : OptionStyle) {line : List Pattern} {loan : Lending.Loan} {texts : List String}
    {slots left : Slots}
    (hl : ∀ q ∈ line.flatMap Pattern.atoms, Listed all q)
    (h : Lending.loan? slots line = some loan) (ht : loan.texts? slots = some (texts, left)) :
    T.total all left + F.worth style (Argv.ofValues texts style).tokens ≤ T.total all slots ∧
      ∀ p ∈ loan.borrowers, p.pattern ∈ all := by
  obtain ⟨before, children, rest, hsplit⟩ := Lending.splits_of_loan? h
  obtain ⟨new, hpops, hperm⟩ := Lending.Loan.texts?_pops ht
  constructor
  · have hpopped := pops (F := F) hall style (fun i hi => by
      obtain ⟨leaf, hleaf, rfl⟩ := hsplit.lender_atom hi
      exact ⟨leaf, hl _ hleaf _ rfl, rfl⟩) hpops
    rwa [F.worth_perm hperm] at hpopped
  · exact fun p hp => hl _ (hsplit.borrower_atom hp) _ p.slot?_pattern

theorem borrows {ps : List Positional} (hps : ∀ p ∈ ps, p.pattern ∈ all)
    (h : Lending.Borrows ps s t) : Affords F all s [] t := by
  induction h with
  | nil => exact .still rfl rfl le_rfl
  | cons run _ ih =>
    rw [List.forall_mem_cons] at hps
    exact (runs hall hps.1 run).trans (ih hps.2)

theorem borrowsTries {ps : List Positional} (hps : ∀ p ∈ ps, p.pattern ∈ all)
    (h : Lending.Borrows.Tries ps s p t) : Affords F all s [] t := by
  induction h with
  | here => exact .still rfl rfl le_rfl
  | next run _ ih =>
    rw [List.forall_mem_cons] at hps
    obtain ⟨_, run⟩ := Positional.runs_of_run run
    exact (runs hall hps.1 run).trans (ih hps.2)

/-! ### Runs -/

theorem closed : Closed scope (Listed all) (Affords F all) where
  refl _ := .still rfl rfl le_rfl
  trans := .trans
  marks s _ _ := .still rfl rfl le_rfl
  take {p _ _ _ _} hp _ _ hpl ht _ := take hall (hp _ p.slot?_pattern) hpl ht
  option {o _ _ _ _ _ _ _} ho hw hf hv hrun hc := by
    have hthins := (Thins.closed scope).option trivial hw hf
      (fun v s log t hov run => (hv v s log t hov run).toThins) hrun hc
    exact ⟨hthins, fun hs => takes_option (total_hit hall _ (ho _ rfl) _) hv hs
      (OptionOf.takes_of_completes hs hf hc)⟩
  lend {line repeats s t} hl h := by
    obtain ⟨hloan, ht, hb⟩ := h
    obtain ⟨hlent, hborrowers⟩ := loan (F := F) hall s.argv.style (fun q hq => by
      obtain ⟨c, hc, hq⟩ := List.mem_flatMap.mp hq
      exact hl q (.child hc (Pattern.reaches_of_mem_atoms hq))) hloan ht
    refine .still rfl rfl ?_
    have hpaid := (borrows (F := F) hall hborrowers hb).paid (Argv.tokenized_ofValues _ _)
    exact (Nat.le_add_right _ _).trans (hpaid.trans hlent)
  repeats hl ho hu hp _ := by
    refine T.balance_of_repeatPasses Defrays.ledger ⟨hall, ?_⟩ (fun s log t => ho s log true t)
      (fun s log t run => ⟨hu s log t run, (ho s log false t run).style_eq⟩) hp
    intro r hr
    obtain ⟨q, hq, hqr⟩ := hl r hr
    exact ⟨q, hq r.slot (by simp [Pattern.slot?, hqr]), hqr⟩

end Slots

end Affords

end Synopsis
