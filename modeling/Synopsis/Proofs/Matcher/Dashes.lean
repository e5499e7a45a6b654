import Mathlib.Data.List.TakeWhile
import Synopsis.Proofs.Matcher.Places
import Synopsis.Proofs.Matcher.Points

/-! # The end of the options

A `--` that ends the options stays where it is. What stands behind it goes to commands
and arguments, the first one first; no option comes near it, and neither does the value
pattern of an option.
-/

namespace Synopsis

/-! ## Streams with an end of the options -/

/-- Neither the end of the options nor behind it. -/
def Token.Ahead (t : Token) : Prop := t.kind ≠ .doubleDash ∧ t.kind ≠ .literal

/-- The options end at `d`, and `lits` stands behind it. -/
inductive Ended (d : Token) (lits : List Token) : List Token → Prop
  | here (hd : d.kind = .doubleDash) : Ended d lits (d :: lits)
  | ahead {t : Token} {ts : List Token} (ht : t.Ahead) (h : Ended d lits ts) : Ended d lits (t :: ts)

namespace Argv

/-- The tokens that end the options. -/
def marks (a : Argv) : List Token := a.tokens.filter Token.isDoubleDash

def literals (a : Argv) : List Token := a.tokens.filter (·.kind = .literal)

/-- The end of the options and what stands behind it. -/
def ending (a : Argv) : List Token := a.tokens.dropWhile (!·.isDoubleDash)

end Argv

theorem Token.Ahead.isDoubleDash_eq {t : Token} (h : t.Ahead) : t.isDoubleDash = false := by
  simpa [isDoubleDash] using h.1

theorem Token.Ahead.of_kind_eq {t u : Token} (h : t.Ahead) (hk : u.kind = t.kind) : u.Ahead := by
  unfold Ahead
  rwa [hk]

namespace Argv

/-- There is no end of the options, and nothing that stood behind one. -/
def Clear (a : Argv) : Prop := ∀ t ∈ a.tokens, t.Ahead

variable {a : Argv}

theorem Clear.ending_eq (h : a.Clear) : a.ending = [] := by
  simp only [ending, List.dropWhile_eq_nil_iff, Bool.not_eq_true']
  exact fun t ht => (h t ht).isDoubleDash_eq

theorem Clear.literals_eq (h : a.Clear) : a.literals = [] :=
  List.filter_eq_nil_iff.mpr fun t ht => by simpa using (h t ht).2

end Argv

namespace Ended

variable {d x : Token} {lits xs ys ts : List Token} {a : Argv}

theorem kind_eq (h : Ended d lits ts) : d.kind = .doubleDash := by
  induction h with
  | here hd => exact hd
  | ahead _ _ ih => exact ih

theorem append (hx : ∀ t ∈ xs, t.Ahead) (h : Ended d lits ys) : Ended d lits (xs ++ ys) := by
  induction xs with
  | nil => exact h
  | cons t xs ih =>
    rw [List.forall_mem_cons] at hx
    exact .ahead hx.1 (ih hx.2)

theorem exists_append (h : Ended d lits ts) :
    ∃ front, ts = front ++ d :: lits ∧ ∀ t ∈ front, t.Ahead := by
  induction h with
  | here => exact ⟨[], rfl, nofun⟩
  | ahead ht _ ih =>
    obtain ⟨front, rfl, hfront⟩ := ih
    exact ⟨_ :: front, rfl, List.forall_mem_cons.mpr ⟨ht, hfront⟩⟩

theorem kind_of_mem (h : Ended d lits ts) (hs : Tokenized ts) : ∀ t ∈ lits, t.kind = .literal := by
  obtain ⟨front, rfl, -⟩ := h.exists_append
  intro t ht
  have hliterals := (hs.sublist (List.sublist_append_right front (d :: lits))).literals
  rw [List.map_cons, List.pairwise_cons] at hliterals
  exact hliterals.1 t.kind (List.mem_map_of_mem ht) h.kind_eq

/-- A flag stands in front of the end of the options. -/
theorem of_flag (h : Ended d lits (xs ++ x :: ys)) (hs : Tokenized (xs ++ x :: ys))
    (hx : x.kind = .flag) : (∀ t ∈ xs, t.Ahead) ∧ Ended d lits ys := by
  induction xs with
  | nil =>
    cases h with
    | here hd =>
      rw [hx] at hd
      cases hd
    | ahead _ h => exact ⟨nofun, h⟩
  | cons t xs ih =>
    cases h with
    | here hd =>
      have hliteral := (here hd).kind_of_mem hs x (List.mem_append_right _ List.mem_cons_self)
      rw [hx] at hliteral
      cases hliteral
    | ahead ht h =>
      obtain ⟨hxs, hys⟩ := ih h (hs.sublist (List.sublist_cons_self _ _))
      exact ⟨List.forall_mem_cons.mpr ⟨ht, hxs⟩, hys⟩

theorem marks_eq (h : Ended d lits a.tokens) (hs : Tokenized a.tokens) : a.marks = [d] := by
  have hlits := h.kind_of_mem hs
  obtain ⟨front, hfront, hahead⟩ := h.exists_append
  have hd := h.kind_eq
  rw [Argv.marks, hfront, List.filter_append, List.filter_cons_of_pos (by simp [Token.isDoubleDash, hd])]
  have hnone : front.filter Token.isDoubleDash = [] :=
    List.filter_eq_nil_iff.mpr fun t ht => by simp [(hahead t ht).isDoubleDash_eq]
  have hbehind : lits.filter Token.isDoubleDash = [] :=
    List.filter_eq_nil_iff.mpr fun t ht => by simp [Token.isDoubleDash, hlits t ht]
  rw [hnone, hbehind, List.nil_append]

theorem literals_eq (h : Ended d lits a.tokens) (hs : Tokenized a.tokens) : a.literals = lits := by
  have hlits := h.kind_of_mem hs
  obtain ⟨front, hfront, hahead⟩ := h.exists_append
  have hd := h.kind_eq
  rw [Argv.literals, hfront, List.filter_append, List.filter_cons_of_neg (by simp [hd])]
  have hnone : front.filter (fun t => t.kind = .literal) = [] :=
    List.filter_eq_nil_iff.mpr fun t ht => by simpa using (hahead t ht).2
  have hall : lits.filter (fun t => t.kind = .literal) = lits :=
    List.filter_eq_self.mpr fun t ht => by simpa using hlits t ht
  rw [hnone, hall, List.nil_append]

theorem ending_eq (h : Ended d lits a.tokens) : a.ending = d :: lits := by
  unfold Argv.ending
  generalize a.tokens = ts at h
  induction h with
  | here hd => simp [Token.isDoubleDash, hd]
  | ahead ht _ ih => rwa [List.dropWhile_cons_of_pos (by simp [ht.isDoubleDash_eq])]

end Ended

/-! ## Runs respect it -/

/-- From one stream to another, the end of the options stays, and literals leave from the
front, or not at all if `--` means nothing. -/
structure Guards (a b : Argv) : Prop extends Thins a b where
  autoDashes_eq : b.autoDashes = a.autoDashes
  ended {d : Token} {lits : List Token} (hs : Tokenized a.tokens) (h : Ended d lits a.tokens) :
    ∃ left, left <:+ lits ∧ (a.autoDashes = false → left = lits) ∧ Ended d left b.tokens

namespace Guards

variable {a b c : Argv} {s t : Attempt} {d : Token} {lits : List Token} {scope : Scope}

theorem refl (a : Argv) : Guards a a := ⟨.refl a, rfl, fun _ h => ⟨_, List.suffix_rfl, fun _ => rfl, h⟩⟩

theorem trans (h : Guards a b) (h' : Guards b c) : Guards a c where
  toThins := h.toThins.trans h'.toThins
  autoDashes_eq := h'.autoDashes_eq.trans h.autoDashes_eq
  ended hs he := by
    obtain ⟨left, hleft, hauto, he⟩ := h.ended hs he
    obtain ⟨left', hleft', hauto', he⟩ := h'.ended (h.tokenized hs) he
    refine ⟨left', hleft'.trans hleft, ?_, he⟩
    intro ha
    rw [hauto' (h.autoDashes_eq.trans ha), hauto ha]

/-- An option takes a flag in front of the end of the options, and its value pattern
nothing from there on. -/
theorem ended_of_takes {o : OptionAtom} {value : Pattern → Step} {slots : Slots}
    (hv : ∀ v s log t, o.value = some v → value v s log true t → Guards s.argv t.argv)
    (hs : Tokenized s.argv.tokens) (h : o.Takes value s slots t) (he : Ended d lits s.argv.tokens) :
    Ended d lits t.argv.tokens := by
  obtain @⟨xs, ys, x, _, _, htokens, hk, -, -, -, uses⟩ := h
  rw [htokens] at hs he
  obtain ⟨hxs, hys⟩ := he.of_flag hs hk
  have front {left : List Token} {attached : Option String}
      (hx : OptionOf.Stays s.argv.style x attached left) : ∀ t ∈ xs ++ left, t.Ahead := by
    rw [List.forall_mem_append]
    refine ⟨hxs, ?_⟩
    cases hx with
    | none => exact nofun
    | stack => exact List.forall_mem_singleton.mpr ⟨nofun, nofun⟩
  generalize t.argv.tokens = us, t.slots = slots' at uses
  cases uses with
  | flag _ hx => exact .append (front hx) hys
  | attached => exact .append hxs hys
  | @separate p left given kept u _ hov hx _ hg run =>
    have hvalue := hv _ _ _ _ hov run
    rcases hg with ⟨rfl, rfl⟩ | ⟨rfl, rfl, -⟩
    · have hgiven : Tokenized given :=
        hs.sublist ((List.sublist_cons_self x given).trans (List.sublist_append_right xs _))
      obtain ⟨rest, -, hauto, hrest⟩ := hvalue.ended hgiven hys
      obtain rfl := hauto rfl
      rw [List.append_nil]
      exact .append (front hx) hrest
    · have hnothing : u.argv.tokens = [] := by
        have hkinds := (hvalue.thinned ⟨nofun, .nil⟩).kinds
        simpa using hkinds
      rw [hnothing, List.append_nil]
      exact .append (front hx) hys

theorem closed (scope : Scope) : Closed scope (fun _ => True) fun s _ t => Guards s.argv t.argv where
  refl s := refl s.argv
  trans := trans
  marks s _ _ := ⟨⟨rfl, fun _ => .refl s.argv.tokens⟩, rfl, (refl s.argv).ended⟩
  take {p _ place _ s} hp hw ho hpl ht ha := by
    refine ⟨(Thins.closed scope).take hp hw ho hpl ht ha, by rw [Argv.positional_eq]; rfl, ?_⟩
    intro d lits _ he
    change ∃ left, _ ∧ _ ∧ Ended d left (s.argv.positional.1.tokens.eraseIdx place)
    rw [Argv.positional_tokens]
    rcases Argv.positional_cases hpl with ⟨rfl, hhead⟩ | ⟨rfl, -⟩
    · generalize s.argv.tokens = ts at he hhead
      cases he with
      | here hd => simp [Token.isDoubleDash, hd] at hhead
      | ahead _ he => exact ⟨lits, List.suffix_rfl, fun _ => rfl, he⟩
    · obtain ⟨hauto, hstart⟩ := Argv.headed_of_positional hpl
      unfold Argv.startsWithDashes at hstart
      generalize s.argv.tokens = ts at he hstart
      cases he with
      | here hd =>
        refine ⟨lits.tail, List.tail_suffix lits, ?_, ?_⟩
        · intro hnone
          cases hauto.symm.trans hnone
        · rw [List.eraseIdx_cons_succ, List.eraseIdx_zero]
          exact .here hd
      | ahead ht => simp [ht.isDoubleDash_eq] at hstart
  option ho hw hf hv hrun hc := by
    have hthins := (Thins.closed scope).option trivial hw hf
      (fun w s log t hov run => (hv w s log t hov run).toThins) hrun hc
    obtain ⟨_, -, -, -, rfl⟩ := Argv.exists_of_takeOption? hf
    refine ⟨hthins, hc.rules_eq.2, fun hs he => ?_⟩
    exact ⟨_, List.suffix_rfl, fun _ => rfl,
      ended_of_takes hv hs (OptionOf.takes_of_completes hs hf hc) he⟩
  lend {_ _ s _} _ h := by
    cases h
    exact refl s.argv
  repeats _ ho _ hp _ := by
    have passes := hp.argv (C := Guards) refl (fun _ _ _ => trans) ho
    exact passes

theorem clear (h : Guards a b) (hs : Tokenized a.tokens) (ha : a.Clear) : b.Clear := by
  intro t ht
  obtain ⟨u, hu, hk⟩ := List.mem_map.mp ((h.thinned hs).kinds.subset (List.mem_map_of_mem ht))
  exact (ha u hu).of_kind_eq hk.symm

end Guards

/-! ## Calls respect it -/

/-- What a call finds: on the arguments, an end of the options with some of the literals
behind it; on another stream, one that means nothing, or none at all. -/
structure Call.Held (d : Token) (lits : List Token) (c : Call) : Prop where
  tokenized : Tokenized c.state.argv.tokens
  own (h : c.stream = .arguments) : ∃ left, left <:+ lits ∧ Ended d left c.state.argv.tokens
  apart (h : c.stream ≠ .arguments) :
    (c.state.argv.autoDashes = false ∧ ∃ d left, Ended d left c.state.argv.tokens) ∨
      c.state.argv.Clear

namespace Call.Held

variable {d : Token} {lits : List Token} {c e : Call} {scope : Scope} {b : Bool} {t : Attempt}

theorem ended_or_clear (h : c.Held d lits) :
    (∃ d left, Ended d left c.state.argv.tokens) ∨ c.state.argv.Clear := by
  by_cases hk : c.stream = .arguments
  · obtain ⟨left, -, he⟩ := h.own hk
    exact .inl ⟨d, left, he⟩
  · exact (h.apart hk).imp_left (·.2)

theorem of_guards (h : c.Held d lits) (hk : e.stream = c.stream)
    (hg : Guards c.state.argv e.state.argv) : e.Held d lits where
  tokenized := hg.tokenized h.tokenized
  own hown := by
    obtain ⟨left, hleft, he⟩ := h.own (hk ▸ hown)
    obtain ⟨left', hleft', -, he'⟩ := hg.ended h.tokenized he
    exact ⟨left', hleft'.trans hleft, he'⟩
  apart hapart := by
    rcases h.apart (hk ▸ hapart) with ⟨hauto, d, left, he⟩ | ha
    · obtain ⟨left', -, -, he'⟩ := hg.ended h.tokenized he
      exact .inl ⟨hg.autoDashes_eq.trans hauto, d, left', he'⟩
    · exact .inr (hg.clear h.tokenized ha)

/-- The value pattern of an option starts on a stream in which `--` means nothing. -/
theorem of_offers {names : Names} {found : Argv.Found} {a : Argv} {slots : Slots} {p : Pattern}
    (h : c.Held d lits) (hk : e.stream = .value)
    (hf : c.state.argv.takeOption? names = some (found, a))
    (offers : OptionOf.Offers p found ⟨slots, a⟩ e.state) : e.Held d lits := by
  obtain ⟨hauto, xs, x, ys, htokens, hx, hstream⟩ := offers.stream h.tokenized hf
  have hs := h.tokenized
  have hheld := h.ended_or_clear
  unfold Argv.Clear at hheld
  rw [htokens] at hs hheld
  have hys : Tokenized ys :=
    hs.sublist ((List.sublist_cons_self x ys).trans (List.sublist_append_right xs _))
  refine ⟨?_, fun hown => by simp [hk] at hown, fun _ => ?_⟩
  · rcases hstream with htok | htok | ⟨text, htok⟩ <;> rw [htok]
    · exact hys
    · exact ⟨nofun, .nil⟩
    · exact .value _
  · rcases hstream with htok | htok | ⟨text, htok⟩ <;> unfold Argv.Clear <;> rw [htok]
    · rcases hheld with ⟨d, left, he⟩ | ha
      · exact .inl ⟨hauto, d, left, (he.of_flag hs hx).2⟩
      · refine .inr fun t ht => ha t (List.mem_append_right _ (List.mem_cons_of_mem _ ht))
    · exact .inr nofun
    · exact .inr (List.forall_mem_singleton.mpr ⟨nofun, nofun⟩)

theorem of_loan (hk : e.stream = .loan) (hv : e.state.argv.AllValues) : e.Held d lits where
  tokenized := .of_values hv
  own hown := by simp [hk] at hown
  apart _ := .inr fun t ht => by simp [Token.Ahead, hv t ht]

theorem makes (h : c.Held d lits) (hm : c.Makes scope e) : e.Held d lits := by
  rcases hm.argv (Guards.closed scope) with
    ⟨hk, hg⟩ | ⟨hk, _, _, _, _, _, -, hf, offers⟩ | ⟨hk, hv⟩
  · exact h.of_guards hk hg
  · exact h.of_offers hk hf offers
  · exact of_loan hk hv

theorem leadsTo (h : c.Held d lits) (hl : c.LeadsTo scope e) : e.Held d lits := by
  induction hl with
  | refl => exact h
  | tail _ hm ih => exact ih.makes hm

/-! ### Answers -/

variable {log : List Move}

theorem guards (run : Run scope c.fuel c.counting c.pattern c.state log b t) :
    Guards c.state.argv t.argv :=
  (Guards.closed scope).run (fun _ _ => trivial) run

/-- Off the arguments of the program, nothing is used from the end of the options on. -/
theorem ending_eq_of_apart (h : c.Held d lits) (hk : c.stream ≠ .arguments)
    (run : Run scope c.fuel c.counting c.pattern c.state log b t) :
    t.argv.ending = c.state.argv.ending := by
  rcases h.apart hk with ⟨hauto, d, left, he⟩ | ha
  · obtain ⟨left', -, hall, he'⟩ := (guards run).ended h.tokenized he
    obtain rfl := hall hauto
    rw [he.ending_eq, he'.ending_eq]
  · rw [ha.ending_eq, ((guards run).clear h.tokenized ha).ending_eq]

/-- No option uses anything from the end of the options on. -/
theorem ending_eq_of_option {o : OptionAtom} (h : c.Held d lits) (ho : c.pattern = .option o)
    (run : Run scope c.fuel c.counting c.pattern c.state log b t) :
    t.argv.ending = c.state.argv.ending := by
  rcases h.ended_or_clear with ⟨d, left, he⟩ | ha
  · obtain ⟨n, counting, p, k, s⟩ := c
    obtain rfl : p = .option o := ho
    cases n with
    | zero => exact run.elim
    | succ n =>
      cases run with
      | filled | absent => rfl
      | found hw hf hc =>
        have hended := Guards.ended_of_takes
          (fun _ _ _ _ _ run => (Guards.closed scope).run (fun _ _ => trivial) run)
          h.tokenized (OptionOf.takes_of_completes h.tokenized hf hc) he
        rw [he.ending_eq, hended.ending_eq]
  · rw [ha.ending_eq, ((guards run).clear h.tokenized ha).ending_eq]

theorem literals_eq_of_ending_eq (h : c.Held d lits)
    (run : Run scope c.fuel c.counting c.pattern c.state log b t)
    (heq : t.argv.ending = c.state.argv.ending) : t.argv.literals = c.state.argv.literals := by
  have hs := (guards run).tokenized h.tokenized
  rcases h.ended_or_clear with ⟨d, left, he⟩ | ha
  · obtain ⟨left', -, -, he'⟩ := (guards run).ended h.tokenized he
    rw [he.literals_eq h.tokenized, he'.literals_eq hs]
    rw [he.ending_eq, he'.ending_eq] at heq
    exact (List.cons.inj heq).2
  · rw [ha.literals_eq, ((guards run).clear h.tokenized ha).literals_eq]

end Call.Held

end Synopsis
