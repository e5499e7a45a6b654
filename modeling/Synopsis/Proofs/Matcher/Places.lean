import Mathlib.Data.List.Basic
import Mathlib.Data.List.Nodup
import Mathlib.Data.List.Pairwise
import Synopsis.Proofs.Argv.Spent
import Synopsis.Proofs.Matcher.Closed

/-! # Where tokens are taken

Commands and arguments take tokens off the front of the stream, or from behind a `--`
that stays in front for good. Who takes a token later thus takes a later one.
-/

namespace Synopsis

variable {i j a b : Nat} {l : List Nat} {log log' : List Move} {m : Move}

namespace Move

def place : Move → Nat
  | .take _ place | .flag _ place _ => place

theorem remaining_sublist {α : Type} (m : Move) (l : List α) : (m.remaining l).Sublist l := by
  cases m with
  | take => exact List.eraseIdx_sublist ..
  | flag slot place stays =>
    cases stays with
    | true => exact .refl _
    | false => exact List.eraseIdx_sublist ..

/-- What happens behind the first token leaves it where it is. -/
theorem tail_remaining_sublist {α : Type} {l : List α} (h : 1 ≤ m.place) :
    (m.remaining l).tail.Sublist l.tail := by
  have erase {place : Nat} (hp : 1 ≤ place) : (l.eraseIdx place).tail.Sublist l.tail := by
    obtain ⟨k, rfl⟩ := Nat.exists_eq_add_of_le' hp
    cases l with
    | nil => exact .refl _
    | cons x l => exact List.eraseIdx_sublist ..
  cases m with
  | take => exact erase h
  | flag slot place stays =>
    cases stays with
    | true => exact .refl _
    | false => exact erase h

/-- A token is taken by the first move or by a later one. -/
theorem mem_taken_cons (h : (i, a) ∈ taken (m :: log) l) :
    (∃ place, m = .take i place ∧ l[place]? = some a) ∨ (i, a) ∈ taken log (m.remaining l) := by
  cases m with
  | flag => exact .inr h
  | take slot place =>
    refine (List.mem_append.mp h).imp_left ?_
    intro h
    obtain ⟨x, hx, he⟩ := List.mem_map.mp h
    obtain ⟨rfl, rfl⟩ := Prod.mk.inj he
    exact ⟨place, rfl, Option.mem_toList.mp hx⟩

theorem exists_of_mem_taken (h : (i, a) ∈ taken log l) : ∃ place, .take i place ∈ log := by
  induction log generalizing l with
  | nil => cases h
  | cons m log ih =>
    rcases mem_taken_cons h with ⟨place, rfl, -⟩ | h
    · exact ⟨place, List.mem_cons_self⟩
    · obtain ⟨place, hp⟩ := ih h
      exact ⟨place, List.mem_cons_of_mem _ hp⟩

theorem mem_of_mem_taken (h : (i, a) ∈ taken log l) : a ∈ l := by
  induction log generalizing l with
  | nil => cases h
  | cons m log ih =>
    rcases mem_taken_cons h with ⟨place, rfl, hget⟩ | h
    · exact List.mem_of_getElem? hget
    · exact (m.remaining_sublist l).subset (ih h)

/-- What is taken from behind the first token is not the first token. -/
theorem mem_tail_of_mem_taken (hlog : ∀ m ∈ log, 1 ≤ m.place) (h : (i, a) ∈ taken log l) :
    a ∈ l.tail := by
  induction log generalizing l with
  | nil => cases h
  | cons m log ih =>
    rw [List.forall_mem_cons] at hlog
    rcases mem_taken_cons h with ⟨place, rfl, hget⟩ | h
    · obtain ⟨k, rfl⟩ := Nat.exists_eq_add_of_le' hlog.1
      rw [← List.getElem?_tail] at hget
      exact List.mem_of_getElem? hget
    · exact (tail_remaining_sublist hlog.1).subset (ih hlog.2 h)

/-- A token that is taken later than the first one of a list lies behind it. -/
theorem lt_of_mem_taken {slot place : Nat} (hl : l.Pairwise (· < ·)) (hp : place ≤ 1)
    (hget : l[place]? = some a) (hlog : place = 1 → ∀ m ∈ log, 1 ≤ m.place)
    (h : (i, b) ∈ taken log ((take slot place).remaining l)) : a < b := by
  rcases Nat.le_one_iff_eq_zero_or_eq_one.mp hp with rfl | rfl
  · have hmem := mem_of_mem_taken h
    cases l with
    | nil => cases hget
    | cons x l =>
      obtain rfl := Option.some.inj hget
      exact (List.pairwise_cons.mp hl).1 b hmem
  · have hmem := mem_tail_of_mem_taken (hlog rfl) h
    cases l with
    | nil => cases hget
    | cons d l =>
      cases l with
      | nil => cases hget
      | cons x l =>
        obtain rfl := Option.some.inj hget
        exact (List.pairwise_cons.mp (List.pairwise_cons.mp hl).2).1 b hmem

end Move

/-! ## Behind the end of the options -/

/-- A `--` that ends the options stands in front. -/
def Argv.Headed (a : Argv) : Prop :=
  a.autoDashes = true ∧ a.startsWithDashes = true

/-- From then on, tokens are only taken from behind it. -/
def Behind (s : Attempt) (log : List Move) (t : Attempt) : Prop :=
  s.argv.Headed → t.argv.Headed ∧ ∀ m ∈ log, 1 ≤ m.place

section Headed

variable {a : Argv} {names : Names} {place : Nat} {s t u : Attempt}

theorem Argv.Headed.exists_cons (h : a.Headed) :
    ∃ d ts, a.tokens = d :: ts ∧ d.isDoubleDash = true := by
  obtain ⟨d, hd, hdash⟩ := (Option.any_eq_true _ _).mp h.2
  obtain ⟨ts, hts⟩ := List.head?_eq_some_iff.mp hd
  exact ⟨d, ts, hts, hdash⟩

theorem Argv.Headed.takeOption? (h : a.Headed) : a.takeOption? names = none := by
  obtain ⟨d, ts, hts, hd⟩ := h.exists_cons
  simp [Argv.takeOption?, hts, Argv.findOption?, h.1, hd]

theorem Argv.Headed.positional (h : a.Headed) (hp : a.positional.2 = some place) : place = 1 := by
  obtain ⟨d, ts, hts, hd⟩ := h.exists_cons
  rcases Argv.positional_cases hp with ⟨-, hhead⟩ | ⟨rfl, -⟩
  · have hnot : d.isDoubleDash = false := hhead d (by simp [hts])
    rw [hd] at hnot
    cases hnot
  · rfl

/-- The front is passed over only if a `--` stands there. -/
theorem Argv.headed_of_positional (h : a.positional.2 = some 1) : a.Headed := by
  unfold Argv.positional at h
  split at h
  next => cases h
  next d hd =>
    split at h
    next hdash =>
      simp only [Argv.checkDash, hd, Option.any_some, hdash, Option.ite_none_right_eq_some,
        if_true, Bool.and_true] at h
      exact ⟨h.1, by simp [Argv.startsWithDashes, hd, hdash]⟩
    next => cases h

theorem Argv.Headed.remove (h : a.Headed) : (a.positional.1.remove 1).Headed := by
  obtain ⟨d, ts, hts, hd⟩ := h.exists_cons
  rw [Argv.positional_eq]
  exact ⟨h.1, by simp [Argv.startsWithDashes, Argv.remove, hts, hd]⟩

namespace Behind

theorem trans (h : Behind s log t) (h' : Behind t log' u) : Behind s (log ++ log') u := fun hs =>
  ⟨(h' (h hs).1).1, List.forall_mem_append.mpr ⟨(h hs).2, (h' (h hs).1).2⟩⟩

theorem repeatPasses {once : Step} {leaves : List Recorded} {history history' : List Slots}
    (ho : ∀ s log b t, once s log b t → Behind s log t)
    (h : RepeatPasses once leaves history s log history' t) : Behind s log t := by
  have step {s t : Attempt} {log : List Move} {b : Bool}
      (run : once (s.cleared leaves) log b t) : Behind s log t := fun hs => ho _ _ _ _ run hs
  induction h with
  | empty => exact fun hs => ⟨hs, nofun⟩
  | failed _ run => exact fun hs => ⟨(step run hs).1, nofun⟩
  | still _ run => exact step run
  | again _ run _ _ ih => exact (step run).trans ih

theorem closed (scope : Scope) : Closed scope (fun _ => True) Behind where
  refl _ hs := ⟨hs, nofun⟩
  trans := trans
  marks _ _ _ hs := ⟨hs, nofun⟩
  take {_ _ place _ _} _ _ _ hpl _ _ hs := by
    obtain rfl : place = 1 := hs.positional hpl
    exact ⟨hs.remove, by simp [Move.place]⟩
  option _ _ hf _ _ _ hs := by
    rw [hs.takeOption?] at hf
    cases hf
  lend _ h hs := by
    cases h
    exact ⟨hs, nofun⟩
  repeats _ ho _ hp _ hs := by
    have hpasses := repeatPasses ho hp
    exact hpasses hs

end Behind

end Headed

/-! ## Taking in turn -/

/-- One slot takes from the front only, and never after the other one. -/
structure InTurn (i j : Nat) (log : List Move) : Prop where
  front : ∀ place, .take i place ∈ log → place ≤ 1
  behind : log.Pairwise fun m m' => m = .take i 1 → 1 ≤ m'.place
  first : log.Pairwise fun m m' => ∀ place place', m = .take j place → m' ≠ .take i place'

namespace InTurn

theorem append (h : InTurn i j log) (h' : InTurn i j log')
    (hb : .take i 1 ∈ log → ∀ m ∈ log', 1 ≤ m.place)
    (hf : ∀ place place', .take j place ∈ log → .take i place' ∉ log') :
    InTurn i j (log ++ log') where
  front place hp := (List.mem_append.mp hp).elim (h.front place) (h'.front place)
  behind := by
    refine List.pairwise_append.mpr ⟨h.behind, h'.behind, ?_⟩
    intro m hm m' hm' he
    exact hb (he ▸ hm) m' hm'
  first := by
    refine List.pairwise_append.mpr ⟨h.first, h'.first, ?_⟩
    rintro m hm m' hm' place place' rfl rfl
    exact hf place place' hm hm'

theorem of_idle (hi : ∀ m ∈ log, m.slot ≠ i) : InTurn i j log where
  front _ hp := absurd rfl (hi _ hp)
  behind := List.pairwise_of_forall_mem_list fun m hm _ _ he => absurd (he ▸ rfl) (hi m hm)
  first := List.pairwise_of_forall_mem_list fun _ _ m' hm' _ _ _ he =>
    absurd (he ▸ rfl) (hi m' hm')

/-- Tokens that are taken in turn are taken in order. -/
theorem lt (h : InTurn i j log) (hij : i ≠ j) (hl : l.Pairwise (· < ·))
    (ha : (i, a) ∈ Move.taken log l) (hb : (j, b) ∈ Move.taken log l) : a < b := by
  induction log generalizing l with
  | nil => cases ha
  | cons m log ih =>
    have hrest : InTurn i j log :=
      ⟨fun place hp => h.front place (List.mem_cons_of_mem _ hp), h.behind.tail, h.first.tail⟩
    have hl' : (m.remaining l).Pairwise (· < ·) := hl.sublist (m.remaining_sublist l)
    rcases Move.mem_taken_cons hb with ⟨place, rfl, -⟩ | hb
    · -- The second slot takes its token now, so that the first one takes none any more.
      have ha := (Move.mem_taken_cons ha).resolve_left
        fun ⟨_, he, _⟩ => hij (Move.take.inj he).1.symm
      obtain ⟨place', hp⟩ := Move.exists_of_mem_taken ha
      exact absurd rfl ((List.pairwise_cons.mp h.first).1 _ hp place place' rfl)
    · rcases Move.mem_taken_cons ha with ⟨place, rfl, hget⟩ | ha
      · refine Move.lt_of_mem_taken hl (h.front place List.mem_cons_self) hget ?_ hb
        rintro rfl m hm
        exact (List.pairwise_cons.mp h.behind).1 m hm rfl
      · exact ih hrest hl' ha hb

end InTurn

end Synopsis
