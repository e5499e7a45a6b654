import Synopsis.Proofs.Matcher.Frame
import Synopsis.Proofs.Matcher.Taking

/-! # Receipts

The moves of a match, made again on a stream whose tokens carry their places, tell what an
option got, and from where: the text that is attached to its flag, or what the arguments of
its value took.
-/

namespace Synopsis

open Pattern (slots Reaches)
open OptionOf (Stays Spends)

/-- Tokens, each with its place among all arguments. -/
abbrev Tagged := List (Token × ℕ)

/-- A stack without its first option. -/
def Token.behindFirst (x : Token) : Token :=
  OptionOf.restOfStack (String.ofList (x.text.toList.drop 2))

namespace Move

/-- What a move leaves of a stream. -/
def spend (m : Move) (l : Tagged) : Tagged :=
  match m with
  | .take _ place | .flag _ place false => l.eraseIdx place
  | .flag _ place true => l.modify place (Prod.map Token.behindFirst id)

def replay (log : List Move) (l : Tagged) : Tagged := log.foldl (fun l m => m.spend l) l

end Move

/-- A token that is taken gives its text, and keeps its place. -/
def Tagged.texts (l : Tagged) : List (String × ℕ) := l.map (Prod.map (·.text) id)

namespace OptionOf

/-- What a move gives to an option. -/
def receipt (style : OptionStyle) (o : OptionAtom) (m : Move) (l : Tagged) : List (String × ℕ) :=
  match m with
  | .take slot place =>
    if slot ∈ slots o.value.toList then Tagged.texts l[place]?.toList else []
  | .flag slot place false =>
    if slot = o.slot then
      l[place]?.toList.flatMap fun x =>
        ((Argv.spelledBy? style o.names x.1.text).bind (·.2)).toList.map (·, x.2)
    else []
  | .flag _ _ true => []

/-- What some moves give to an option, the first one first. -/
def receipts (style : OptionStyle) (o : OptionAtom) : List Move → Tagged → List (String × ℕ)
  | [], _ => []
  | m :: log, l => o.receipt style m l ++ receipts style o log (m.spend l)

/-- What an option gets of all arguments, each value with its place among them. -/
def got (o : OptionAtom) (a : Argv) (log : List Move) : List (String × ℕ) :=
  o.receipts a.style log a.tokens.zipIdx

end OptionOf

variable {m : Move} {log log' : List Move} {l pre xs ys : Tagged} {style : OptionStyle}
  {o : OptionAtom} {x : Token} {i k : ℕ}

/-! ## Streams with places -/

namespace Tagged

variable {zs zs' given kept : List Token} {p : Prop}

/-- A token among others has a place, and so have they. -/
theorem exists_of_map_eq (h : l.map (·.1) = zs ++ x :: zs') :
    ∃ xs k ys, l = xs ++ (x, k) :: ys ∧ xs.map (·.1) = zs ∧ ys.map (·.1) = zs' := by
  obtain ⟨xs, ys, rfl, hxs, hys⟩ := List.map_eq_append_iff.mp h
  obtain ⟨⟨_, k⟩, ys, rfl, rfl, rfl⟩ := List.map_eq_cons_iff.mp hys
  exact ⟨xs, k, ys, rfl, hxs, rfl⟩

/-- The value of an option is given all that stands behind its flag, or nothing. -/
theorem exists_given (h : given = ys.map (·.1) ∧ kept = [] ∨ given = [] ∧ kept = ys.map (·.1) ∧ p) :
    ∃ kept' given', ys = kept' ++ given' ∧ (kept' = [] ∨ given' = []) ∧ kept'.map (·.1) = kept ∧
      given'.map (·.1) = given := by
  rcases h with ⟨rfl, rfl⟩ | ⟨rfl, rfl, -⟩
  · exact ⟨[], ys, rfl, .inl rfl, rfl, rfl⟩
  · exact ⟨ys, [], (List.append_nil _).symm, .inr rfl, rfl, rfl⟩

end Tagged

namespace Move

theorem replay_cons : replay (m :: log) l = replay log (m.spend l) := rfl

theorem replay_append : replay (log ++ log') l = replay log' (replay log l) :=
  List.foldl_append

/-- A flag that is taken whole is gone. -/
theorem replay_flag : replay [.flag i xs.length false] (xs ++ (x, k) :: ys) = xs ++ ys := by
  simp [replay, spend, List.eraseIdx_append_of_length_le]

theorem spend_shift : (m.shift pre.length).spend (pre ++ l) = pre ++ m.spend l := by
  have erase (place : ℕ) : (pre ++ l).eraseIdx (place + pre.length) = pre ++ l.eraseIdx place := by
    rw [List.eraseIdx_append_of_length_le (Nat.le_add_left _ _), Nat.add_sub_cancel]
  cases m with
  | take slot place => exact erase place
  | flag slot place stays =>
    cases stays with
    | false => exact erase place
    | true =>
      change (pre ++ l).modify (place + pre.length) _ = pre ++ l.modify place _
      rw [List.modify_eq_take_drop, List.modify_eq_take_drop, List.take_append, List.drop_append,
        List.take_of_length_le (by omega), List.drop_of_length_le (by omega)]
      simp

theorem replay_shift : replay (log.map (shift pre.length)) (pre ++ l) = pre ++ replay log l := by
  induction log generalizing l with
  | nil => rfl
  | cons m log ih => rw [List.map_cons, replay_cons, spend_shift, ih, replay_cons]

/-- Moves change no places. -/
theorem sublist_spend (m : Move) (l : Tagged) : ((m.spend l).map (·.2)).Sublist (l.map (·.2)) := by
  cases m with
  | take => exact (List.eraseIdx_sublist _ _).map _
  | flag slot place stays =>
    cases stays with
    | false => exact (List.eraseIdx_sublist _ _).map _
    | true =>
      have hkept : (l.modify place (Prod.map Token.behindFirst id)).map (·.2) = l.map (·.2) := by
        refine List.ext_getElem? fun i => ?_
        simp only [List.getElem?_map, List.getElem?_modify]
        cases l[i]? <;> simp [apply_ite Prod.snd]
      exact hkept ▸ .refl _

theorem sublist_replay (log : List Move) (l : Tagged) :
    ((replay log l).map (·.2)).Sublist (l.map (·.2)) := by
  induction log generalizing l with
  | nil => exact .refl _
  | cons m log ih => exact (ih _).trans (sublist_spend m l)

end Move

namespace OptionOf

theorem receipts_append : o.receipts style (log ++ log') l =
    o.receipts style log l ++ o.receipts style log' (Move.replay log l) := by
  induction log generalizing l with
  | nil => rfl
  | cons m log ih =>
    rw [List.cons_append, receipts, ih, receipts, List.append_assoc, Move.replay_cons]

theorem receipt_shift : o.receipt style (m.shift pre.length) (pre ++ l) = o.receipt style m l := by
  have hget (place : ℕ) : (pre ++ l)[place + pre.length]? = l[place]? := by
    rw [List.getElem?_append_right (Nat.le_add_left _ _), Nat.add_sub_cancel]
  cases m with
  | take slot place => simp only [receipt, Move.shift, hget]
  | flag slot place stays => cases stays <;> simp only [receipt, Move.shift, hget]

theorem receipts_shift :
    o.receipts style (log.map (Move.shift pre.length)) (pre ++ l) = o.receipts style log l := by
  induction log generalizing l with
  | nil => rfl
  | cons m log ih => rw [List.map_cons, receipts, receipt_shift, Move.spend_shift, ih, receipts]

theorem slots_eq (o : OptionAtom) : slots [.option o] = o.slot :: slots o.value.toList := by
  cases hv : o.value with
  | none => simp [slots, Pattern.atoms_option, hv, Pattern.slot?, Pattern.ownRecord?]
  | some v => exact Pattern.slots_option hv

/-- Moves of other leaves give nothing. -/
theorem receipts_eq_nil (h : ∀ m ∈ log, m.slot ∉ slots [.option o]) :
    o.receipts style log l = [] := by
  rw [slots_eq] at h
  induction log generalizing l with
  | nil => rfl
  | cons m log ih =>
    obtain ⟨hm, hlog⟩ := List.forall_mem_cons.mp h
    rw [receipts, ih hlog, List.append_nil]
    rw [List.mem_cons, not_or] at hm
    cases m with
    | take slot place => exact if_neg hm.2
    | flag slot place stays =>
      cases stays with
      | true => rfl
      | false => exact if_neg hm.1

/-- The arguments of the value take what they take from the front. -/
theorem receipts_of_takes (h : ∀ m ∈ log, ∃ i ∈ slots o.value.toList, m = .take i 0) :
    o.receipts style log l = Tagged.texts (l.take log.length) ∧
      Move.replay log l = l.drop log.length := by
  induction log generalizing l with
  | nil => exact ⟨rfl, rfl⟩
  | cons m log ih =>
    obtain ⟨⟨i, hi, rfl⟩, hlog⟩ := List.forall_mem_cons.mp h
    obtain ⟨hreceipts, hreplay⟩ := ih (l := (Move.take i 0).spend l) hlog
    rw [receipts, hreceipts, Move.replay_cons, hreplay, receipt, if_pos hi]
    cases l with
    | nil => simp [Move.spend, Tagged.texts]
    | cons x l => simp [Move.spend, Tagged.texts]

end OptionOf

/-! ## Flags -/

namespace Argv

/-- What is attached to the first option of a stack is the rest of it. -/
theorem attached_of_spelledBy? {names : Names} {text name rest : String}
    (h : spelledBy? style names text = some (name, some rest))
    (hw : style.readsWhole text = false) : rest = String.ofList (text.toList.drop 2) := by
  simp only [spelledBy?, hw, Bool.false_eq_true, if_false, Option.ite_none_right_eq_some] at h
  obtain ⟨-, hattached⟩ := Prod.mk.inj (Option.some.inj h.2)
  exact (Option.some.inj (Option.ite_none_left_eq_some.mp hattached).2).symm

end Argv

/-- What stays of a flag has the place of the flag. -/
theorem OptionOf.Stays.spend {names : Names} {name : String} {attached : Option String}
    {left : List Token} (h : Stays style x attached left)
    (hs : Argv.spelledBy? style names x.text = some (name, attached)) :
    (Move.flag i xs.length (!left.isEmpty)).spend (xs ++ (x, k) :: ys) =
      xs ++ left.map (·, k) ++ ys := by
  cases h with
  | none => simp [Move.spend, List.eraseIdx_append_of_length_le]
  | stack hw =>
    simp only [Move.spend, List.isEmpty_cons, Bool.not_false]
    rw [List.modify_eq_take_drop]
    simp [Argv.attached_of_spelledBy? hs hw, Token.behindFirst]

namespace OptionOf

variable {names : Names} {name : String} {attached : Option String} {left : List Token}
  {kept given : Tagged}

/-- Once a flag is gone, the value takes its moves behind what stays. -/
theorem Stays.replay (h : Stays style x attached left)
    (hs : Argv.spelledBy? style names x.text = some (name, attached)) :
    Move.replay (.flag i xs.length (!left.isEmpty) ::
        log.map (Move.shift (xs.length + left.length + kept.length)))
        (xs ++ (x, k) :: (kept ++ given)) =
      xs ++ left.map (·, k) ++ kept ++ Move.replay log given := by
  have hlength : xs.length + left.length + kept.length = (xs ++ left.map (·, k) ++ kept).length := by
    simp [Nat.add_assoc]
  rw [Move.replay_cons, h.spend hs, hlength, ← List.append_assoc, Move.replay_shift]

/-- What stays of a flag holds what is attached to it, so the flag itself gives nothing. -/
theorem Stays.receipts (h : Stays style x attached left)
    (hs : Argv.spelledBy? style o.names x.text = some (name, attached)) :
    o.receipts style (.flag i xs.length (!left.isEmpty) ::
        log.map (Move.shift (xs.length + left.length + kept.length)))
        (xs ++ (x, k) :: (kept ++ given)) =
      o.receipts style log given := by
  have hlength : xs.length + left.length + kept.length = (xs ++ left.map (·, k) ++ kept).length := by
    simp [Nat.add_assoc]
  have hnone : o.receipt style (.flag i xs.length (!left.isEmpty))
      (xs ++ (x, k) :: (kept ++ given)) = [] := by
    cases h with
    | none => simp [OptionOf.receipt, hs]
    | stack => rfl
  rw [OptionOf.receipts, hnone, List.nil_append, h.spend hs, hlength, ← List.append_assoc,
    receipts_shift]

end OptionOf

/-! ## Replays -/

/-- What holds of the moves from stream to stream in every pass holds of a repetition. -/
theorem RepeatPasses.chain {C : Argv → List Move → Argv → Prop} {once : Step}
    {leaves : List Recorded} {history history' : List Slots} {s t : Attempt}
    (refl : ∀ a, C a [] a) (trans : ∀ a b c log log', C a log b → C b log' c → C a (log ++ log') c)
    (ho : ∀ s log b t, once s log b t → C s.argv log t.argv)
    (hu : ∀ s log t, once s log false t → Undone s log t)
    (h : RepeatPasses once leaves history s log history' t) : C s.argv log t.argv := by
  have step {s t : Attempt} {log : List Move} {b : Bool}
      (run : once (s.cleared leaves) log b t) : C s.argv log t.argv :=
    ho (s.cleared leaves) log b t run
  induction h with
  | empty => exact refl _
  | failed _ run => exact (hu _ _ _ run).log_eq ▸ step run
  | still _ run => exact step run
  | again _ run _ _ ih => exact trans _ _ _ _ _ (step run) ih

/-- The moves between two streams, made on tokens with places, leave what is left there. -/
structure Replays (a : Argv) (log : List Move) (b : Argv) : Prop extends Thins a b where
  replayed : Tokenized a.tokens → ∀ l : Tagged, l.map (·.1) = a.tokens →
    (Move.replay log l).map (·.1) = b.tokens

namespace Replays

variable {a b c : Argv} {s t : Attempt}

theorem still (ht : b.tokens = a.tokens) (hs : b.style = a.style) : Replays a [] b where
  style_eq := hs
  thinned _ := ht ▸ .refl _
  replayed _ _ hl := hl.trans ht.symm

theorem trans (h : Replays a log b) (h' : Replays b log' c) : Replays a (log ++ log') c where
  toThins := h.toThins.trans h'.toThins
  replayed ha l hl := by
    rw [Move.replay_append]
    exact h'.replayed (h.tokenized ha) _ (h.replayed ha l hl)

theorem spends {value : Pattern → Step} {names : Names} {name : String} {attached : Option String}
    {us : List Token} {s s' : Slots}
    (hv : ∀ v s log t, o.value = some v → value v s log true t → Replays s.argv log t.argv)
    (hx : Argv.spelledBy? style names x.text = some (name, attached))
    (hs : Tokenized (ys.map (·.1)))
    (h : o.Spends value style (xs.map (·.1)) x attached (ys.map (·.1)) s log us s') :
    (Move.replay log (xs ++ (x, k) :: ys)).map (·.1) = us := by
  cases h with
  | flag _ hstays =>
    rw [List.length_map, Move.replay_cons, hstays.spend hx]
    simp [Move.replay, Function.comp_def]
  | attached => rw [List.length_map, Move.replay_flag, List.map_append]
  | @separate p left given kept u log' hov hstays _ hg run =>
    obtain ⟨kept, given, rfl, -, rfl, rfl⟩ := Tagged.exists_given hg
    have hgiven : Tokenized (given.map (·.1)) :=
      hs.sublist ((List.sublist_append_right kept given).map _)
    have hrun := (hv _ _ _ _ hov run).replayed hgiven given rfl
    simp only [List.length_append, List.length_map]
    rw [hstays.replay hx, List.map_append, hrun]
    simp [Function.comp_def]

theorem closed (scope : Scope) :
    Closed scope (fun _ => True) fun s log t => Replays s.argv log t.argv where
  refl s := still rfl rfl
  trans := trans
  marks s _ _ := still rfl rfl
  take hp hw ho hpl ht ha := by
    refine ⟨(Thins.closed scope).take hp hw ho hpl ht ha, fun _ l hl => ?_⟩
    simp [Move.replay, Move.spend, Argv.remove, Argv.positional_tokens, ← hl, List.eraseIdx_map]
  option _ hw hf hv hrun hc := by
    have hthins := (Thins.closed scope).option trivial hw hf
      (fun v s log t hov run => (hv v s log t hov run).toThins) hrun hc
    refine ⟨hthins, fun hs l hl => ?_⟩
    obtain ⟨zs, x, zs', htokens, -, -, hspelled, hspends⟩ := OptionOf.spends_of_completes hs hf hc
    rw [htokens] at hs hl
    obtain ⟨xs, k, ys, rfl, rfl, rfl⟩ := Tagged.exists_of_map_eq hl
    refine spends hv hspelled (hs.sublist ?_) hspends
    exact (List.sublist_cons_self _ _).trans (List.sublist_append_right _ _)
  lend _ h := still (by rw [h.argv_eq]) (by rw [h.argv_eq])
  repeats _ ho hu hp _ := by
    have passes := hp.chain (C := Replays) (fun _ => still rfl rfl) (fun _ _ _ _ _ => trans) ho hu
    exact passes

end Replays

end Synopsis
