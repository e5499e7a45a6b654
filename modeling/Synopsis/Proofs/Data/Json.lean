import Mathlib.Data.List.DropRight
import Synopsis.Data.Json.Printer
import Synopsis.Data.Json.Reader
import Synopsis.Data.Decode

/-! # Written JSON is read back

Text, truth values and nothing, in lists and in maps with text for keys, are read
as they were written one item a line, as long as they are not nested deeper than
the limit. Such data mean the same with and without context.
-/

namespace Synopsis

namespace Datum

/-- Text, truth values and nothing, in lists and in maps whose keys are texts. -/
inductive Textual : Datum → Prop
  | null : Textual .null
  | bool (b : Bool) : Textual (.bool b)
  | str (s : String) : Textual (.str s)
  | list {items : List Datum} : (∀ d ∈ items, Textual d) → Textual (.list items)
  | map {entries : List (Datum × Datum)} :
      (∀ e ∈ entries, ∃ key, e.1 = .str key) → (∀ e ∈ entries, Textual e.2) →
      Textual (.map entries)

theorem Textual.record {fields : List (String × Datum)} (h : ∀ f ∈ fields, Textual f.2) :
    Textual (.record fields) := by
  refine .map ?_ ?_ <;> simp only [List.mem_map]
  · rintro _ ⟨f, -, rfl⟩
    exact ⟨f.1, rfl⟩
  · rintro _ ⟨f, hf, rfl⟩
    exact h f hf

theorem Textual.strings (items : List String) : Textual (.strings items) := by
  refine .list fun d hd => ?_
  obtain ⟨s, -, rfl⟩ := List.mem_map.mp hd
  exact .str s

mutual

/-- How many containers stand in one another. -/
def height : Datum → Nat
  | .list items => heightAll items + 1
  | .map entries => heightEntries entries + 1
  | _ => 0

def heightAll : List Datum → Nat
  | [] => 0
  | d :: ds => max (height d) (heightAll ds)

def heightEntries : List (Datum × Datum) → Nat
  | [] => 0
  | (_, v) :: es => max (height v) (heightEntries es)

end

/-! ## Without context -/

@[simp] theorem resolveAll_eq_map (ds : List Datum) : resolveAll ds = ds.map resolve := by
  induction ds with
  | nil => rfl
  | cons d ds ih => rw [resolveAll, ih, List.map_cons]

@[simp] theorem resolveEntries_eq_map (es : List (Datum × Datum)) :
    resolveEntries es = es.map fun e => (resolve e.1, resolve e.2) := by
  induction es with
  | nil => rfl
  | cons e es ih => rw [resolveEntries, ih, List.map_cons]

@[simp] theorem areReadable_eq_all (ds : List Datum) : areReadable ds = ds.all isReadable := by
  induction ds with
  | nil => rfl
  | cons d ds ih => rw [areReadable, ih, List.all_cons]

@[simp] theorem areReadableEntries_eq_all (es : List (Datum × Datum)) :
    areReadableEntries es = es.all fun e => isReadable e.1 && isReadable e.2 := by
  induction es with
  | nil => rfl
  | cons e es ih => rw [areReadableEntries, ih, List.all_cons]

theorem Textual.resolve_eq {d : Datum} (h : Textual d) : d.resolve = d := by
  induction h with
  | null | bool | str => rfl
  | list _ ih => rw [resolve, resolveAll_eq_map, List.map_congr_left (g := id) ih, List.map_id]
  | map hk _ ih =>
    rw [resolve, resolveEntries_eq_map, List.map_congr_left (g := id), List.map_id]
    intro e he
    obtain ⟨key, hkey⟩ := hk e he
    obtain ⟨k, v⟩ := e
    obtain rfl : k = .str key := hkey
    exact Prod.ext rfl (ih _ he)

theorem Textual.isReadable {d : Datum} (h : Textual d) : d.isReadable := by
  induction h with
  | null | bool | str => rfl
  | list _ ih => simpa [Datum.isReadable] using ih
  | map hk _ ih =>
    simp only [Datum.isReadable, areReadableEntries_eq_all, List.all_eq_true, Bool.and_eq_true]
    intro e he
    obtain ⟨key, hkey⟩ := hk e he
    exact ⟨by rw [hkey]; rfl, ih e he⟩

end Datum

namespace Json

open Datum (Textual)

/-! ## Text -/

theorem hex4?_hexDigit {n : Nat} (h : n < 0x20) (rest : List Char) :
    hex4? ('0' :: '0' :: hexDigit (n / 16) :: hexDigit (n % 16) :: rest) = some (n, rest) := by
  have hdigits : ∀ n < 0x20, hexDigit? (hexDigit (n / 16)) = some (n / 16) ∧
      hexDigit? (hexDigit (n % 16)) = some (n % 16) := by decide
  have hzero : hexDigit? '0' = some 0 := by decide
  simp only [hex4?, hzero, hdigits n h, Option.bind_eq_bind, Option.bind_some]
  congr 2
  omega

/-- What is written for a character is one piece, which stands for the character. -/
theorem piece?_escapeChar (c : Char) (rest : List Char) : ∃ p, p ≠ .close ∧
    piece? ((escapeChar c).toList ++ rest) = some (p, rest) ∧
      ∀ ps, charsOfPieces? (p :: ps) = (charsOfPieces? ps).map (c :: ·) := by
  unfold escapeChar
  split
  · exact ⟨.char '"', nofun, rfl, fun _ => rfl⟩
  · exact ⟨.char '\\', nofun, rfl, fun _ => rfl⟩
  · exact ⟨.char '\x08', nofun, rfl, fun _ => rfl⟩
  · exact ⟨.char '\x0c', nofun, rfl, fun _ => rfl⟩
  · exact ⟨.char '\n', nofun, rfl, fun _ => rfl⟩
  · exact ⟨.char '\r', nofun, rfl, fun _ => rfl⟩
  · exact ⟨.char '\t', nofun, rfl, fun _ => rfl⟩
  · rename_i hquote hslash _ _ _ _ _
    split
    · rename_i hc
      refine ⟨.unit c.toNat, nofun, ?_, fun ps => ?_⟩
      · simp [piece?, hex4?_hexDigit hc]
      · have hhigh : ¬ (0xD800 ≤ c.toNat) := by omega
        have hlow : ¬ (0xDC00 ≤ c.toNat) := by omega
        rw [charsOfPieces?.eq_def]
        simp only [hhigh, hlow, decide_false, Bool.false_and, if_false, Bool.false_eq_true,
          Char.ofNat_toNat]
    · rename_i hc
      refine ⟨.char c, nofun, ?_, fun _ => rfl⟩
      rw [Char.toString_eq_singleton, String.toList_singleton, List.singleton_append, piece?,
        if_neg hc]
      · exact hquote
      · exact fun _ h _ => hslash h
      · exact fun _ _ h _ => hslash h

/-- What is written for some characters. -/
def escaped (cs : List Char) : List Char := cs.flatMap fun c => (escapeChar c).toList

theorem escaped_cons (c : Char) (cs : List Char) :
    escaped (c :: cs) = (escapeChar c).toList ++ escaped cs := List.flatMap_cons

theorem toList_quote (s : String) : (quote s).toList = '"' :: (escaped s.toList ++ ['"']) := by
  have hfold (cs : List Char) (out : String) :
      (cs.foldl (fun out c => out ++ escapeChar c) out).toList = out.toList ++ escaped cs := by
    induction cs generalizing out with
    | nil => simp [escaped]
    | cons c cs ih => simp [ih, escaped_cons]
  simp [quote, String.foldl_eq_foldl_toList, hfold]

theorem length_le_escaped (cs : List Char) : cs.length ≤ (escaped cs).length := by
  have hpos (c : Char) : 0 < (escapeChar c).toList.length := by
    unfold escapeChar
    split
    iterate 7 decide
    split <;> simp
  induction cs with
  | nil => exact Nat.zero_le _
  | cons c cs ih =>
    have := hpos c
    rw [escaped_cons, List.length_append, List.length_cons]
    omega

theorem pieces?_escaped (cs rest : List Char) : ∀ {fuel : Nat}, cs.length < fuel →
    ∃ ps, pieces? fuel (escaped cs ++ '"' :: rest) = some (ps, rest) ∧
      charsOfPieces? ps = some cs := by
  induction cs with
  | nil =>
    intro fuel hf
    cases fuel with
    | zero => cases hf
    | succ => exact ⟨[], rfl, rfl⟩
  | cons c cs ih =>
    intro fuel hf
    cases fuel with
    | zero => cases hf
    | succ fuel =>
      obtain ⟨ps, hps, hcs⟩ := ih (Nat.lt_of_succ_lt_succ hf)
      obtain ⟨p, hclose, hp, hjoin⟩ := piece?_escapeChar c (escaped cs ++ '"' :: rest)
      refine ⟨p :: ps, ?_, by rw [hjoin, hcs]; rfl⟩
      rw [escaped_cons, List.append_assoc, pieces?, hp]
      cases p with
      | close => exact absurd rfl hclose
      | char | unit => simp [hps]

/-- Text is read back behind its opening quote. -/
theorem text?_escaped (s : String) (rest : List Char) {fuel : Nat}
    (hf : (escaped s.toList).length < fuel) :
    text? fuel (escaped s.toList ++ '"' :: rest) = some (.str s, rest) := by
  obtain ⟨ps, hps, hcs⟩ := pieces?_escaped s.toList rest
    (Nat.lt_of_le_of_lt (length_le_escaped _) hf)
  simp [text?, hps, hcs]

/-! ## Values -/

variable {limit : Option Nat}

theorem skipBlanks_skipBlanks (cs : List Char) : skipBlanks (skipBlanks cs) = skipBlanks cs :=
  List.dropWhile_idempotent isBlank cs

theorem value?_skipBlanks (fuel depth : Nat) (cs : List Char) :
    value? limit fuel depth (skipBlanks cs) = value? limit fuel depth cs := by
  cases fuel with
  | zero => rfl
  | succ fuel => rw [value?, value?, skipBlanks_skipBlanks]

theorem isBlank_of_mem_newline {depth : Nat} {c : Char} (h : c ∈ (newline depth).toList) :
    isBlank c := by
  simp only [newline, String.toList_append, String.toList_ofList, List.mem_append,
    List.mem_replicate] at h
  rcases h with h | ⟨-, rfl⟩
  · obtain rfl : c = '\n' := by simpa using h
    rfl
  · rfl

/-- The containers of a datum stand within the limit. -/
def Fits (limit : Option Nat) (depth : Nat) (d : Datum) : Prop :=
  ∀ bound ∈ limit, depth + d.height ≤ bound

/-- A datum is read as it is written, whatever follows. -/
def ReadsBack (limit : Option Nat) (d : Datum) : Prop :=
  ∀ {fuel depth indent : Nat} (rest : List Char), (pretty indent d).toList.length < fuel →
    Fits limit depth d → value? limit fuel depth ((pretty indent d).toList ++ rest) = some (d, rest)

theorem readsBack_str (s : String) : ReadsBack limit (.str s) := by
  intro fuel depth indent rest hf _
  cases fuel with
  | zero => cases hf
  | succ fuel =>
    simp only [pretty, scalar, toList_quote, List.length_cons, List.length_append,
      List.length_nil] at hf ⊢
    rw [List.cons_append, List.append_assoc, value?]
    simpa [isBlank] using text?_escaped s rest (by omega)

theorem length_newline (depth : Nat) : 0 < (newline depth).toList.length := by
  simp [newline]

/-- An item in its layout is read like its datum. -/
theorem ReadsBack.item {d : Datum} (h : ReadsBack limit d) {fuel depth line indent : Nat}
    (rest : List Char) (hf : (newline line ++ pretty indent d).toList.length ≤ fuel)
    (hfit : Fits limit depth d) :
    value? limit fuel depth ((newline line ++ pretty indent d).toList ++ rest) = some (d, rest) := by
  rw [String.toList_append, List.length_append] at hf
  rw [String.toList_append, List.append_assoc, value?_blanks fun _ => isBlank_of_mem_newline]
  have := length_newline line
  exact h rest (by omega) hfit

/-- Items in their layout are read up to the closing bracket. -/
theorem items?_pretty {d : Datum} {ds : List Datum} (h : ∀ x ∈ d :: ds, ReadsBack limit x)
    {blanks : List Char} (hb : ∀ c ∈ blanks, isBlank c) (rest : List Char) {fuel depth indent : Nat}
    (hf : (",".intercalate (prettyItems indent (d :: ds))).toList.length < fuel)
    (hfit : ∀ x ∈ d :: ds, Fits limit depth x) :
    items? limit fuel depth ((",".intercalate (prettyItems indent (d :: ds))).toList ++
      (blanks ++ ']' :: rest)) = some (d :: ds, rest) := by
  induction ds generalizing d fuel with
  | nil =>
    cases fuel with
    | zero => cases hf
    | succ fuel =>
      rw [prettyItems, prettyItems, String.intercalate_singleton] at hf ⊢
      rw [items?, ReadsBack.item (h d (by simp)) _ (Nat.le_of_lt_succ hf) (hfit d (by simp))]
      simp [skipBlanks_append hb, isBlank]
  | cons d' ds ih =>
    cases fuel with
    | zero => cases hf
    | succ fuel =>
      obtain ⟨hd, hds⟩ := List.forall_mem_cons.mp h
      obtain ⟨hfitd, hfitds⟩ := List.forall_mem_cons.mp hfit
      rw [prettyItems, prettyItems, String.intercalate_cons_cons, ← prettyItems] at hf ⊢
      simp only [String.toList_append, List.length_append] at hf
      have := length_newline indent
      have htail := ih hds (show _ < fuel by omega) hfitds
      rw [String.toList_append, String.toList_append, List.append_assoc, List.append_assoc, items?,
        hd.item _ (by rw [String.toList_append, List.length_append]; omega) hfitd]
      simp only [Option.bind_eq_bind, Option.bind_some, show ",".toList = [','] from rfl,
        List.singleton_append, skipBlanks_cons, isBlank, Char.reduceEq, decide_false, Bool.or_false,
        Bool.false_eq_true, if_false, htail]

/-- A member in its layout is read like its datum, and then what a comma leads to. -/
theorem ReadsBack.member {v : Datum} (h : ReadsBack limit v) (key : String)
    {fuel depth line indent : Nat} {rest cs : List Char}
    (hf : (newline line ++ quote key ++ ": " ++ pretty indent v).toList.length ≤ fuel)
    (hfit : Fits limit depth v) :
    (skipBlanks rest = '}' :: cs → members? limit (fuel + 1) depth
      ((newline line ++ quote key ++ ": " ++ pretty indent v).toList ++ rest) =
        some ([(.str key, v)], cs)) ∧
    (∀ es out, skipBlanks rest = ',' :: cs → members? limit fuel depth cs = some (es, out) →
      members? limit (fuel + 1) depth
        ((newline line ++ quote key ++ ": " ++ pretty indent v).toList ++ rest) =
          some ((.str key, v) :: es, out)) := by
  simp only [String.toList_append, List.length_append, toList_quote, List.length_cons,
    show ": ".toList = [':', ' '] from rfl, List.length_nil] at hf
  have hkey := text?_escaped key ([':', ' '] ++ ((pretty indent v).toList ++ rest))
    (show _ < fuel by omega)
  have hspace : ∀ c ∈ [' '], isBlank c := by simp [isBlank]
  have hv : value? limit fuel depth (' ' :: ((pretty indent v).toList ++ rest)) = some (v, rest) :=
    (value?_blanks hspace _ _ _).trans (h rest (by omega) hfit)
  simp only [String.toList_append, toList_quote, show ": ".toList = [':', ' '] from rfl,
    List.append_assoc, List.cons_append, List.nil_append] at hkey ⊢
  rw [members?, skipBlanks_append fun _ => isBlank_of_mem_newline]
  constructor
  · intro hclose
    simp [isBlank, hkey, hv, hclose]
  · intro es out hcomma hes
    simp [isBlank, hkey, hv, hcomma, hes]

/-- Members in their layout are read up to the closing brace. -/
theorem members?_pretty {e : Datum × Datum} {es : List (Datum × Datum)}
    (hk : ∀ x ∈ e :: es, ∃ key, x.1 = .str key) (h : ∀ x ∈ e :: es, ReadsBack limit x.2)
    {blanks : List Char} (hb : ∀ c ∈ blanks, isBlank c) (rest : List Char) {fuel depth indent : Nat}
    (hf : (",".intercalate (prettyEntries indent (e :: es))).toList.length < fuel)
    (hfit : ∀ x ∈ e :: es, Fits limit depth x.2) :
    members? limit fuel depth ((",".intercalate (prettyEntries indent (e :: es))).toList ++
      (blanks ++ '}' :: rest)) = some (e :: es, rest) := by
  induction es generalizing e fuel with
  | nil =>
    obtain ⟨k, v⟩ := e
    obtain ⟨key, rfl : k = .str key⟩ := hk _ List.mem_cons_self
    cases fuel with
    | zero => cases hf
    | succ fuel =>
      rw [prettyEntries, prettyEntries, String.intercalate_singleton] at hf ⊢
      refine (ReadsBack.member (h _ List.mem_cons_self) key (Nat.le_of_lt_succ hf)
        (hfit _ List.mem_cons_self)).1 ?_
      simp [skipBlanks_append hb, isBlank]
  | cons e' es ih =>
    obtain ⟨k, v⟩ := e
    obtain ⟨k', v'⟩ := e'
    obtain ⟨key, rfl : k = .str key⟩ := hk _ List.mem_cons_self
    cases fuel with
    | zero => cases hf
    | succ fuel =>
      obtain ⟨hv, hes⟩ := List.forall_mem_cons.mp h
      obtain ⟨hfitv, hfites⟩ := List.forall_mem_cons.mp hfit
      rw [prettyEntries, prettyEntries, String.intercalate_cons_cons, ← prettyEntries, scalar] at hf ⊢
      rw [String.toList_append, String.toList_append, List.length_append, List.length_append] at hf
      have hcomma : ",".toList = [','] := rfl
      rw [hcomma, List.length_singleton] at hf
      rw [String.toList_append, String.toList_append, List.append_assoc, List.append_assoc]
      refine (ReadsBack.member hv key (by dsimp only; omega) hfitv).2 _ _ ?_
        (ih (List.forall_mem_cons.mp hk).2 hes (show _ < fuel by omega) hfites)
      rw [hcomma]
      rfl

theorem height_le_heightAll {d : Datum} {items : List Datum} (h : d ∈ items) :
    d.height ≤ Datum.heightAll items := by
  induction items with
  | nil => cases h
  | cons x items ih =>
    rcases List.mem_cons.mp h with rfl | h
    · exact Nat.le_max_left _ _
    · exact Nat.le_trans (ih h) (Nat.le_max_right _ _)

theorem height_le_heightEntries {e : Datum × Datum} {entries : List (Datum × Datum)}
    (h : e ∈ entries) : e.2.height ≤ Datum.heightEntries entries := by
  induction entries with
  | nil => cases h
  | cons x entries ih =>
    rcases List.mem_cons.mp h with rfl | h
    · exact Nat.le_max_left _ _
    · exact Nat.le_trans (ih h) (Nat.le_max_right _ _)

/-- A container within the limit is kept, and so is what it holds. -/
theorem Fits.container {d : Datum} {depth n : Nat} (h : Fits limit depth d)
    (hn : d.height = n + 1) :
    atDepth limit depth d = d ∧ ∀ x : Datum, x.height ≤ n → Fits limit (depth + 1) x := by
  constructor
  · unfold atDepth
    cases limit with
    | none => rfl
    | some bound =>
      have := h bound rfl
      exact if_pos (by simp; omega)
  · intro x hx bound hb
    have := h bound hb
    omega

theorem value?_open_bracket {fuel depth : Nat} {cs rest : List Char} {items : List Datum}
    (h : items? limit fuel (depth + 1) cs = some (items, rest)) :
    value? limit (fuel + 1) depth ('[' :: cs) = some (atDepth limit depth (.list items), rest) := by
  have hskip : items? limit fuel (depth + 1) (skipBlanks cs) = some (items, rest) := by
    cases fuel with
    | zero => cases h
    | succ fuel =>
      rw [items?] at h ⊢
      rwa [value?_skipBlanks]
  rw [value?]
  simp only [skipBlanks_cons, isBlank, Char.reduceEq, decide_false, Bool.or_false,
    Bool.false_eq_true, if_false]
  split
  · rename_i tail hclose
    rw [hclose, items?_close] at hskip
    cases hskip
  · rw [hskip]
    rfl

theorem value?_open_brace {fuel depth : Nat} {cs rest : List Char}
    {entries : List (Datum × Datum)}
    (h : members? limit fuel (depth + 1) cs = some (entries, rest)) :
    value? limit (fuel + 1) depth ('{' :: cs) = some (atDepth limit depth (.map entries), rest) := by
  have hskip : members? limit fuel (depth + 1) (skipBlanks cs) = some (entries, rest) := by
    cases fuel with
    | zero => cases h
    | succ fuel =>
      rw [members?] at h ⊢
      rwa [skipBlanks_skipBlanks]
  rw [value?]
  simp only [skipBlanks_cons, isBlank, Char.reduceEq, decide_false, Bool.or_false,
    Bool.false_eq_true, if_false]
  split
  · rename_i tail hclose
    rw [hclose, members?_close] at hskip
    cases hskip
  · rw [hskip]
    rfl

theorem toList_pretty_list (indent : Nat) (d : Datum) (ds : List Datum) :
    (pretty indent (.list (d :: ds))).toList =
      '[' :: ((",".intercalate (prettyItems (indent + 1) (d :: ds))).toList ++
        ((newline indent).toList ++ [']'])) := by
  simp only [pretty, String.toList_append, List.append_assoc]
  rfl

theorem toList_pretty_map (indent : Nat) (e : Datum × Datum) (es : List (Datum × Datum)) :
    (pretty indent (.map (e :: es))).toList =
      '{' :: ((",".intercalate (prettyEntries (indent + 1) (e :: es))).toList ++
        ((newline indent).toList ++ ['}'])) := by
  simp only [pretty, String.toList_append, List.append_assoc]
  rfl

theorem readsBack_list {items : List Datum} (h : ∀ x ∈ items, ReadsBack limit x) :
    ReadsBack limit (.list items) := by
  intro fuel depth indent rest hf hfit
  obtain ⟨hdeep, hitems⟩ := hfit.container rfl
  cases fuel with
  | zero => cases hf
  | succ fuel =>
    cases items with
    | nil => simp [pretty, value?, isBlank, hdeep]
    | cons d ds =>
      rw [toList_pretty_list] at hf ⊢
      simp only [List.length_cons, List.length_append] at hf
      rw [List.cons_append, List.append_assoc, List.append_assoc, List.singleton_append,
        value?_open_bracket (items?_pretty h (fun _ => isBlank_of_mem_newline) rest (by omega)
          fun x hx => hitems x (height_le_heightAll hx)), hdeep]

theorem readsBack_map {entries : List (Datum × Datum)} (hk : ∀ e ∈ entries, ∃ key, e.1 = .str key)
    (h : ∀ e ∈ entries, ReadsBack limit e.2) : ReadsBack limit (.map entries) := by
  intro fuel depth indent rest hf hfit
  obtain ⟨hdeep, hentries⟩ := hfit.container rfl
  cases fuel with
  | zero => cases hf
  | succ fuel =>
    cases entries with
    | nil => simp [pretty, value?, isBlank, hdeep]
    | cons e es =>
      rw [toList_pretty_map] at hf ⊢
      simp only [List.length_cons, List.length_append] at hf
      rw [List.cons_append, List.append_assoc, List.append_assoc, List.singleton_append,
        value?_open_brace (members?_pretty hk h (fun _ => isBlank_of_mem_newline) rest (by omega)
          fun x hx => hentries x.2 (height_le_heightEntries hx)), hdeep]

/-- Text, truth values, nothing and containers of them are read as they are written. -/
theorem readsBack_of_textual {d : Datum} (hd : Textual d) : ReadsBack limit d := by
  induction hd with
  | null =>
    intro fuel depth indent rest hf _
    cases fuel with
    | zero => cases hf
    | succ fuel => simp [pretty, scalar, value?, isBlank]
  | bool b =>
    intro fuel depth indent rest hf _
    cases fuel with
    | zero => cases hf
    | succ fuel => cases b <;> simp [pretty, scalar, value?, isBlank]
  | str s => exact readsBack_str s
  | list _ ih => exact readsBack_list ih
  | map hk _ ih => exact readsBack_map hk ih

theorem parseWithin?_pretty {d : Datum} (hd : Textual d) (indent : Nat)
    (hfit : ∀ bound ∈ limit, d.height ≤ bound) : parseWithin? limit (pretty indent d) = some d := by
  have hread {fuel : Nat} (hf : (pretty indent d).toList.length < fuel) :
      value? limit fuel 0 (pretty indent d).toList = some (d, []) := by
    have hlevel : Fits limit 0 d := fun bound hb => by simpa using hfit bound hb
    have := readsBack_of_textual hd [] hf hlevel
    rwa [List.append_nil] at this
  rw [parseWithin?]
  dsimp only
  rw [hread (by omega)]
  rfl

end Json

end Synopsis
