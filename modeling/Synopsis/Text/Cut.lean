/-! # Cutting text

The first place of a piece of text and what stands on both sides of it, and text
cut into pieces.
-/

namespace Synopsis.Text

/-- The rest behind a piece of text that stands at the front. -/
def dropPrefix? : (piece cs : List Char) → Option (List Char)
  | [], cs => some cs
  | _ :: _, [] => none
  | p :: ps, c :: cs => if p = c then dropPrefix? ps cs else none

/-- What stands before and behind the first occurrence of a piece of text. -/
def cutAt? (piece : List Char) : List Char → Option (List Char × List Char)
  | [] => (dropPrefix? piece []).map ([], ·)
  | c :: cs =>
    match dropPrefix? piece (c :: cs) with
    | some rest => some ([], rest)
    | none => (cutAt? piece cs).map fun (before, rest) => (c :: before, rest)

/-- The text without the first occurrence of a piece of it. -/
def removeFirst (piece cs : List Char) : List Char :=
  match cutAt? piece cs with
  | some (before, rest) => before ++ rest
  | none => cs

def cutString? (piece text : String) : Option (String × String) :=
  (cutAt? piece.toList text.toList).map fun (a, b) => (String.ofList a, String.ofList b)

/-- Cuts text into pieces, each as long as the function says of what is left, but
at least one character long. -/
def pieces (size : List Char → Nat) : List Char → List (List Char)
  | [] => []
  | c :: cs =>
    let n := size (c :: cs) - 1
    (c :: cs.take n) :: pieces size (cs.drop n)
termination_by cs => cs.length
decreasing_by rw [List.length_drop, List.length_cons]; omega

@[simp] theorem pieces_nil (size : List Char → Nat) : pieces size [] = [] := by
  simp [pieces]

theorem pieces_append {size : List Char → Nat} {piece rest : List Char} (hpiece : piece ≠ [])
    (h : size (piece ++ rest) = piece.length) :
    pieces size (piece ++ rest) = piece :: pieces size rest := by
  cases piece with
  | nil => exact absurd rfl hpiece
  | cons c cs =>
    have hsize : size (c :: (cs ++ rest)) - 1 = cs.length := by
      rw [← List.cons_append, h, List.length_cons, Nat.add_sub_cancel]
    simp only [List.cons_append, pieces, hsize, List.take_left, List.drop_left]

theorem flatten_pieces (size : List Char → Nat) (cs : List Char) :
    (pieces size cs).flatten = cs := by
  fun_induction pieces size cs with
  | case1 => rfl
  | case2 c cs n ih => simp [ih]

end Synopsis.Text
