/-! # Ordered sets

A finite set kept as its elements in increasing order, each of them once. Two
sets with the same elements are equal, and they are listed in order.
-/

namespace Synopsis

structure OrderedSet (α : Type) [Ord α] where
  toList : List α
  sorted : toList.Pairwise (fun a b => compare a b = .lt)
  deriving DecidableEq, Repr

namespace OrderedSet

variable {α : Type} [Ord α]

/-- Puts an element in its place; an element that is there already stays. -/
def place (a : α) : List α → List α
  | [] => [a]
  | b :: bs =>
    match compare a b with
    | .lt => a :: b :: bs
    | .eq => b :: bs
    | .gt => b :: place a bs

theorem mem_of_mem_place {a x : α} : ∀ {bs : List α}, x ∈ place a bs → x = a ∨ x ∈ bs
  | [], h => by simpa [place] using h
  | b :: bs, h => by
    unfold place at h
    split at h
    · simpa using h
    · exact .inr h
    · rcases List.mem_cons.1 h with rfl | h
      · simp
      · rcases mem_of_mem_place h with rfl | h <;> simp_all

theorem pairwise_place [Std.TransOrd α] {a : α} :
    ∀ {bs : List α}, bs.Pairwise (fun a b => compare a b = .lt) →
      (place a bs).Pairwise (fun a b => compare a b = .lt)
  | [], _ => by simp [place]
  | b :: bs, h => by
    have ⟨hb, hbs⟩ := List.pairwise_cons.1 h
    unfold place
    split
    · rename_i hab
      refine List.pairwise_cons.2 ⟨fun x hx => ?_, h⟩
      rcases List.mem_cons.1 hx with rfl | hx
      · exact hab
      · exact Std.TransCmp.lt_trans hab (hb x hx)
    · exact h
    · rename_i hab
      refine List.pairwise_cons.2 ⟨fun x hx => ?_, pairwise_place hbs⟩
      rcases mem_of_mem_place hx with rfl | hx
      · exact Std.OrientedCmp.lt_of_gt hab
      · exact hb x hx

def empty : OrderedSet α := ⟨[], .nil⟩

instance : EmptyCollection (OrderedSet α) := ⟨empty⟩
instance : Inhabited (OrderedSet α) := ⟨empty⟩

def isEmpty (s : OrderedSet α) : Bool := s.toList.isEmpty

def contains (s : OrderedSet α) (a : α) : Bool := s.toList.any (compare a · == .eq)

def isDisjoint (s t : OrderedSet α) : Bool := !s.toList.any t.contains

variable [Std.TransOrd α]

def insert (s : OrderedSet α) (a : α) : OrderedSet α := ⟨place a s.toList, pairwise_place s.sorted⟩

def singleton (a : α) : OrderedSet α := empty.insert a

def insertAll (s : OrderedSet α) (as : List α) : OrderedSet α := as.foldl insert s

def ofList (as : List α) : OrderedSet α := empty.insertAll as

def union (s t : OrderedSet α) : OrderedSet α := s.insertAll t.toList

end OrderedSet

end Synopsis
