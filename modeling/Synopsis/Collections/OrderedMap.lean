/-! # Ordered maps

A finite map kept as its entries in increasing order of their keys, one entry
a key. Maps with the same entries are equal.
-/

namespace Synopsis

structure OrderedMap (κ ν : Type) [Ord κ] where
  entries : List (κ × ν)
  sorted : entries.Pairwise (fun a b => compare a.1 b.1 = .lt)
  deriving DecidableEq, Repr

namespace OrderedMap

variable {κ ν : Type} [Ord κ]

/-- Puts an entry in its place, instead of an entry with the same key. -/
def place (k : κ) (v : ν) : List (κ × ν) → List (κ × ν)
  | [] => [(k, v)]
  | e :: es =>
    match compare k e.1 with
    | .lt => (k, v) :: e :: es
    | .eq => (k, v) :: es
    | .gt => e :: place k v es

theorem mem_of_mem_place {k : κ} {v : ν} {x : κ × ν} :
    ∀ {es : List (κ × ν)}, x ∈ place k v es → x = (k, v) ∨ x ∈ es
  | [], h => by simpa [place] using h
  | e :: es, h => by
    unfold place at h
    split at h
    · simpa using h
    · rcases List.mem_cons.1 h with rfl | h
      · simp
      · simp [h]
    · rcases List.mem_cons.1 h with rfl | h
      · simp
      · rcases mem_of_mem_place h with rfl | h <;> simp_all

theorem pairwise_place [Std.TransOrd κ] {k : κ} {v : ν} :
    ∀ {es : List (κ × ν)}, es.Pairwise (fun a b => compare a.1 b.1 = .lt) →
      (place k v es).Pairwise (fun a b => compare a.1 b.1 = .lt)
  | [], _ => by simp [place]
  | e :: es, h => by
    have ⟨he, hes⟩ := List.pairwise_cons.1 h
    unfold place
    split
    · rename_i hk
      refine List.pairwise_cons.2 ⟨fun x hx => ?_, h⟩
      rcases List.mem_cons.1 hx with rfl | hx
      · exact hk
      · exact Std.TransCmp.lt_trans hk (he x hx)
    · rename_i hk
      exact List.pairwise_cons.2
        ⟨fun x hx => (Std.TransCmp.congr_left hk).trans (he x hx), hes⟩
    · rename_i hk
      refine List.pairwise_cons.2 ⟨fun x hx => ?_, pairwise_place hes⟩
      rcases mem_of_mem_place hx with rfl | hx
      · exact Std.OrientedCmp.lt_of_gt hk
      · exact he x hx

def empty : OrderedMap κ ν := ⟨[], .nil⟩

instance : EmptyCollection (OrderedMap κ ν) := ⟨empty⟩
instance : Inhabited (OrderedMap κ ν) := ⟨empty⟩

def find? (m : OrderedMap κ ν) (k : κ) : Option ν :=
  (m.entries.find? (compare k ·.1 == .eq)).map (·.2)

def keys (m : OrderedMap κ ν) : List κ := m.entries.map (·.1)

def erase (m : OrderedMap κ ν) (k : κ) : OrderedMap κ ν :=
  ⟨m.entries.filter (compare k ·.1 != .eq), m.sorted.sublist List.filter_sublist⟩

variable [Std.TransOrd κ]

def insert (m : OrderedMap κ ν) (k : κ) (v : ν) : OrderedMap κ ν :=
  ⟨place k v m.entries, pairwise_place m.sorted⟩

/-- Later entries win over earlier ones with the same key. -/
def insertAll (m : OrderedMap κ ν) (es : List (κ × ν)) : OrderedMap κ ν :=
  es.foldl (fun m e => m.insert e.1 e.2) m

def ofList (es : List (κ × ν)) : OrderedMap κ ν := empty.insertAll es

/-- Every key of the list with one value for all. -/
def const (ks : List κ) (v : ν) : OrderedMap κ ν := ofList (ks.map (·, v))

def union (m n : OrderedMap κ ν) : OrderedMap κ ν := m.insertAll n.entries

/-- Inserts an entry, or what `merge` makes of the old value and the new one. -/
def insertWith (merge : ν → ν → ν) (m : OrderedMap κ ν) (k : κ) (v : ν) : OrderedMap κ ν :=
  m.insert k ((m.find? k).elim v (merge · v))

end OrderedMap

end Synopsis
