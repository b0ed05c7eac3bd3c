import SparseStream.Compressed
import SparseStream.Proofs.Stacked

/-! Matrices put together from entries. Entries on distinct cells come out in row-major order,
whatever order they come in, and the matrix compressed by rows has just these entries. -/
namespace SparseStream

/-- One step of adding neighbours, with the last cell first. -/
def addNeighbour [Add α] (done : List (Triplet α)) (t : Triplet α) : List (Triplet α) :=
  match done with
  | [] => [t]
  | last :: before =>
    if last.1 = t.1 then (last.1, last.2 + t.2) :: before else t :: done

theorem combine_eq [Add α] (ts : List (Triplet α)) :
    combine ts = (ts.foldl addNeighbour []).reverse := rfl

/-- An entry whose cell differs from the one before it is kept. -/
theorem addNeighbour_of_ne [Add α] {done : List (Triplet α)} {t : Triplet α}
    (apart : ∀ last ∈ done.head?, last.1 ≠ t.1) : addNeighbour done t = t :: done := by
  cases done with
  | nil => rfl
  | cons last before => exact if_neg (apart last rfl)

/-- Where each entry has a cell of its own, nothing is added up. -/
theorem combine_of_inOrder [Add α] {ts : List (Triplet α)} (ordered : InOrder ts) :
    combine ts = ts := by
  suffices fold : ∀ done : List (Triplet α), InOrder (done.reverse ++ ts) →
      ts.foldl addNeighbour done = ts.reverse ++ done by
    rw [combine_eq, fold [] ordered, List.append_nil, List.reverse_reverse]
  clear ordered
  induction ts with
  | nil => exact fun done _ => rfl
  | cons t ts ih =>
    intro done ordered
    have regroup : done.reverse ++ t :: ts = (t :: done).reverse ++ ts := by simp
    have apart : ∀ last ∈ done.head?, last.1 ≠ t.1 := by
      intro last front same
      have member : last ∈ done.reverse := List.mem_reverse.mpr (List.mem_of_mem_head? front)
      have pairs := (List.pairwise_append.mp ordered).2.2
      have earlier := pairs last member t (List.mem_cons_self ..)
      rw [Cell.Before, same] at earlier
      omega
    rw [List.foldl_cons, addNeighbour_of_ne apart, ih _ (regroup ▸ ordered), List.reverse_cons,
      List.append_assoc, List.singleton_append]

theorem Cell.le_trans {a b c : Cell} (first : Cell.le a b = true) (next : Cell.le b c = true) :
    Cell.le a c = true := by
  rw [Cell.le_iff] at *
  unfold Cell.Before at *
  rw [Prod.ext_iff] at *
  omega

theorem Cell.le_total (a b : Cell) : (Cell.le a b || Cell.le b a) = true := by
  rw [Bool.or_eq_true, Cell.le_iff, Cell.le_iff, Prod.ext_iff, Prod.ext_iff]
  unfold Cell.Before
  omega

theorem pairwise_mergeSort_cells (ts : List (Triplet α)) :
    (ts.mergeSort fun a b => Cell.le a.1 b.1).Pairwise fun a b => Cell.le a.1 b.1 = true := by
  apply List.pairwise_mergeSort
  · exact fun _ _ _ => Cell.le_trans
  · exact fun a b => Cell.le_total a.1 b.1

/-- Sorting entries on distinct cells puts them in order. -/
theorem inOrder_mergeSort {ts : List (Triplet α)} (distinct : (ts.map Prod.fst).Nodup) :
    InOrder (ts.mergeSort fun a b => Cell.le a.1 b.1) := by
  have sorted := List.mergeSort_perm ts fun a b => Cell.le a.1 b.1
  have apart := (sorted.map Prod.fst).nodup_iff.mpr distinct
  rw [List.nodup_iff_pairwise_ne, List.pairwise_map] at apart
  apply ((pairwise_mergeSort_cells ts).and apart).imp
  rintro a b ⟨before, other⟩
  exact (Cell.le_iff.mp before).resolve_left other

theorem exists_inOrder {ts : List (Triplet α)} (distinct : (ts.map Prod.fst).Nodup) :
    ∃ us, ts.Perm us ∧ InOrder us :=
  ⟨_, (List.mergeSort_perm ..).symm, inOrder_mergeSort distinct⟩

/-- Gathering entries on distinct cells sorts them. -/
theorem gather_of_perm [Add α] {ts us : List (Triplet α)} (perm : ts.Perm us)
    (ordered : InOrder us) : gather ts = us := by
  have sorted := (List.mergeSort_perm ts fun a b => Cell.le a.1 b.1).trans perm
  have distinct := (perm.map Prod.fst).nodup_iff.mpr ordered.nodup
  have same : ts.mergeSort (fun a b => Cell.le a.1 b.1) = us :=
    (inOrder_mergeSort distinct).eq_of_mem_iff ordered fun t => sorted.mem_iff
  rw [gather, same, combine_of_inOrder ordered]

/-- The rows that entries lie on. -/
def rowsOf (n : Nat) (ts : List (Triplet α)) : List (List (Nat × α)) :=
  (List.range n).map fun i => onRow i ts

@[simp] theorem length_rowsOf (n : Nat) (ts : List (Triplet α)) : (rowsOf n ts).length = n := by
  rw [rowsOf, List.length_map, List.length_range]

theorem flatten_rowsOf {n : Nat} {ts : List (Triplet α)} (ordered : InOrder ts)
    (inside : ∀ t ∈ ts, t.1.1 < n) : (rowsOf n ts).flatten = ts.map fun t => (t.1.2, t.2) := by
  have rows := congrArg (List.map fun t : Triplet α => (t.1.2, t.2)) (flatMap_onRow ordered inside)
  rw [List.map_flatMap] at rows
  rw [← rows, rowsOf, ← List.flatMap_def]
  simp [placeRow, Function.comp_def]

namespace Csr

/-- The matrix that has these entries. -/
def ofEntries (nRows nCols : Nat) (ts : List (Triplet α)) : Csr α := stack nCols (rowsOf nRows ts)

variable {n k : Nat} {ts : List (Triplet α)}

@[simp] theorem nRows_ofEntries : (ofEntries n k ts).nRows = n := length_rowsOf n ts

theorem entries_ofEntries (ordered : InOrder ts) (inside : ∀ t ∈ ts, t.1.1 < n) :
    (ofEntries n k ts).entries = ts := by
  have rows : ∀ i ∈ List.range n, placeRow i ((ofEntries n k ts).rowEntries i)
      = placeRow i (onRow i ts) := by
    intro i member
    have bound : i < (rowsOf n ts).length := by
      rw [length_rowsOf]
      exact List.mem_range.mp member
    rw [ofEntries, rowEntries_stack bound]
    simp [rowsOf]
  rw [entries, nRows_ofEntries, List.flatMap_congr rows, flatMap_onRow ordered inside]

/-- Its arrays are the running counts of the rows, the columns and the values. -/
theorem ofEntries_eq (ordered : InOrder ts) (inside : ∀ t ∈ ts, t.1.1 < n) :
    ofEntries n k ts = ⟨n, k, offsets (rowCounts n ts), (ts.map (·.1.2)).toArray,
      (ts.map (·.2)).toArray⟩ := by
  have pointers : rowCounts n ts = (rowsOf n ts).map List.length := by
    rw [rowCounts_eq, rowsOf, List.map_map]
    rfl
  simp only [ofEntries, stack, flatten_rowsOf ordered inside, List.map_map, length_rowsOf, pointers]
  rfl

/-- Entries in order and inside of the shape make an accepted matrix. -/
theorem make_ofEntries (ordered : InOrder ts) (inside : ∀ t ∈ ts, t.1.1 < n ∧ t.1.2 < k) :
    make n k (ofEntries n k ts).rowPtr (ofEntries n k ts).cols (ofEntries n k ts).values
      = .ok (ofEntries n k ts) := by
  have made := @make_stack _ k (rowsOf n ts)
  rw [length_rowsOf] at made
  apply made
  · intro row member
    obtain ⟨i, -, rfl⟩ := List.mem_map.mp member
    exact ordered.ordered_onRow i
  · rintro row member ⟨c, v⟩ inRow
    obtain ⟨i, -, rfl⟩ := List.mem_map.mp member
    exact (inside _ (mem_onRow.mp inRow)).2

theorem accepted_ofEntries (word : k < wordLimit) (ordered : InOrder ts)
    (inside : ∀ t ∈ ts, t.1.1 < n ∧ t.1.2 < k) : (ofEntries n k ts).Accepted := by
  refine ⟨word, ?_⟩
  rw [nRows_ofEntries]
  exact make_ofEntries ordered inside

/-- The matrix of the entries of a well-formed matrix is this matrix. -/
theorem ofEntries_entries {m : Csr α} (sound : m.Sound) (start : m.pointer 0 = 0)
    (stop : m.pointer m.nRows = m.cols.size) : ofEntries m.nRows m.nCols m.entries = m := by
  have rows : rowsOf m.nRows m.entries = (List.range m.nRows).map m.rowEntries := by
    apply List.map_congr_left
    intro i member
    exact onRow_entries (List.mem_range.mp member)
  rw [ofEntries, rows, stack_rowEntries sound start stop]

end Csr

namespace Compressed

theorem places_compressed {m : Csr α} (start : m.pointer 0 = 0) : m.compressed.places = m.rowPtr := by
  have origin : m.compressed.origin = 0 := start
  rw [places, origin]
  simp [Csr.compressed]

theorem entries_compressed {m : Csr α} (start : m.pointer 0 = 0) :
    m.compressed.entries = m.entries := by
  rw [entries, places_compressed start]
  rfl

/-- An accepted matrix is well formed when its places need no more than 63 bits. -/
theorem wellFormed_compressed {m : Csr α}
    (made : Csr.make m.nRows m.nCols m.rowPtr m.cols m.values = .ok m)
    (small : m.cols.size < signedLimit) : m.compressed.wellFormed = true := by
  obtain ⟨start, stop⟩ := Csr.ends_of_make made
  have sound := (Csr.sound_of_make made).1
  have origin : m.compressed.origin = 0 := start
  have pointers : m.rowPtr.all (fun p => 0 ≤ p && p < signedLimit) = true := by
    rw [Array.all_eq_true]
    intro i bound
    have last : i ≤ m.nRows := by
      have := sound.pointers
      omega
    have found := Csr.getElem?_pointer sound last
    have below := Csr.pointer_le sound last (Nat.le_refl _)
    rw [Array.getElem?_eq_getElem bound, Option.some.injEq] at found
    rw [found]
    simp
    omega
  have same : Csr.make m.compressed.outer m.compressed.inner m.compressed.places
      m.compressed.indices m.compressed.data = .ok m := by
    rw [places_compressed start]
    exact made
  rw [wellFormed, same, origin]
  exact (Bool.and_true _).trans pointers

end Compressed
end SparseStream
