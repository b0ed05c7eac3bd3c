import SparseStream.Proofs.CsrParts

/-! What symmetric partitions keep of the rows of a square matrix: of each row the entries before
the diagonal, and one value on the diagonal. -/
namespace SparseStream

namespace SymmetricPartition

variable {i : Nat} {row : List (Nat × α)}

theorem mem_below {e : Nat × α} : e ∈ below i row ↔ e ∈ row ∧ e.1 < i := by
  simp [below, List.mem_filter]

/-- On a row each column holds one value. -/
theorem eq_of_mem_row (ordered : (row.map Prod.fst).Pairwise (· < ·)) {c : Nat} {v w : α}
    (first : (c, v) ∈ row) (second : (c, w) ∈ row) : v = w := by
  have distinct : (row.map Prod.fst).Nodup := ordered.imp Nat.ne_of_lt
  exact congrArg Prod.snd (List.inj_on_of_nodup_map distinct first second rfl)

theorem onDiagonal_of_mem [Zero α] (ordered : (row.map Prod.fst).Pairwise (· < ·)) {v : α}
    (member : (i, v) ∈ row) : onDiagonal i row = v := by
  have found : ∀ e ∈ row.filter fun e => e.1 = i, e = (i, v) := by
    rintro ⟨c, w⟩ inRow
    obtain ⟨stored, same⟩ := List.mem_filter.mp inRow
    obtain rfl : c = i := of_decide_eq_true same
    rw [eq_of_mem_row ordered stored member]
  have some : (i, v) ∈ row.filter fun e => e.1 = i := List.mem_filter.mpr ⟨member, by simp⟩
  have last := found _ (List.getLast_mem (List.ne_nil_of_mem some))
  rw [onDiagonal, List.getLast?_eq_getLast_of_ne_nil (List.ne_nil_of_mem some), last]
  rfl

theorem onDiagonal_of_absent [Zero α] (absent : ∀ v, (i, v) ∉ row) : onDiagonal i row = 0 := by
  have none : row.filter (fun e => e.1 = i) = [] := by
    rw [List.filter_eq_nil_iff]
    rintro ⟨c, v⟩ stored same
    obtain rfl : c = i := of_decide_eq_true same
    exact absent v stored
  rw [onDiagonal, none]
  rfl

/-- What is kept of a row, by columns. -/
def kept [Zero α] (i : Nat) (row : List (Nat × α)) : List (Nat × α) :=
  below i row ++ [(i, onDiagonal i row)]

variable [Zero α]

theorem mem_kept {e : Nat × α} :
    e ∈ kept i row ↔ e ∈ row ∧ e.1 < i ∨ e = (i, onDiagonal i row) := by
  rw [kept, List.mem_append, mem_below, List.mem_singleton]

theorem col_le_of_mem_kept {e : Nat × α} (member : e ∈ kept i row) : e.1 ≤ i := by
  rcases mem_kept.mp member with ⟨-, before⟩ | rfl
  · exact Nat.le_of_lt before
  · exact Nat.le_refl i

theorem ordered_kept (ordered : (row.map Prod.fst).Pairwise (· < ·)) :
    ((kept i row).map Prod.fst).Pairwise (· < ·) := by
  rw [kept, List.map_append, List.pairwise_append]
  refine ⟨ordered.sublist (List.filter_sublist.map _), List.pairwise_singleton _ _, ?_⟩
  intro c member c' last
  obtain ⟨e, stored, rfl⟩ := List.mem_map.mp member
  obtain rfl := List.mem_singleton.mp last
  exact (mem_below.mp stored).2

end SymmetricPartition

open SymmetricPartition

/-- A part that is read back as rows has the values kept of these rows at their cells. -/
theorem EncodedSymmetric.ReadsAs.triplets [Zero α] {m : EncodedSymmetric α} {first nCols n : Nat}
    {row : Nat → List (Nat × α)} (reads : m.ReadsAs first nCols n row) :
    m.triplets = .ok (((List.range' first n).flatMap fun i => placeRow i (below i (row i))) ++
      (List.range' first n).map fun i => ((i, i), onDiagonal i (row i))) := by
  rw [EncodedSymmetric.triplets, reads.lower.triplets, reads.lower.rowStart, reads.diagonal,
    zipIdx_map_range']
  simp [bind, Except.bind, pure, Except.pure, Function.comp_def]

namespace Csr

/-- The entries that symmetric partitions keep of a matrix, row by row. -/
def keptEntries [Zero α] (m : Csr α) : List (Triplet α) :=
  (List.range m.nRows).flatMap fun i => placeRow i (kept i (m.rowEntries i))

variable [Zero α] {m : Csr α}

/-- The value at a cell of a matrix, zero where none is stored. -/
def valueAt (m : Csr α) (i j : Nat) : α := ((m.rowEntries i).lookup j).getD 0

theorem valueAt_of_mem (sound : m.Sound) {i j : Nat} {v : α} (bound : i < m.nRows)
    (stored : (j, v) ∈ m.rowEntries i) : m.valueAt i j = v := by
  rw [valueAt]
  cases found : (m.rowEntries i).lookup j with
  | none =>
    have other := List.lookup_eq_none_iff.mp found _ stored
    simp at other
  | some w =>
    obtain ⟨before, after, cut, -⟩ := List.lookup_eq_some_iff.mp found
    have member : (j, w) ∈ m.rowEntries i := cut ▸ List.mem_append_right _ (List.mem_cons_self ..)
    exact eq_of_mem_row (ordered_rowEntries sound bound) member stored

theorem valueAt_of_absent {i j : Nat} (absent : ∀ v, (j, v) ∉ m.rowEntries i) :
    m.valueAt i j = 0 := by
  have none : (m.rowEntries i).lookup j = none := by
    rw [List.lookup_eq_none_iff]
    rintro ⟨c, v⟩ stored
    simp only [bne_iff_ne, ne_eq]
    rintro rfl
    exact absent v stored
  rw [valueAt, none]
  rfl

theorem onDiagonal_eq_valueAt (sound : m.Sound) {i : Nat} (bound : i < m.nRows) :
    onDiagonal i (m.rowEntries i) = m.valueAt i i := by
  by_cases stored : ∃ v, (i, v) ∈ m.rowEntries i
  · obtain ⟨v, stored⟩ := stored
    rw [onDiagonal_of_mem (ordered_rowEntries sound bound) stored, valueAt_of_mem sound bound stored]
  · rw [onDiagonal_of_absent (not_exists.mp stored), valueAt_of_absent (not_exists.mp stored)]

/-- What is kept of a row are the values up to the diagonal. -/
theorem valueAt_of_mem_kept (sound : m.Sound) {i : Nat} {e : Nat × α} (bound : i < m.nRows)
    (member : e ∈ kept i (m.rowEntries i)) : e.2 = m.valueAt i e.1 := by
  rcases mem_kept.mp member with ⟨stored, -⟩ | rfl
  · exact (valueAt_of_mem sound bound stored).symm
  · exact onDiagonal_eq_valueAt sound bound

theorem mem_keptEntries {r c : Nat} {v : α} :
    ((r, c), v) ∈ m.keptEntries ↔ r < m.nRows ∧ (c, v) ∈ kept r (m.rowEntries r) :=
  mem_flatMap_placeRow

theorem inOrder_keptEntries (sound : m.Sound) : InOrder m.keptEntries := by
  rw [keptEntries, List.range_eq_range']
  apply inOrder_flatMap_placeRow
  intro i member
  exact ordered_kept (ordered_rowEntries sound (by simpa using member))

/-- All parts together hold what is kept of the matrix. -/
theorem exists_mapM_symmetricTriplets {ranges : List RowRange} {parts : List (EncodedSymmetric α)}
    (tile : RowRange.Tile 0 ranges m.nRows) (read : m.SymmetricPartsRead ranges parts) :
    ∃ tss, parts.mapM EncodedSymmetric.triplets = .ok tss ∧ tss.flatten.Perm m.keptEntries := by
  refine ⟨ranges.map fun r =>
    (r.rows.flatMap fun i => placeRow i (below i (m.rowEntries i))) ++
      r.rows.map fun i => ((i, i), onDiagonal i (m.rowEntries i)), ?_, ?_⟩
  · rw [mapM_eq_ok_iff, List.forall₂_map_right_iff]
    exact (read.imp fun _ _ reads => reads.triplets).flip
  · rw [← List.flatMap_def, keptEntries, ← tile.flatMap_rows_eq_range, List.flatMap_assoc]
    apply List.Perm.flatMap_left
    intro r _
    have split : ∀ i, placeRow i (kept i (m.rowEntries i))
        = placeRow i (below i (m.rowEntries i)) ++ [((i, i), onDiagonal i (m.rowEntries i))] :=
      fun i => List.map_append
    simp only [split, List.map_eq_flatMap]
    exact List.flatMap_append_perm ..

end Csr
end SparseStream
