import SparseStream.Proofs.LowerTriangle
import SparseStream.Proofs.StrictLower

/-! Rows taken from a matrix as they are, against the same rows checked. An accepted matrix loses
nothing when its arrays are cut without a check: the rows between two of its pointers make the
partition that they would make as lists of elements, whole or below the diagonal. -/
namespace SparseStream

namespace Partition

variable {first nCols n : Nat} {row : Nat → List (Nat × α)}

theorem getElem?_rows_plainRows {i : Nat} {elems : List (Element α)}
    (found : (plainRows first nCols n row).rows[i]? = some elems) :
    i < n ∧ elems = plainRow (row (first + i)) := by
  obtain ⟨inside, rfl⟩ := List.getElem?_eq_some_iff.mp found
  have place : i < n := by simpa [plainRows] using inside
  exact ⟨place, by simp [plainRows]⟩

/-- Plain rows are strictly lower triangular if their columns lie before their own places. -/
theorem strictlyLower_plainRows
    (before : ∀ i, first ≤ i → i < first + n → ∀ e ∈ row i, e.1 < i) :
    (plainRows first nCols n row).StrictlyLower := by
  intro i elems found x member
  obtain ⟨inside, rfl⟩ := getElem?_rows_plainRows found
  obtain ⟨e, stored, rfl⟩ := List.mem_map.mp member
  refine ⟨[(i, e.1)], rfl, ?_⟩
  intro cell inCells
  obtain rfl := List.mem_singleton.mp inCells
  exact before (first + i) (by omega) (by omega) e stored

/-- A range of rows that a matrix does not have is refused. -/
theorem ofCsr_of_outside {m : Csr α} {last : Nat} (outside : ¬(first ≤ last ∧ last ≤ m.nRows)) :
    ofCsr m first last = .error (.error (.matrix (.rowRange first last m.nRows))) := by
  rw [ofCsr, if_pos (by omega)]
  rfl

end Partition

namespace SymmetricPartition

variable {m : Csr α} {first last : Nat}

theorem ofCsr_of_not_square [Zero α] (uneven : m.nRows ≠ m.nCols) :
    ofCsr m first last = .error (.error (.matrix (.notSquare m.nRows m.nCols))) := by
  rw [ofCsr, if_pos uneven]
  rfl

theorem ofCsr_of_outside [Zero α] (square : m.nRows = m.nCols)
    (outside : ¬(first ≤ last ∧ last ≤ m.nRows)) :
    ofCsr m first last = .error (.error (.matrix (.rowRange first last m.nRows))) := by
  rw [ofCsr, if_neg (not_not_intro square)]
  simp only [if_pos (show m.nRows < last ∨ last < first by omega)]
  rfl

/-- The entries of rows before the diagonal pass as a lower triangle, beside any diagonal. -/
theorem make_plainRows_below {nCols n : Nat} {row : Nat → List (Nat × α)} {diagonal : List α}
    (fit : Partition.RowsFit first nCols n row) (count : diagonal.length = n) :
    make (.plainRows first nCols n fun i => below i (row i)) diagonal
      = .ok ⟨.plainRows first nCols n fun i => below i (row i), diagonal⟩ := by
  have sound := Partition.sound_plainRows (rowsFit_below fit)
  have lower : (Partition.plainRows first nCols n fun i => below i (row i)).StrictlyLower :=
    Partition.strictlyLower_plainRows fun i _ _ e member => (mem_below.mp member).2
  obtain ⟨q, made⟩ := (exists_make_iff sound diagonal).mpr
    ⟨count.trans Partition.nRows_plainRows.symm, lower⟩
  rw [made, (of_make_eq_ok made).2]

end SymmetricPartition

namespace Csr

open SymmetricPartition

/-- Cutting rows out of an accepted matrix, and checking them one by one. In range, both give one
and the same partition. For a square matrix they give the same symmetric partition: below the
diagonal what each row stores before it, and on it the value stored there, or zero. Out of range,
and for the symmetric partition of a matrix that is not square, the rows are refused. -/
theorem partitions_agree [Zero α] {m : Csr α} (accepted : m.Accepted) (first last : Nat) :
    (first ≤ last → last ≤ m.nRows → ∃ rows, m.rowsBetween? first last = some rows ∧
      (∃ p, Partition.ofCsr m first last = .ok p ∧
        Partition.ofRows first m.nCols (rows.map Partition.plainRow) = .ok p) ∧
      (m.nRows = m.nCols → ∃ q, SymmetricPartition.ofCsr m first last = .ok q ∧
        Partition.ofRows first m.nCols ((rows.zipIdx first).map fun (row, i) =>
          Partition.plainRow (row.filter fun e => e.1 < i)) = .ok q.lower ∧
        SymmetricPartition.make q.lower
          ((List.range' first (last - first)).map fun i => m.valueAt i i) = .ok q)) ∧
    (¬(first ≤ last ∧ last ≤ m.nRows) →
      Partition.ofCsr m first last = .error (.error (.matrix (.rowRange first last m.nRows))) ∧
      ∃ fault, SymmetricPartition.ofCsr m first last = .error (.error (.matrix fault))) ∧
    (m.nRows ≠ m.nCols → SymmetricPartition.ofCsr m first last
      = .error (.error (.matrix (.notSquare m.nRows m.nCols)))) := by
  have sound := (sound_of_make accepted.made).1
  refine ⟨?_, ?_, ofCsr_of_not_square⟩
  · intro order bound
    have fit := rowsFit accepted order bound
    refine ⟨_, rowsBetween?_eq sound bound,
      ⟨_, Partition.ofCsr_eq_plainRows accepted order bound, ?_⟩, ?_⟩
    · rw [List.map_map]
      exact Partition.ofRows_plainRows fit
    · intro square
      refine ⟨_, ofCsr_eq_plainRows accepted square order bound, ?_, ?_⟩
      · rw [zipIdx_map_range', List.map_map]
        exact Partition.ofRows_plainRows (rowsFit_below fit)
      · have diagonal : (List.range' first (last - first)).map (fun i => m.valueAt i i)
            = (List.range' first (last - first)).map fun i => onDiagonal i (m.rowEntries i) := by
          apply List.map_congr_left
          intro i member
          have place := List.mem_range'_1.mp member
          exact (onDiagonal_eq_valueAt sound (by omega)).symm
        rw [diagonal]
        exact make_plainRows_below fit (by simp)
  · intro outside
    refine ⟨Partition.ofCsr_of_outside outside, ?_⟩
    by_cases square : m.nRows = m.nCols
    · exact ⟨_, ofCsr_of_outside square outside⟩
    · exact ⟨_, ofCsr_of_not_square square⟩

/-- Two rows of three, one of them empty; a range past the last row; a matrix with more columns than
rows. -/
theorem partitions_agree_last_two_rows :
    let m : Csr Int32 := ⟨3, 3, #[0, 2, 2, 5], #[0, 2, 0, 1, 2], #[1, 5, 2, 3, 4]⟩
    let wide : Csr Int32 := ⟨1, 2, #[0, 1], #[1], #[7]⟩
    m.Accepted ∧ wide.Accepted ∧
    (∃ p, Partition.ofCsr m 1 3 = .ok p ∧
      Partition.ofRows 1 3 [[], [.plain 0 2, .plain 1 3, .plain 2 4]] = .ok p) ∧
    (∃ q, SymmetricPartition.ofCsr m 1 3 = .ok q ∧
      Partition.ofRows 1 3 [[], [.plain 0 2, .plain 1 3]] = .ok q.lower ∧
      SymmetricPartition.make q.lower [0, 4] = .ok q) ∧
    Partition.ofCsr m 2 4 = .error (.error (.matrix (.rowRange 2 4 3))) ∧
    SymmetricPartition.ofCsr wide 0 1 = .error (.error (.matrix (.notSquare 1 2))) := by
  intro m wide
  have accepted : m.Accepted := ⟨by decide, rfl⟩
  have acceptedWide : wide.Accepted := ⟨by decide, rfl⟩
  obtain ⟨inside, -⟩ := partitions_agree accepted 1 3
  obtain ⟨rows, read, ⟨p, cut, checked⟩, symmetric⟩ := inside (by decide) (by decide)
  have stored : m.rowsBetween? 1 3 = some [[], [(0, 2), (1, 3), (2, 4)]] := by cbv
  have diagonal : (List.range' 1 2).map (fun i => m.valueAt i i) = [0, 4] := by decide +kernel
  cases read.symm.trans stored
  obtain ⟨q, split, lower, made⟩ := symmetric rfl
  rw [diagonal] at made
  exact ⟨accepted, acceptedWide, ⟨p, cut, checked⟩, ⟨q, split, lower, made⟩,
    ((partitions_agree accepted 2 4).2.1 (by decide)).1,
    (partitions_agree acceptedWide 0 1).2.2 (by decide)⟩

end Csr
end SparseStream
