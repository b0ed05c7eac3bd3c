import SparseStream.Proofs.PlainRows

/-! Strictly lower triangular partitions. Nothing else is taken as the lower triangle of a symmetric
partition: each cell of each element is checked, so that a pattern that starts below the diagonal and
crosses it further on is refused. What is taken is read back as entries below the diagonal, and then
the diagonal itself. -/
namespace SparseStream

namespace Partition

variable {p : Partition α}

/-- The cells of all elements lie below the diagonal, by their rows in the whole matrix. -/
def StrictlyLower (p : Partition α) : Prop :=
  ∀ (i : Nat) (row : List (Element α)), p.rows[i]? = some row → ∀ x ∈ row,
    ∃ cells, x.cells? i = some cells ∧ ∀ cell ∈ cells, cell.2 < p.rowStart + cell.1

/-- An entry lies on a row of the partition, before the diagonal. -/
structure Below (p : Partition α) (t : Triplet α) : Prop where
  first : p.rowStart ≤ t.1.1
  last : t.1.1 < p.rowStart + p.nRows
  before : t.1.2 < t.1.1

/-- One entry on the diagonal for each row of the partition, in order. -/
structure OnDiagonal (p : Partition α) (diagonal : List α) (ts : List (Triplet α)) : Prop where
  length : ts.length = p.nRows
  each : ∀ i v, diagonal[i]? = some v → ts[i]? = some ((p.rowStart + i, p.rowStart + i), v)

/-- Each entry of a sound partition is on a cell of one of its elements. -/
theorem exists_cell_of_mem_entries {ts : List (Triplet α)} {t : Triplet α} (sound : p.Sound)
    (found : p.entries? = some ts) (member : t ∈ ts) :
    ∃ (i : Nat) (row : List (Element α)) (x : Element α) (cells : List Cell) (cell : Cell),
      p.rows[i]? = some row ∧ x ∈ row ∧ x.cells? i = some cells ∧ cell ∈ cells ∧
        t.1 = (p.rowStart + cell.1, cell.2) := by
  rw [entries?_eq sound, Option.some.injEq] at found
  subst found
  obtain ⟨⟨cell, v⟩, zipped, rfl⟩ := List.mem_map.mp member
  obtain ⟨⟨i, x⟩, numbered, inCells⟩ := List.mem_flatMap.mp (List.of_mem_zip zipped).1
  obtain ⟨row, inRows, inRow⟩ := mem_numbered numbered
  obtain ⟨cells, placed, -⟩ := cells_of_mem_numbered sound numbered
  simp only [placed, Option.getD_some] at inCells
  exact ⟨i, row, x, cells, cell, inRows, inRow, placed, inCells, rfl⟩

theorem StrictlyLower.below {ts : List (Triplet α)} (lower : p.StrictlyLower) (sound : p.Sound)
    (found : p.entries? = some ts) : ∀ t ∈ ts, p.Below t := by
  intro t member
  obtain ⟨i, row, x, cells, cell, inRows, inRow, placed, inCells, place⟩ :=
    exists_cell_of_mem_entries sound found member
  obtain ⟨cells', placed', inside⟩ := (sound.sound i row inRows x inRow).cells
  obtain ⟨cells'', placed'', before⟩ := lower i row inRows x inRow
  cases placed.symm.trans placed'
  cases placed.symm.trans placed''
  rw [Prod.ext_iff] at place
  obtain ⟨onRow, onCol⟩ := place
  have bound := (inside cell inCells).1
  have strict := before cell inCells
  exact ⟨by omega, by omega, by omega⟩

theorem onDiagonal_zipIdx {diagonal : List α} (count : diagonal.length = p.nRows) :
    p.OnDiagonal diagonal ((diagonal.zipIdx p.rowStart).map fun (v, i) => ((i, i), v)) where
  length := by rw [List.length_map, List.length_zipIdx, count]
  each := by
    intro i v stored
    rw [List.getElem?_map, List.getElem?_zipIdx, stored]
    rfl

end Partition

namespace SymmetricPartition

variable {p : Partition α} {x : Element α} {cells : List Cell} {rowStart i : Nat}

/-- The check looks at all cells of an element. -/
theorem checkElement_eq_ok_iff (placed : x.cells? i = some cells) :
    checkElement rowStart i x = .ok () ↔ ∀ cell ∈ cells, cell.2 < rowStart + cell.1 := by
  rw [checkElement, placed, Option.getD_some]
  split
  · next r c found =>
    have member := List.mem_of_find?_eq_some found
    have onOrAbove : rowStart + r ≤ c := by simpa using List.find?_some found
    simp only [reduceCtorEq, false_iff]
    exact fun below => absurd (below (r, c) member) (Nat.not_lt_of_le onOrAbove)
  · next none =>
    rw [List.find?_eq_none] at none
    simpa using none

theorem matrix_of_checkElement {error : Error} (refused : checkElement rowStart i x = .error error) :
    ∃ fault, error = .matrix fault := by
  rw [checkElement] at refused
  split at refused
  · cases refused
    exact ⟨_, rfl⟩
  · contradiction

/-- All rows pass exactly when the partition is strictly lower triangular. -/
theorem rows_checked_iff (sound : p.Sound) :
    p.rows.zipIdx.forM (fun (row, i) =>
        ((row.forM (checkElement p.rowStart i) : Except Error Unit) : Except Failure Unit)) = .ok ()
      ↔ p.StrictlyLower := by
  simp only [forM_eq_ok_iff, lift_eq_ok_iff, Prod.forall, List.mem_zipIdx_iff_getElem?]
  rw [forall_comm]
  refine forall₃_congr fun i row inRows => forall₂_congr fun x inRow => ?_
  obtain ⟨cells, placed, -⟩ := (sound.sound i row inRows x inRow).cells
  simp [checkElement_eq_ok_iff placed, placed]

/-- The first check counts the diagonal, the second goes through the rows; rows that were accepted can
be read. -/
theorem make_eq (sound : p.Sound) (diagonal : List α) :
    make p diagonal =
      if diagonal.length ≠ p.nRows then
        .error (.error (.matrix (.diagonalCount diagonal.length p.nRows)))
      else p.rows.zipIdx.forM (fun (row, i) =>
        ((row.forM (checkElement p.rowStart i) : Except Error Unit) : Except Failure Unit))
          >>= fun _ => .ok ⟨p, diagonal⟩ := by
  have readable : access p.rows? = .ok p.rows := by
    rw [Partition.rows?, if_pos sound.readable]
    rfl
  rw [make, readable]
  split <;> rfl

theorem exists_make_iff (sound : p.Sound) (diagonal : List α) :
    (∃ q, make p diagonal = .ok q) ↔ diagonal.length = p.nRows ∧ p.StrictlyLower := by
  rw [make_eq sound, ← rows_checked_iff sound]
  by_cases count : diagonal.length = p.nRows
  · rw [if_neg (not_not_intro count)]
    simp only [bind_eq_ok, count, true_and]
    constructor
    · rintro ⟨q, ⟨⟩, checked, -⟩
      exact checked
    · exact fun checked => ⟨_, (), checked, rfl⟩
  · rw [if_pos count]
    simp [count]

/-- What is refused is refused as a matrix. -/
theorem matrix_of_make {diagonal : List α} {failure : Failure} (sound : p.Sound)
    (refused : make p diagonal = .error failure) : ∃ fault, failure = .error (.matrix fault) := by
  rw [make_eq sound] at refused
  split at refused
  · cases refused
    exact ⟨_, rfl⟩
  · obtain ⟨⟨row, i⟩, -, failed⟩ := exists_mem_of_forM_eq_error (error_of_bind_ok refused)
    obtain ⟨error, inRow, rfl⟩ := exists_error_of_lift failed
    obtain ⟨x, -, blamed⟩ := exists_mem_of_forM_eq_error inRow
    obtain ⟨fault, rfl⟩ := matrix_of_checkElement blamed
    exact ⟨fault, rfl⟩

/-- What a symmetric partition that was taken is read back as: the entries of its lower triangle, all
of them below the diagonal, and then the diagonal. -/
theorem exists_triplets_of_make [Stored α] {diagonal : List α} {q : SymmetricPartition α}
    {s : Settings} {limit : Nat} {m : EncodedSymmetric α} (sound : p.Sound)
    (rows : p.nRows < wordLimit) (made : make p diagonal = .ok q)
    (encoded : (q.encode s limit).1 = .ok m) :
    ∃ below onDiagonal, m.triplets = .ok (below ++ onDiagonal) ∧ p.entries? = some below ∧
      (∀ t ∈ below, p.Below t) ∧ p.OnDiagonal diagonal onDiagonal := by
  obtain ⟨count, lower⟩ := (exists_make_iff sound diagonal).mp ⟨q, made⟩
  obtain ⟨-, rfl⟩ := of_make_eq_ok made
  obtain ⟨part, below, rfl⟩ := exists_below_of_encode encoded
  obtain ⟨start, -, -⟩ := Partition.shape_of_encodeWith sound below
  obtain ⟨ts, found, read⟩ := Partition.triplets_of_encodeWith sound rows below
  refine ⟨ts, _, ?_, found, lower.below sound found, Partition.onDiagonal_zipIdx count⟩
  simp only [EncodedSymmetric.triplets, read, start, bind, Except.bind]
  rfl

/-- An accepted partition is taken as a lower triangle exactly when it is strictly lower triangular,
with a diagonal of one value for each row; otherwise an error names the place. What is taken and then
encoded is read back as entries below the diagonal and one entry on it for each row, in order. -/
theorem make_iff_strictlyLower [Stored α] {p : Partition α} (accepted : p.Accepted)
    (rows : p.rowStart + p.nRows < wordLimit) (diagonal : List α) :
    ((∃ q, make p diagonal = .ok q) ↔ diagonal.length = p.nRows ∧ p.StrictlyLower) ∧
    (∀ failure, make p diagonal = .error failure → ∃ fault, failure = .error (.matrix fault)) ∧
    ∀ q s limit m, make p diagonal = .ok q → (q.encode s limit).1 = .ok m →
      ∃ below onDiagonal, m.triplets = .ok (below ++ onDiagonal) ∧ p.entries? = some below ∧
        (∀ t ∈ below, p.Below t) ∧ p.OnDiagonal diagonal onDiagonal := by
  have few : p.nRows < wordLimit := by omega
  refine ⟨exists_make_iff accepted.sound diagonal, fun _ => matrix_of_make accepted.sound, ?_⟩
  intro q s limit m made encoded
  exact exists_triplets_of_make accepted.sound few made encoded

/-- A diagonal pattern beside the main diagonal is taken and read back. A line of two that starts below
the diagonal and ends on it is not, whatever the diagonal. -/
theorem make_iff_strictlyLower_lines :
    let beside : Pattern := ⟨.simple .diagonal 1, 2⟩
    let along : Pattern := ⟨.simple .horizontal 1, 2⟩
    let p : Partition Int32 := ⟨2, 10, 3, [[.pattern 0 beside [5, 6]], [.plain 2 7]], 0⟩
    let crossing : Partition Int32 := ⟨2, 10, 2, [[.pattern 1 along [5, 6]]], 0⟩
    (∃ q m, make p [1, 2] = .ok q ∧ (q.encode {} allocationLimit).1 = .ok m ∧
      ∃ below onDiagonal, m.triplets = .ok (below ++ onDiagonal) ∧ (∀ t ∈ below, p.Below t) ∧
        p.OnDiagonal [1, 2] onDiagonal) ∧
    ∀ diagonal, ¬∃ q, make crossing diagonal = .ok q := by
  intro beside along p crossing
  have narrow : 1 < strideLimit ∧ 2 < wordLimit := by decide
  have besideAdmitted : beside.Admitted :=
    .line narrow.1 narrow.2 (rfl : Pattern.line .diagonal 1 2 = _)
  have alongAdmitted : along.Admitted :=
    .line narrow.1 narrow.2 (rfl : Pattern.line .horizontal 1 2 = _)
  have accepted : p.Accepted := .rows (by decide) (by simp [p, Element.Admitted, besideAdmitted])
    (rfl : Partition.ofRows 2 10 p.rows = .ok p)
  have acceptedCrossing : crossing.Accepted :=
    .rows (by decide) (by simp [crossing, Element.Admitted, alongAdmitted])
      (rfl : Partition.ofRows 2 10 crossing.rows = .ok crossing)
  constructor
  · have made : make p [1, 2] = .ok ⟨p, [1, 2]⟩ := rfl
    obtain ⟨m, encoded⟩ := exists_ok_of_isOk
      (by decide +kernel :
        ((SymmetricPartition.mk p [1, 2]).encode {} allocationLimit).1.isOk = true)
    obtain ⟨below, onDiagonal, read, -, before, on⟩ :=
      (make_iff_strictlyLower accepted (by decide) [1, 2]).2.2 _ {} allocationLimit m made encoded
    exact ⟨_, m, made, encoded, below, onDiagonal, read, before, on⟩
  · intro diagonal taken
    obtain ⟨-, lower⟩ := (make_iff_strictlyLower acceptedCrossing (by decide) diagonal).1.mp taken
    obtain ⟨cells, placed, before⟩ := lower 0 _ rfl _ (List.mem_singleton_self _)
    have both : Element.cells? 0 (.pattern 1 along [(5 : Int32), 6]) = some [(0, 1), (0, 2)] := rfl
    cases placed.symm.trans both
    exact absurd (before (0, 2) (by decide)) (by decide)

end SymmetricPartition
end SparseStream
