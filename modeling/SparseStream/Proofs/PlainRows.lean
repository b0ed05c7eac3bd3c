import Mathlib.Data.List.Nodup
import SparseStream.Proofs.Entries
import SparseStream.Proofs.RoundTrip
import SparseStream.Proofs.Success

/-! Partitions whose rows hold no patterns, as rows of a matrix make them. Such a partition can be
encoded whenever its columns fit the column mode, and is read back as its rows. -/
namespace SparseStream

theorem zipIdx_map_range' (first n : Nat) (f : Nat → β) :
    ((List.range' first n).map f).zipIdx first = (List.range' first n).map fun i => (f i, i) := by
  rw [List.zipIdx_map, List.zipIdx_eq_zip_range', List.length_range', List.zip_eq_zipWith,
    List.zipWith_self, List.map_map]
  rfl

namespace Partition

/-- `n` rows of a matrix from `first` on, given by their entries. -/
def plainRows (first nCols n : Nat) (row : Nat → List (Nat × α)) : Partition α :=
  let rows := (List.range' first n).map fun i => plainRow (row i)
  ⟨first, nCols, total (rows.flatten.map Element.count), rows, 0⟩

/-- Columns increase along each of `n` rows from `first` on, and lie inside. -/
structure RowsFit (first nCols n : Nat) (row : Nat → List (Nat × α)) : Prop where
  word : nCols < wordLimit
  ordered : ∀ i, first ≤ i → i < first + n → ((row i).map Prod.fst).Pairwise (· < ·)
  inside : ∀ i, first ≤ i → i < first + n → ∀ e ∈ row i, e.1 < nCols

variable {first nCols n : Nat} {row : Nat → List (Nat × α)}

theorem nRows_plainRows : (plainRows first nCols n row).nRows = n := by
  simp [plainRows, nRows]

theorem mem_rows_plainRows {elems : List (Element α)} :
    elems ∈ (plainRows first nCols n row).rows ↔
      ∃ i, (first ≤ i ∧ i < first + n) ∧ plainRow (row i) = elems := by
  simp only [plainRows, List.mem_map, List.mem_range'_1]

theorem not_pattern_mem_plainRow {entries : List (Nat × α)} {col : Nat} {p : Pattern}
    {values : List α} : .pattern col p values ∉ plainRow entries := by
  simp [plainRow]

theorem checkRow_plainRow {rowStart count i : Nat} {previous : Option Nat}
    {entries : List (Nat × α)} (ordered : (entries.map Prod.fst).Pairwise (· < ·))
    (behind : ∀ p ∈ previous, ∀ e ∈ entries, p < e.1) (inside : ∀ e ∈ entries, e.1 < nCols) :
    checkRow rowStart count nCols i previous (plainRow entries) = .ok () := by
  induction entries generalizing previous with
  | nil => cases previous <;> rfl
  | cons e entries ih =>
    rw [List.map_cons, List.pairwise_cons] at ordered
    rw [List.forall_mem_cons] at inside
    have element : checkElement rowStart count nCols i (.plain e.1 e.2) = .ok () :=
      if_neg (Nat.not_le_of_lt inside.1)
    have rest : checkRow rowStart count nCols i (some e.1) (plainRow entries) = .ok () := by
      apply ih ordered.2 _ inside.2
      intro p same e' member
      cases same
      exact ordered.1 e'.1 (List.mem_map_of_mem member)
    have row : plainRow (e :: entries) = .plain e.1 e.2 :: plainRow entries := rfl
    rw [row]
    cases previous with
    | none => simp only [checkRow, element, bind, Except.bind, Element.col, rest]
    | some p =>
      have after : ¬e.1 ≤ p := Nat.not_le_of_lt (behind p rfl e (List.mem_cons_self ..))
      simp only [checkRow, Element.col, if_neg after, element, bind, Except.bind, rest]

/-- Rows of a matrix that fit pass the checks of a partition. -/
theorem ofRows_plainRows (fit : RowsFit first nCols n row) :
    ofRows first nCols (plainRows first nCols n row).rows = .ok (plainRows first nCols n row) := by
  refine bind_eq_ok.mpr ⟨(), forM_eq_ok_iff.mpr ?_, rfl⟩
  rintro ⟨elems, j⟩ member
  obtain ⟨i, ⟨low, high⟩, rfl⟩ := mem_rows_plainRows.mp (List.fst_mem_of_mem_zipIdx member)
  exact checkRow_plainRow (fit.ordered i low high) (by simp) (fit.inside i low high)

theorem sound_plainRows (fit : RowsFit first nCols n row) : (plainRows first nCols n row).Sound := by
  refine sound_of_ofRows fit.word ?_ (ofRows_plainRows fit)
  intro elems member x inRow
  obtain ⟨i, -, rfl⟩ := mem_rows_plainRows.mp member
  exact admitted_of_mem_plainRow inRow

/-- The elements of plain rows are the entries of these rows, counted from the first row on. -/
theorem numbered_plainRows :
    (plainRows first nCols n row).numbered = (List.range n).flatMap fun j =>
      (row (first + j)).map fun (c, v) => (j, Element.plain c v) := by
  have rows : (plainRows first nCols n row).rows.zipIdx
      = (List.range n).map fun j => (plainRow (row (first + j)), j) := by
    rw [plainRows, List.range'_eq_map_range, List.map_map, List.range_eq_range', zipIdx_map_range']
    rfl
  rw [numbered, rows, List.flatMap_map]
  simp [plainRow, Function.comp_def]

theorem entries?_plainRows :
    (plainRows first nCols n row).entries?
      = some ((List.range' first n).flatMap fun i => placeRow i (row i)) := by
  refine Option.bind_eq_some_iff.mpr ⟨(List.range n).flatMap fun j =>
    (row (first + j)).map fun e => [((j, e.1), e.2)], mapM_eq_some_iff.mpr ?_, ?_⟩
  · rw [numbered_plainRows, List.map_flatMap, List.map_flatMap]
    simp [Element.entries?, Element.cells?, Element.values, Function.comp_def]
  · rw [List.range'_eq_map_range, List.flatMap_map]
    simp only [Option.pure_def, List.flatten_eq_flatMap, List.flatMap_assoc, List.flatMap_map,
      List.map_flatMap, id, ← List.map_eq_flatMap, List.map_map]
    rfl

/-- The units of plain rows are runs of columns that lie inside. -/
theorem run_of_mem_layout_plainRows {symmetric : Bool} {x : Placed}
    (fit : RowsFit first nCols n row)
    (member : x ∈ (plainRows first nCols n row).layout symmetric) :
    ∃ chunk, x.piece = .run chunk ∧ chunk ≠ [] ∧ ∀ col ∈ chunk, col < nCols := by
  obtain ⟨elems, found, -, cut⟩ := cutFrom_of_mem_layout member
  obtain ⟨i, ⟨low, high⟩, rfl⟩ := mem_rows_plainRows.mp (List.mem_of_getElem? found)
  generalize x.piece = piece at cut
  cases cut with
  | @run chunk nonempty _ sub =>
    refine ⟨chunk, rfl, nonempty, ?_⟩
    intro col inChunk
    have inRow := sub.subset inChunk
    rw [map_col_plainRow] at inRow
    obtain ⟨e, inEntries, rfl⟩ := List.mem_map.mp inRow
    exact fit.inside i low high e inEntries
  | pattern inRow => exact absurd inRow not_pattern_mem_plainRow

/-- Runs come in four widths, so plain rows never run out of flags. -/
theorem length_kinds_plainRows (fit : RowsFit first nCols n row) (symmetric : Bool) :
    (Layout.kinds ((plainRows first nCols n row).layout symmetric)).length ≤ Header.maxFlag := by
  have few : Layout.kinds ((plainRows first nCols n row).layout symmetric)
      ⊆ [.run .u8, .run .u16, .run .u32, .run .u64] := by
    intro kind member
    obtain ⟨x, placed, rfl⟩ := Layout.mem_kinds.mp member
    obtain ⟨chunk, run, -⟩ := run_of_mem_layout_plainRows fit placed
    rw [run, Piece.kind]
    cases Width.classify _ <;> simp
  have length := (List.subperm_of_subset (Layout.nodup_kinds _) few).length_le
  exact Nat.le_trans length (by decide)

/-- Plain rows can be encoded as soon as their columns fit the column mode. -/
theorem encodable_plainRows {mode : ColumnMode} {symmetric : Bool}
    (fit : RowsFit first nCols n row) (narrow : mode = .full → nCols ≤ fullColumnLimit) :
    (plainRows first nCols n row).Encodable mode symmetric where
  sizes := by
    intro elems member col q values inRow
    obtain ⟨i, -, rfl⟩ := mem_rows_plainRows.mp member
    exact absurd inRow not_pattern_mem_plainRow
  order := by
    intro elems member front col stride size values next back cut
    obtain ⟨i, -, rfl⟩ := mem_rows_plainRows.mp member
    have inRow : Element.pattern col ⟨.simple .horizontal stride, size⟩ values
        ∈ plainRow (row i) := by
      rw [cut]
      exact List.mem_append_right _ (List.mem_cons_self ..)
    exact absurd inRow not_pattern_mem_plainRow
  kinds := length_kinds_plainRows fit symmetric
  columns := by
    intro full x member
    obtain ⟨chunk, run, nonempty, inside⟩ := run_of_mem_layout_plainRows fit member
    obtain ⟨col, rest, rfl⟩ := List.exists_cons_of_ne_nil nonempty
    rw [run]
    exact Nat.lt_of_lt_of_le (inside col (List.mem_cons_self ..)) (narrow full)

/-- An encoded partition keeps the place and the shape of what was encoded. -/
theorem shape_of_encodeWith [Stored α] {s : Settings} {limit : Nat} {symmetric : Bool}
    {p : Partition α} {m : Encoded α} (sound : p.Sound)
    (encoded : (p.encodeWith s limit symmetric).1 = .ok m) :
    m.rowStart = p.rowStart ∧ m.nRows = p.nRows ∧ m.nCols = p.nCols := by
  obtain ⟨-, e, -, rfl⟩ := exists_run_of_encodeWith sound encoded
  exact ⟨rfl, rfl, rfl⟩

end Partition

/-- What an encoded partition is read back as: `n` rows of a matrix from `first` on. -/
structure Encoded.ReadsAs (m : Encoded α) (first nCols n : Nat) (row : Nat → List (Nat × α)) :
    Prop where
  rowStart : m.rowStart = first
  nRows : m.nRows = n
  nCols : m.nCols = nCols
  triplets : m.triplets = .ok ((List.range' first n).flatMap fun i => placeRow i (row i))

namespace Partition

variable {first nCols n : Nat} {row : Nat → List (Nat × α)}

theorem readsAs_of_encodeWith [Stored α] {s : Settings} {limit : Nat} {symmetric : Bool}
    {m : Encoded α} (fit : RowsFit first nCols n row) (few : n < wordLimit)
    (encoded : ((plainRows first nCols n row).encodeWith s limit symmetric).1 = .ok m) :
    m.ReadsAs first nCols n row := by
  have sound := sound_plainRows fit
  obtain ⟨rowStart, rows, cols⟩ := shape_of_encodeWith sound encoded
  obtain ⟨ts, found, read⟩ := triplets_of_encodeWith sound (nRows_plainRows.symm ▸ few) encoded
  rw [entries?_plainRows, Option.some.injEq] at found
  exact ⟨rowStart, rows.trans nRows_plainRows, cols, found ▸ read⟩

/-- With room in memory, plain rows that fit are encoded, and read back as they are. -/
theorem encodeWith_plainRows [Stored α] {s : Settings} {limit : Nat} {symmetric : Bool}
    (fit : RowsFit first nCols n row) (few : n < wordLimit)
    (narrow : s.mode = .full → nCols ≤ fullColumnLimit)
    (room : (plainRows first nCols n row).HasRoom s limit) :
    ∃ m, ((plainRows first nCols n row).encodeWith s limit symmetric).1 = .ok m ∧
      m.ReadsAs first nCols n row := by
  obtain ⟨m, encoded⟩ := (encodeWith_outcome symmetric (sound_plainRows fit) room).1.mpr
    (encodable_plainRows fit narrow)
  exact ⟨m, encoded, readsAs_of_encodeWith fit few encoded⟩

end Partition
end SparseStream
