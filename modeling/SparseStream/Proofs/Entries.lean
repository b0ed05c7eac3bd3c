import Mathlib.Data.List.Sort
import SparseStream.Proofs.CsrRows
import SparseStream.Triplets

/-! The entries of a matrix in row-major order. Entries on distinct cells have one such order, and
the rows of a matrix are found again in the list of all of its entries. -/
namespace SparseStream

/-- Row-major order of distinct cells. -/
def Cell.Before (a b : Cell) : Prop := a.1 < b.1 ∨ a.1 = b.1 ∧ a.2 < b.2

theorem Cell.le_iff {a b : Cell} : Cell.le a b = true ↔ a = b ∨ a.Before b := by
  rcases a with ⟨r, c⟩
  rcases b with ⟨r', c'⟩
  simp only [Cell.le, Cell.Before, Bool.or_eq_true, Bool.and_eq_true, decide_eq_true_eq,
    beq_iff_eq, Prod.mk.injEq]
  omega

/-- Entries come in row-major order, no two of them on the same cell. -/
def InOrder (ts : List (Triplet α)) : Prop := ts.Pairwise fun a b => a.1.Before b.1

instance : Std.Irrefl fun a b : Triplet α => a.1.Before b.1 where
  irrefl a before := by
    rcases before with row | ⟨-, col⟩
    · exact Nat.lt_irrefl _ row
    · exact Nat.lt_irrefl _ col

instance : Std.Antisymm fun a b : Triplet α => a.1.Before b.1 where
  antisymm a b before after := by
    unfold Cell.Before at before after
    omega

/-- Entries in order are known by which entries they are. -/
theorem InOrder.eq_of_mem_iff {ts us : List (Triplet α)} (ordered : InOrder ts)
    (ordered' : InOrder us) (same : ∀ t, t ∈ ts ↔ t ∈ us) : ts = us :=
  List.Pairwise.eq_of_mem_iff ordered ordered' same

theorem InOrder.nodup {ts : List (Triplet α)} (ordered : InOrder ts) :
    (ts.map Prod.fst).Nodup := by
  rw [List.nodup_iff_pairwise_ne, List.pairwise_map]
  apply ordered.imp
  intro a b before same
  rw [Cell.Before, same] at before
  omega

/-- The values on a row, each with its column, in storage order. -/
def onRow (r : Nat) (ts : List (Triplet α)) : List (Nat × α) :=
  ts.filterMap fun ((i, c), v) => if i = r then some (c, v) else none

@[simp] theorem onRow_nil (r : Nat) : onRow r ([] : List (Triplet α)) = [] := rfl

theorem onRow_cons (r : Nat) (t : Triplet α) (ts : List (Triplet α)) :
    onRow r (t :: ts) = if t.1.1 = r then (t.1.2, t.2) :: onRow r ts else onRow r ts := by
  by_cases same : t.1.1 = r <;> simp [onRow, same]

theorem mem_onRow {r c : Nat} {v : α} {ts : List (Triplet α)} :
    (c, v) ∈ onRow r ts ↔ ((r, c), v) ∈ ts := by
  simp only [onRow, List.mem_filterMap]
  constructor
  · rintro ⟨⟨⟨i, col⟩, value⟩, member, found⟩
    simp only [Option.ite_none_right_eq_some, Option.some.injEq, Prod.mk.injEq] at found
    obtain ⟨rfl, rfl, rfl⟩ := found
    exact member
  · intro member
    exact ⟨((r, c), v), member, if_pos rfl⟩

/-- Entries of one row, given by their columns. -/
def placeRow (i : Nat) (row : List (Nat × α)) : List (Triplet α) :=
  row.map fun (c, v) => ((i, c), v)

theorem mem_placeRow {i r c : Nat} {v : α} {row : List (Nat × α)} :
    ((r, c), v) ∈ placeRow i row ↔ r = i ∧ (c, v) ∈ row := by
  simp only [placeRow, List.mem_map, Prod.mk.injEq]
  constructor
  · rintro ⟨⟨col, value⟩, member, ⟨rfl, rfl⟩, rfl⟩
    exact ⟨rfl, member⟩
  · rintro ⟨rfl, member⟩
    exact ⟨(c, v), member, ⟨rfl, rfl⟩, rfl⟩

theorem mem_flatMap_placeRow {n r c : Nat} {v : α} {row : Nat → List (Nat × α)} :
    ((r, c), v) ∈ (List.range n).flatMap (fun i => placeRow i (row i)) ↔
      r < n ∧ (c, v) ∈ row r := by
  simp only [List.mem_flatMap, List.mem_range, mem_placeRow]
  constructor
  · rintro ⟨i, bound, rfl, member⟩
    exact ⟨bound, member⟩
  · rintro ⟨bound, member⟩
    exact ⟨r, bound, rfl, member⟩

theorem onRow_placeRow (r i : Nat) (row : List (Nat × α)) :
    onRow r (placeRow i row) = if i = r then row else [] := by
  rw [onRow, placeRow, List.filterMap_map]
  split
  · next same =>
    have each : ((fun t : Triplet α => if t.1.1 = r then some (t.1.2, t.2) else none) ∘
        fun e : Nat × α => ((i, e.1), e.2)) = some := by
      funext e
      exact if_pos same
    exact (congrArg (List.filterMap · row) each).trans List.filterMap_some
  · next other =>
    rw [List.filterMap_eq_nil_iff]
    intro e _
    exact if_neg other

/-- A row is found again among the entries of many rows. -/
theorem onRow_flatMap_placeRow {rows : List Nat} (distinct : rows.Nodup) {r : Nat}
    (row : Nat → List (Nat × α)) :
    onRow r (rows.flatMap fun i => placeRow i (row i)) = if r ∈ rows then row r else [] := by
  induction rows with
  | nil => rfl
  | cons i rows ih =>
    have split : onRow r (placeRow i (row i) ++ rows.flatMap fun i => placeRow i (row i))
        = onRow r (placeRow i (row i)) ++ onRow r (rows.flatMap fun i => placeRow i (row i)) :=
      List.filterMap_append
    rw [List.nodup_cons] at distinct
    rw [List.flatMap_cons, split, onRow_placeRow, ih distinct.2]
    by_cases same : i = r
    · subst same
      simp [distinct.1]
    · simp [same, Ne.symm same]

theorem inOrder_flatMap_placeRow {first n : Nat} {row : Nat → List (Nat × α)}
    (ordered : ∀ i ∈ List.range' first n, ((row i).map Prod.fst).Pairwise (· < ·)) :
    InOrder ((List.range' first n).flatMap fun i => placeRow i (row i)) := by
  apply List.pairwise_flatMap.mpr
  constructor
  · intro i member
    have columns := ordered i member
    rw [List.pairwise_map] at columns
    rw [placeRow, List.pairwise_map]
    exact columns.imp fun before => .inr ⟨rfl, before⟩
  · refine (List.pairwise_lt_range' (s := first) (n := n)).imp ?_
    rintro i j before ⟨⟨r, c⟩, v⟩ inRow ⟨⟨r', c'⟩, v'⟩ inLater
    obtain ⟨rfl, -⟩ := mem_placeRow.mp inRow
    obtain ⟨rfl, -⟩ := mem_placeRow.mp inLater
    exact .inl before

theorem InOrder.ordered_onRow {ts : List (Triplet α)} (ordered : InOrder ts) (i : Nat) :
    ((onRow i ts).map Prod.fst).Pairwise (· < ·) := by
  rw [List.pairwise_map]
  refine ordered.filterMap _ ?_
  rintro ⟨⟨r, c⟩, v⟩ ⟨⟨r', c'⟩, v'⟩ before e found e' found'
  simp only [Option.ite_none_right_eq_some, Option.some.injEq] at found found'
  obtain ⟨rfl, rfl⟩ := found
  obtain ⟨rfl, rfl⟩ := found'
  rcases before with row | ⟨-, col⟩
  · exact absurd row (Nat.lt_irrefl _)
  · exact col

/-- Entries in order are the entries of their rows, row by row. -/
theorem flatMap_onRow {n : Nat} {ts : List (Triplet α)} (ordered : InOrder ts)
    (inside : ∀ t ∈ ts, t.1.1 < n) :
    (List.range n).flatMap (fun i => placeRow i (onRow i ts)) = ts := by
  have columns : ∀ i ∈ List.range' 0 n, ((onRow i ts).map Prod.fst).Pairwise (· < ·) :=
    fun i _ => ordered.ordered_onRow i
  rw [List.range_eq_range']
  apply (inOrder_flatMap_placeRow columns).eq_of_mem_iff ordered
  rintro ⟨⟨r, c⟩, v⟩
  simp only [List.mem_flatMap, mem_placeRow, mem_onRow, List.mem_range'_1]
  constructor
  · rintro ⟨i, -, rfl, member⟩
    exact member
  · intro member
    exact ⟨r, ⟨Nat.zero_le r, by simpa using inside _ member⟩, rfl, member⟩

namespace Csr

/-- All entries of a matrix, row by row. -/
def entries (m : Csr α) : List (Triplet α) :=
  (List.range m.nRows).flatMap fun i => placeRow i (m.rowEntries i)

theorem mem_entries {m : Csr α} {r c : Nat} {v : α} :
    ((r, c), v) ∈ m.entries ↔ r < m.nRows ∧ (c, v) ∈ m.rowEntries r :=
  mem_flatMap_placeRow

theorem ordered_rowEntries {m : Csr α} (sound : m.Sound) {i : Nat} (bound : i < m.nRows) :
    ((m.rowEntries i).map Prod.fst).Pairwise (· < ·) :=
  map_fst_rowEntries sound i ▸ sound.ordered i bound

theorem col_lt_of_mem_rowEntries {m : Csr α} (sound : m.Sound) {i : Nat} (bound : i < m.nRows)
    {e : Nat × α} (member : e ∈ m.rowEntries i) : e.1 < m.nCols :=
  sound.inside i bound e.1 (map_fst_rowEntries sound i ▸ List.mem_map_of_mem member)

theorem inOrder_entries {m : Csr α} (sound : m.Sound) : InOrder m.entries := by
  rw [entries, List.range_eq_range']
  apply inOrder_flatMap_placeRow
  intro i member
  exact ordered_rowEntries sound (by simpa using member)

theorem inside_of_mem_entries {m : Csr α} (sound : m.Sound) :
    ∀ t ∈ m.entries, t.1.1 < m.nRows ∧ t.1.2 < m.nCols := by
  rintro ⟨⟨r, c⟩, v⟩ member
  obtain ⟨bound, inRow⟩ := mem_entries.mp member
  exact ⟨bound, col_lt_of_mem_rowEntries sound bound inRow⟩

theorem onRow_entries {m : Csr α} {i : Nat} (bound : i < m.nRows) :
    onRow i m.entries = m.rowEntries i := by
  rw [entries, onRow_flatMap_placeRow List.nodup_range, if_pos (List.mem_range.mpr bound)]

end Csr
end SparseStream
