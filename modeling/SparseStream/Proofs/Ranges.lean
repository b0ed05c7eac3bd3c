import SparseStream.Parts
import SparseStream.Proofs.CsrRows

/-! Balanced ranges of rows. The ranges of an accepted matrix follow each other without a gap from
the first row to the last, so what is done for each range in turn is done for each row in turn. -/
namespace SparseStream

namespace RowRange

def rows (r : RowRange) : List Nat := List.range' r.first (r.last - r.first)

theorem mem_rows {r : RowRange} {i : Nat} : i ∈ r.rows ↔ r.first ≤ i ∧ i < r.last := by
  rw [rows, List.mem_range'_1]
  omega

/-- Ranges that follow each other without a gap, from one row to before another. -/
inductive Tile : Nat → List RowRange → Nat → Prop
  | nil (row : Nat) : Tile row [] row
  | cons {first last count stop : Nat} {rest : List RowRange} : first ≤ last →
      Tile last rest stop → Tile first (⟨first, last, count⟩ :: rest) stop

theorem Tile.le {start stop : Nat} {rs : List RowRange} (tile : Tile start rs stop) :
    start ≤ stop := by
  induction tile with
  | nil => exact Nat.le_refl _
  | cons order _ ih => exact Nat.le_trans order ih

theorem Tile.order {start stop : Nat} {rs : List RowRange} (tile : Tile start rs stop) :
    ∀ r ∈ rs, r.first ≤ r.last ∧ r.last ≤ stop := by
  induction tile with
  | nil => simp
  | cons order rest ih => exact List.forall_mem_cons.mpr ⟨⟨order, rest.le⟩, ih⟩

/-- The rows of all ranges, range by range, are the rows in order. -/
theorem Tile.flatMap_rows {start stop : Nat} {rs : List RowRange} (tile : Tile start rs stop) :
    rs.flatMap rows = List.range' start (stop - start) := by
  induction tile with
  | nil => simp
  | @cons first last count stop rest order later ih =>
    have place : first + (last - first) = last := by omega
    have whole : stop - first = (last - first) + (stop - last) := by
      have := later.le
      omega
    rw [List.flatMap_cons, ih, whole, ← List.range'_append_1, place, rows]

/-- Ranges that tile all rows hold each of them once, in order. -/
theorem Tile.flatMap_rows_eq_range {n : Nat} {rs : List RowRange} (tile : Tile 0 rs n) :
    rs.flatMap rows = List.range n := by
  rw [tile.flatMap_rows, Nat.sub_zero, List.range_eq_range']

end RowRange

namespace Csr

theorem rowCount?_eq {m : Csr α} (sound : m.Sound) {i : Nat} (bound : i < m.nRows) :
    m.rowCount? i = some (m.pointer (i + 1) - m.pointer i) := by
  have order := (sound.bounds i bound).1
  rw [rowCount?, getElem?_pointer sound (by omega), getElem?_pointer sound bound]
  simp [order]

/-- Taking rows of an accepted matrix ends at a row boundary and counts the entries up to it. -/
theorem takeRows_eq {m : Csr α} (sound : m.Sound) {limit last taken : Nat}
    (bound : last ≤ m.nRows) :
    ∃ stop, m.takeRows limit last taken = some (stop, taken + (m.pointer stop - m.pointer last)) ∧
      last ≤ stop ∧ stop ≤ m.nRows := by
  fun_induction takeRows m limit last taken with
  | case1 last taken inside full => exact ⟨last, by simp, Nat.le_refl _, bound⟩
  | case2 last taken inside open' n found ih =>
    rw [rowCount?_eq sound inside, Option.some.injEq] at found
    have step := (sound.bounds last inside).1
    obtain ⟨stop, more, after, within⟩ := ih inside
    have later := pointer_le sound after within
    refine ⟨stop, ?_, Nat.le_of_succ_le after, within⟩
    rw [more, ← found, Nat.add_assoc, Nat.add_comm (_ - _), Nat.sub_add_sub_cancel later step]
  | case3 last taken inside open' none => simp [rowCount?_eq sound inside] at none
  | case4 last taken done => exact ⟨last, by simp, Nat.le_refl _, bound⟩

theorem rangesFrom_tile {m : Csr α} (sound : m.Sound) (n : Nat) {first : Nat} (assigned : Nat)
    (bound : first ≤ m.nRows) :
    ∃ rs, m.rangesFrom n first assigned = (rs, none) ∧ rs.length = n + 1 ∧
      RowRange.Tile first rs m.nRows := by
  induction n generalizing first assigned with
  | zero => exact ⟨_, rfl, rfl, .cons bound (.nil _)⟩
  | succ n ih =>
    obtain ⟨stop, taken, after, within⟩ :=
      @takeRows_eq _ m sound ((m.count - assigned) / (n + 2)) first 0 bound
    obtain ⟨rs, more, length, tile⟩ :=
      ih (assigned + (0 + (m.pointer stop - m.pointer first))) within
    refine ⟨⟨first, stop, 0 + (m.pointer stop - m.pointer first)⟩ :: rs, ?_, ?_, .cons after tile⟩
    · simp only [rangesFrom, taken, more]
    · rw [List.length_cons, length]

/-- The rows of an accepted matrix are cut into as many ranges as asked for, at least one, and these
cover the rows in order. -/
theorem ranges_tile {m : Csr α} (sound : m.Sound) (n : Nat) :
    ∃ rs, m.ranges n = (rs, none) ∧ rs.length = max n 1 ∧ RowRange.Tile 0 rs m.nRows := by
  obtain ⟨rs, found, length, tile⟩ := rangesFrom_tile sound (n - 1) 0 (Nat.zero_le m.nRows)
  exact ⟨rs, found, by omega, tile⟩

theorem order_of_mem_ranges {m : Csr α} (sound : m.Sound) {n : Nat} {r : RowRange}
    (member : r ∈ (m.ranges n).1) : r.first ≤ r.last ∧ r.last ≤ m.nRows := by
  obtain ⟨rs, found, -, tile⟩ := ranges_tile sound n
  rw [found] at member
  exact tile.order r member

/-- With room for the list of ranges, cutting the rows gives that list. -/
theorem fst_cutRows {m : Csr α} {n : Nat} {rs : List RowRange} (found : m.ranges n = (rs, none))
    (room : reserve n RowRange.bytes = .ok ()) : (m.cutRows n).1 = .ok rs := by
  rw [cutRows, room, found]

end Csr
end SparseStream
