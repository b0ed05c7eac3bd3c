import SparseStream.Csr
import SparseStream.Event

/-!
Balanced ranges. The rows of a matrix are cut into ranges of about as many entries each: a range
takes rows until it holds its share of the entries not given out before, and the last one takes
what remains.
-/
namespace SparseStream

/-- Rows from `first` to before `last`, and the entries they hold. -/
structure RowRange where
  first : Nat
  last : Nat
  count : Nat
  deriving DecidableEq, Repr

namespace Csr

/-- Takes rows from `last` on, until at least one entry and `limit` entries are taken. -/
def takeRows (m : Csr α) (limit last taken : Nat) : Option (Nat × Nat) :=
  if last < m.nRows then
    if 0 < taken ∧ limit ≤ taken then some (last, taken)
    else
      match m.rowCount? last with
      | some n => takeRows m limit (last + 1) (taken + n)
      | none => none
  else some (last, taken)
termination_by m.nRows - last

/-- `n + 1` ranges from row `first` on, when `assigned` entries come before it. Those before the
first row without bounds stand in front of the failure that this row is. -/
def rangesFrom (m : Csr α) : Nat → Nat → Nat → List RowRange × Option Failure
  | 0, first, assigned => ([⟨first, m.nRows, m.count - assigned⟩], none)
  | n + 1, first, assigned =>
    match m.takeRows ((m.count - assigned) / (n + 2)) first 0 with
    | none => ([], some .outOfBounds)
    | some (last, taken) =>
      let (ranges, failure) := m.rangesFrom n last (assigned + taken)
      (⟨first, last, taken⟩ :: ranges, failure)

/-- The rows in `n` ranges, at least in one. -/
def ranges (m : Csr α) (n : Nat) : List RowRange × Option Failure := m.rangesFrom (n - 1) 0 0

end Csr

/-- Bytes of the bounds of a range. -/
def RowRange.bytes : Nat := 2 * wordBytes

def rangeEvents (ranges : List RowRange) : List Event :=
  ranges.zipIdx.map fun (r, i) => .range i r.first r.last r.count

end SparseStream
