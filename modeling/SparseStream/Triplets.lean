import SparseStream.Csr
import SparseStream.Sums

/-!
Matrices from triplets. Triplets come in any order; values given for the same cell are summed in
the order in which they come, and a sum of zero stays an entry.
-/
namespace SparseStream

/-- A cell with a value. -/
abbrev Triplet (α : Type) := Cell × α

/-- Row-major order of cells. -/
def Cell.le (a b : Cell) : Bool := a.1 < b.1 || (a.1 == b.1 && a.2 ≤ b.2)

/-- Adds neighbours in the same cell, from the left. -/
def combine [Add α] (ts : List (Triplet α)) : List (Triplet α) :=
  (ts.foldl (fun done t =>
    match done with
    | [] => [t]
    | last :: before =>
      if last.1 = t.1 then (last.1, last.2 + t.2) :: before else t :: done) []).reverse

/-- One triplet for each cell, in row-major order. -/
def gather [Add α] (ts : List (Triplet α)) : List (Triplet α) :=
  combine (ts.mergeSort fun a b => Cell.le a.1 b.1)

/-- How many triplets lie on each of the first rows. -/
def rowCounts (nRows : Nat) (ts : List (Triplet α)) : List Nat :=
  (ts.foldl (fun (counts : Array Nat) t => counts.modify t.1.1 (· + 1))
    (Array.replicate nRows 0)).toList

/-- Builds a matrix of the given shape; the first triplet outside of it is refused. -/
def Csr.ofTriplets [Add α] (nRows nCols : Nat) (ts : List (Triplet α)) :
    Except Failure (Csr α) := do
  match ts.find? fun t => nRows ≤ t.1.1 || nCols ≤ t.1.2 with
  | some ((r, c), _) => throw (.error (.matrix (.entryBound r c nRows nCols)))
  | none =>
    reserve (nRows + 1) wordBytes
    let entries := gather ts
    Csr.make nRows nCols (offsets (rowCounts nRows entries))
      (entries.map (·.1.2)).toArray (entries.map (·.2)).toArray

end SparseStream
