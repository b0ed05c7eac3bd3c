import SparseStream.Csr
import SparseStream.Pattern
import SparseStream.Sums

/-!
Partitions: consecutive rows of a matrix as lists of elements. `Partition.ofRows` admits rows whose
columns increase and whose elements stay inside of the partition; `Partition.ofCsr` takes rows of a
matrix as they are.
-/
namespace SparseStream

structure Partition (α : Type) where
  rowStart : Nat
  nCols : Nat
  /-- Matrix entries that the elements stand for. -/
  count : Nat
  rows : List (List (Element α))
  /-- Rows at the end that cannot be read, for their bounds lie outside of the arrays. -/
  unreadable : Nat := 0
  deriving Repr

namespace Partition

def nRows (p : Partition α) : Nat := p.rows.length + p.unreadable

/-- All rows, if they can be read. -/
def rows? (p : Partition α) : Option (List (List (Element α))) :=
  if p.unreadable = 0 then some p.rows else none

/-- An element carries a value for each of its cells, and all of them lie inside of the partition.
Rows are named by their place in the matrix. -/
def checkElement (rowStart nRows nCols row : Nat) : Element α → Except Error Unit
  | .plain col _ =>
    if nCols ≤ col then .error (.matrix (.elementBound (rowStart + row) col nCols)) else .ok ()
  | .pattern col p values =>
    if values.length ≠ p.size then
      .error (.pattern (.valueCount (rowStart + row) col p.size values.length))
    else
      match p.cells? row col with
      | none => .error (.pattern (.pastFirstColumn (rowStart + row) col))
      | some cells =>
        match cells.find? fun (r, c) => nRows ≤ r || nCols ≤ c with
        | some (r, c) => .error (.pattern (.outside (rowStart + row) col (rowStart + r) c))
        | none => .ok ()

/-- The columns of a row increase, from the one before on, and each element is in order. -/
def checkRow (rowStart nRows nCols row : Nat) : Option Nat → List (Element α) → Except Error Unit
  | _, [] => .ok ()
  | none, e :: rest => do
    checkElement rowStart nRows nCols row e
    checkRow rowStart nRows nCols row (some e.col) rest
  | some previous, e :: rest =>
    if e.col ≤ previous then
      .error (.matrix (.repeatedColumn (rowStart + row) e.col previous))
    else do
      checkElement rowStart nRows nCols row e
      checkRow rowStart nRows nCols row (some e.col) rest

def ofRows (rowStart nCols : Nat) (rows : List (List (Element α))) :
    Except Error (Partition α) := do
  rows.zipIdx.forM fun (row, i) => checkRow rowStart rows.length nCols i none row
  return ⟨rowStart, nCols, total (rows.flatten.map Element.count), rows, 0⟩

/-- Entry lists as plain elements. -/
def plainRow (row : List (Nat × α)) : List (Element α) := row.map fun (col, v) => .plain col v

/-- A row of the part of a matrix that starts at entry `start` and has `entries` as its entries. -/
def rowWithin? (rowPtr : Array Nat) (start : Nat) (entries : Array (Nat × α)) (i : Nat) :
    Option (List (Element α)) := do
  let first ← rowPtr[i]?
  let last ← rowPtr[i + 1]?
  if start ≤ first ∧ first ≤ last ∧ last - start ≤ entries.size then
    some (plainRow (entries.extract (first - start) (last - start)).toList)
  else none

/-- The rows from `first` to before `last` of a matrix, as plain elements. -/
def ofCsr (m : Csr α) (first last : Nat) : Except Failure (Partition α) := do
  if m.nRows < last ∨ last < first then
    throw (.error (.matrix (.rowRange first last m.nRows)))
  let start ← access m.rowPtr[first]?
  let stop ← access m.rowPtr[last]?
  if stop < start ∨ m.cols.size < stop ∨ m.values.size < stop then throw .outOfBounds
  let entries := (m.cols.extract start stop).zip (m.values.extract start stop)
  let rows := (List.range' first (last - first)).map (rowWithin? m.rowPtr start entries)
  let readable := rows.takeWhile Option.isSome
  return ⟨first, m.nCols, stop - start, readable.filterMap id, rows.length - readable.length⟩

end Partition

/-- Rows of a symmetric matrix: what lies strictly below the diagonal, and the diagonal itself. -/
structure SymmetricPartition (α : Type) where
  lower : Partition α
  diagonal : List α
  deriving Repr

namespace SymmetricPartition

/-- All cells of an element lie below the diagonal. -/
def checkElement (rowStart row : Nat) (e : Element α) : Except Error Unit :=
  match ((e.cells? row).getD []).find? fun (r, c) => rowStart + r ≤ c with
  | some (r, c) => .error (.matrix (.notBelowDiagonal (rowStart + row) (rowStart + r) c))
  | none => .ok ()

def make (lower : Partition α) (diagonal : List α) : Except Failure (SymmetricPartition α) := do
  if diagonal.length ≠ lower.nRows then
    throw (.error (.matrix (.diagonalCount diagonal.length lower.nRows)))
  lower.rows.zipIdx.forM fun (row, i) =>
    ((row.forM (checkElement lower.rowStart i) : Except Error Unit) : Except Failure Unit)
  let _ ← access lower.rows?
  return ⟨lower, diagonal⟩

/-- The entries of row `i` before the diagonal. -/
def below (i : Nat) (row : List (Nat × α)) : List (Nat × α) := row.filter fun (col, _) => col < i

/-- The entry of row `i` on the diagonal; zero when there is none. -/
def onDiagonal [Zero α] (i : Nat) (row : List (Nat × α)) : α :=
  ((row.filter fun (col, _) => col = i).getLast?.map Prod.snd).getD 0

/-- Splits rows of a square matrix. Entries above the diagonal are left to symmetry. -/
def ofCsr [Zero α] (m : Csr α) (first last : Nat) : Except Failure (SymmetricPartition α) := do
  if m.nRows ≠ m.nCols then throw (.error (.matrix (.notSquare m.nRows m.nCols)))
  if m.nRows < last ∨ last < first then
    throw (.error (.matrix (.rowRange first last m.nRows)))
  let rows ← access (m.rowsBetween? first last)
  let numbered := rows.zipIdx first
  let lower ← Partition.ofRows first m.nCols
    (numbered.map fun (row, i) => Partition.plainRow (below i row))
  return ⟨lower, numbered.map fun (row, i) => onDiagonal i row⟩

end SymmetricPartition
end SparseStream
