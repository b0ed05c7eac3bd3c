import SparseStream.Multiply
import SparseStream.PivotSort
import SparseStream.Triplets

/-!
Matrices compressed along either dimension. Such a matrix is put together from triplets, and turned
from one dimension to the other; encoded partitions are put back together into one.

Who builds these matrices is left open: a `MatrixLibrary` takes triplets one by one and compresses
them, and takes over the arrays of a CSR matrix. `MatrixLibrary.plain` is the one that programs run
with.
-/
namespace SparseStream

/-- Compressed by rows or by columns; `indices` are places along the other dimension. -/
structure Compressed (α : Type) where
  byRows : Bool
  nRows : Nat
  nCols : Nat
  pointers : Array Nat
  indices : Array Nat
  data : Array α
  deriving Repr

namespace Compressed

def outer (m : Compressed α) : Nat := if m.byRows then m.nRows else m.nCols

def inner (m : Compressed α) : Nat := if m.byRows then m.nCols else m.nRows

/-- The pointer that stands for the first place of the arrays. Pointers need not start at zero. -/
def origin (m : Compressed α) : Nat := m.pointers.getD 0 0

/-- The places in the arrays that pointers stand for. -/
def places (m : Compressed α) : Array Nat := m.pointers.map (· - m.origin)

/-- The arrays fit together: no pointer lies before the first or needs all 64 bits, and each stretch
of indices is in range and increases. -/
def wellFormed (m : Compressed α) : Bool :=
  m.pointers.all (fun p => m.origin ≤ p && p < signedLimit)
    && match Csr.make m.outer m.inner m.places m.indices m.data with
      | .ok _ => true
      | .error _ => false

/-- A matrix with compressed columns, if it is well formed. -/
def ofColumns? (nRows nCols : Nat) (pointers indices : Array Nat) (data : Array α) :
    Option (Compressed α) :=
  let c : Compressed α := ⟨false, nRows, nCols, pointers, indices, data⟩
  if c.wellFormed then some c else none

/-- Entries with their place along the compressed dimension and along the other. -/
def entries (m : Compressed α) : List (Triplet α) :=
  let places := m.places
  (List.range m.outer).flatMap fun i =>
    let first := places.getD i 0
    let last := places.getD (i + 1) 0
    ((m.indices.extract first last).zip (m.data.extract first last)).toList.map
      fun (j, v) => ((i, j), v)

/-- The same matrix, compressed along the other dimension. -/
def turn (m : Compressed α) : Except Failure (Compressed α) := do
  reserve (m.inner + 1) wordBytes
  let turned := (m.entries.map fun ((i, j), v) => ((j, i), v)).mergeSort
    fun a b => Cell.le a.1 b.1
  return ⟨!m.byRows, m.nRows, m.nCols, offsets (rowCounts m.inner turned),
    (turned.map (·.1.2)).toArray, (turned.map (·.2)).toArray⟩

def toRows (m : Compressed α) : Except Failure (Compressed α) :=
  if m.byRows then .ok m else m.turn

def toColumns (m : Compressed α) : Except Failure (Compressed α) :=
  if m.byRows then m.turn else .ok m

/-- The same matrix by rows; their pointers have to start at zero. -/
def toCsr (m : Compressed α) : Except Failure (Csr α) := do
  let rows ← m.toRows
  Csr.make rows.nRows rows.nCols rows.pointers rows.indices rows.data

end Compressed

/-- The arrays of a matrix with compressed rows. -/
def Csr.compressed (m : Csr α) : Compressed α :=
  ⟨true, m.nRows, m.nCols, m.rowPtr, m.cols, m.values⟩

/-- What builds compressed matrices. -/
structure MatrixLibrary (α : Type) where
  /-- Triplets that a matrix will be made of. -/
  Collection : Type
  /-- No triplets yet, for a matrix with so many rows and columns. -/
  start : Nat → Nat → Collection
  add : Collection → Triplet α → Except Failure Collection
  /-- Compresses by rows what was collected. -/
  compress : Collection → Except Failure (Compressed α)
  /-- Takes over the arrays of a matrix. -/
  adopt : Csr α → Except Failure (Compressed α)

namespace MatrixLibrary

/-- Triplets for a matrix of a known shape, in the order in which they came. -/
structure Collected (α : Type) where
  nRows : Nat
  nCols : Nat
  triplets : Array (Triplet α) := #[]
  deriving Repr

/-- A cell outside of the shape ends it. -/
def Collected.add (c : Collected α) (t : Triplet α) : Except Failure (Collected α) :=
  if c.nRows ≤ t.1.1 || c.nCols ≤ t.1.2 then .error .outOfBounds
  else .ok { c with triplets := c.triplets.push t }

/-- Triplets in row-major order. Those of one cell come in the order that pivots leave them in. -/
def arrange (ts : List (Triplet α)) : List (Triplet α) :=
  PivotSort.sort (fun a b => !Cell.le b.1 a.1) ts

/-- The values of a cell are summed as they are arranged. -/
def Collected.compress [Add α] (c : Collected α) : Except Failure (Compressed α) := do
  reserve (c.nRows + 1) wordBytes
  let gathered := gather (arrange c.triplets.toList)
  return ⟨true, c.nRows, c.nCols, offsets (rowCounts c.nRows gathered),
    (gathered.map (·.1.2)).toArray, (gathered.map (·.2)).toArray⟩

/-- Collects triplets in an array and sorts them around pivots. A matrix that is not well formed
ends it. -/
def plain [Add α] : MatrixLibrary α where
  Collection := Collected α
  start nRows nCols := { nRows, nCols }
  add := Collected.add
  compress := Collected.compress
  adopt m := if m.compressed.wellFormed then .ok m.compressed else .error .outOfBounds

variable (lib : MatrixLibrary α)

/-- The matrix of some triplets. -/
def ofTriplets (nRows nCols : Nat) (ts : List (Triplet α)) : Except Failure (Compressed α) := do
  lib.compress (← ts.foldlM lib.add (lib.start nRows nCols))

/-- The matrix of the triplets that are read from each part, part by part. -/
def assemble (nRows nCols : Nat) (read : β → Except Failure (List (Triplet α))) (parts : List β) :
    Except Failure (Compressed α) := do
  let collected ← parts.foldlM (fun c p => do (← read p).foldlM lib.add c) (lib.start nRows nCols)
  lib.compress collected

/-- Puts encoded partitions together. -/
def ofParts (parts : List (Encoded α)) (nRows nCols : Nat) : Except Failure (Compressed α) :=
  lib.assemble nRows nCols Encoded.triplets parts

/-- A value below the diagonal stands for the opposite entry too; a diagonal value that is zero
stands for no entry. -/
def reflect [Zero α] [BEq α] (t : Triplet α) : List (Triplet α) :=
  let ((r, c), v) := t
  if r = c then if v == 0 then [] else [t] else [t, ((c, r), v)]

/-- Puts encoded symmetric partitions together into the full matrix. -/
def ofSymmetricParts [Zero α] [BEq α] (parts : List (EncodedSymmetric α)) (n : Nat) :
    Except Failure (Compressed α) :=
  lib.assemble n n (fun p => return (← p.triplets).flatMap reflect) parts

end MatrixLibrary
end SparseStream
