import SparseStream.StreamUnit

/-!
Encoded partitions: a stream, the values in the order of the stream, and the table that gives the
flags their meaning. `Encoded.walk` places each value at its cell and stops at the first thing that
does not fit.
-/
namespace SparseStream

/-- Value types whose stored size matters. -/
class Stored (α : Type) where
  /-- Bytes that a value takes. -/
  bytes : Nat

instance : Stored Float := ⟨8⟩

instance : Stored Int32 := ⟨4⟩

instance : Stored Int64 := ⟨8⟩

/-- Bytes of a matrix with compressed rows, with columns and row pointers of four bytes each. -/
def csrBytes (α : Type) [Stored α] (count nRows : Nat) : Nat :=
  count * (Stored.bytes α + 4) + (nRows + 1) * 4

structure Encoded (α : Type) where
  ctl : Array UInt8
  values : Array α
  count : Nat
  nRows : Nat
  nCols : Nat
  /-- Place of the first row in the whole matrix. -/
  rowStart : Nat
  mode : ColumnMode
  table : KindTable

namespace Encoded

/-- Bytes of the stream and the values. -/
def bytes [Stored α] (m : Encoded α) : Nat := m.ctl.size + m.values.size * Stored.bytes α

/-- Bytes of the same rows stored as compressed rows. -/
def plainBytes [Stored α] (m : Encoded α) : Nat := csrBytes α m.count m.nRows

def ratio [Stored α] (m : Encoded α) : Float := SparseStream.ratio m.bytes m.plainBytes

def units (m : Encoded α) : List StreamUnit × Option Corruption :=
  SparseStream.units m.table m.mode m.ctl.toList

def text (m : Encoded α) : String :=
  "CsxMatrix \x7b\n  rows: " ++ toString m.rowStart ++ ".." ++ toString (m.rowStart + m.nRows)
    ++ " of " ++ toString m.nCols ++ " columns\n  nnz: " ++ toString m.count ++ "\n  ctl: "
    ++ toString m.ctl.size ++ " bytes\n  patterns:\n" ++ m.table.text ++ "\x7d"

/-- Values placed before a failure, if there is one. Rows are counted from the first row of the
partition. -/
abbrev Walk (α : Type) := List (Cell × α) × Option Failure

/-- The values up to the first cell outside of the partition. -/
def inside (m : Encoded α) : List (Cell × α) → Walk α
  | [] => ([], none)
  | ((r, c), v) :: rest =>
    if m.nRows ≤ r ∨ m.nCols ≤ c then
      ([], some (.error (.matrix (.decodedOutside (m.rowStart + r) c m.nRows m.nCols))))
    else
      let (placed, failure) := m.inside rest
      (((r, c), v) :: placed, failure)

/-- The values of one unit, which are stored from place `start` on. -/
def walkUnit (m : Encoded α) (start : Nat) (u : StreamUnit) : Walk α :=
  if m.values.size < start + u.size then
    ([], some (.error (.valueCount m.values.size (start + u.size))))
  else
    match u.cells with
    | .error failure => ([], some failure)
    | .ok cells => m.inside (cells.zip (m.values.extract start (start + u.size)).toList)

def walkFrom (m : Encoded α) (stop : Option Corruption) : Nat → List StreamUnit → Walk α
  | start, [] =>
    match stop with
    | some c => ([], some (.error (.corrupted c)))
    | none =>
      if start = m.values.size then ([], none)
      else ([], some (.error (.valueCount m.values.size start)))
  | start, u :: rest =>
    match m.walkUnit start u with
    | (placed, some failure) => (placed, some failure)
    | (placed, none) =>
      let (more, failure) := m.walkFrom stop (start + u.size) rest
      (placed ++ more, failure)

/-- Every value at its cell, in storage order. -/
def walk (m : Encoded α) : Walk α :=
  let (us, stop) := m.units
  m.walkFrom stop 0 us

/-- Every value with its cell in the whole matrix, in storage order. -/
def triplets (m : Encoded α) : Except Failure (List (Cell × α)) :=
  match m.walk with
  | (_, some failure) => .error failure
  | (placed, none) => .ok (placed.map fun ((r, c), v) => ((m.rowStart + r, c), v))

end Encoded

/-- The lower triangle of a symmetric partition, encoded, and the diagonal. -/
structure EncodedSymmetric (α : Type) where
  diagonal : Array α
  lower : Encoded α

namespace EncodedSymmetric

def bytes [Stored α] (m : EncodedSymmetric α) : Nat :=
  m.lower.bytes + m.diagonal.size * Stored.bytes α

def text (m : EncodedSymmetric α) : String :=
  "CsxSymMatrix \x7b\n  diagonal: " ++ toString m.diagonal.size ++ " values\n  lower: "
    ++ m.lower.text ++ "\n\x7d"

/-- The values below the diagonal, then the diagonal. -/
def triplets (m : EncodedSymmetric α) : Except Failure (List (Cell × α)) := do
  let below ← m.lower.triplets
  let diagonal := m.diagonal.toList.zipIdx m.lower.rowStart
  return below ++ diagonal.map fun (v, i) => ((i, i), v)

end EncodedSymmetric
end SparseStream
