import SparseStream.Assembly
import SparseStream.Balance
import SparseStream.Multiply

/-!
A matrix as a list of encoded partitions, one for each balanced range of rows. The partitions are
encoded independently of each other, so nothing depends on how the work is shared out.
-/
namespace SparseStream

/-- Encodes each partition; the first failure counts. What happens within a partition is not
reported. -/
def encodeEach (encode : α → Tracked β) (parts : List α) : Except Failure (List β) :=
  parts.mapM fun p => (encode p).1

def encodeParts [Stored α] (s : Settings) (parts : List (Partition α)) :
    Except Failure (List (Encoded α)) :=
  encodeEach (Partition.encode s allocationLimit) parts

namespace Csr

/-- Cuts the rows into `n` balanced ranges. Each is reported when it is full, so the last one, which
takes what remains, is not. -/
def cutRows (m : Csr α) (n : Nat) : Tracked (List RowRange) :=
  match reserve n RowRange.bytes with
  | .error failure => Tracked.fail failure
  | .ok () =>
    match m.ranges n with
    | (ranges, none) => (.ok ranges, ⟨[], rangeEvents ranges.dropLast⟩)
    | (ranges, some failure) => (.error failure, ⟨[], rangeEvents ranges⟩)

def summary [Stored α] (m : Csr α) (sizes : List (Nat × Nat)) : Event :=
  .summary sizes.length (total (sizes.map Prod.fst)) (total (sizes.map Prod.snd))
    (csrBytes α m.count m.nRows)

/-- Encodes a matrix, one partition for each thread. -/
def encode [Stored α] (s : Settings) (m : Csr α) : Tracked (List (Encoded α)) := do
  let ranges ← m.cutRows s.threads
  let parts ← (ranges.mapM fun r => do
    let p ← Partition.ofCsr m r.first r.last
    (p.encode s allocationLimit).1, {})
  Tracked.note [m.summary (parts.map fun p => (p.ctl.size, p.bytes))]
  return parts

/-- Encodes the lower triangle and the diagonal of a square matrix, one partition for each
thread. -/
def encodeSymmetric [Zero α] [Stored α] (s : Settings) (m : Csr α) :
    Tracked (List (EncodedSymmetric α)) := do
  let ranges ← m.cutRows s.threads
  let parts ← (ranges.mapM fun r => do
    let p ← SymmetricPartition.ofCsr m r.first r.last
    (p.encode s allocationLimit).1, {})
  Tracked.note [m.summary (parts.map fun p => (p.lower.ctl.size, p.bytes))]
  return parts

end Csr

/-- Each partition starts where the one before it ended. -/
def checkStarts : Nat → List (Encoded α) → Except Error Unit
  | _, [] => .ok ()
  | expected, p :: rest =>
    if p.rowStart ≠ expected then .error (.matrix (.partStart p.rowStart expected))
    else checkStarts (expected + p.nRows) rest

/-- The product of a whole matrix with a vector. -/
def multiplyParts [Zero α] [Add α] [Mul α] (parts : List (Encoded α)) (x : Array α) :
    Except Failure (Array α) := do
  checkStarts 0 parts
  let pieces ← parts.mapM fun p => p.multiply x
  return pieces.foldl (· ++ ·) #[]

def addEach [Add α] (x y : Array α) : Array α := x.zipWith (· + ·) y

/-- Sums vectors by halves: the first half of a list and the second are summed on their own. -/
def sumByHalves [Add α] (zeros : Array α) : List (Array α) → Array α
  | [] => zeros
  | [y] => addEach zeros y
  | x :: y :: rest =>
    let half := (rest.length + 2) / 2
    addEach (sumByHalves zeros ((x :: y :: rest).take half))
      (sumByHalves zeros ((x :: y :: rest).drop half))
termination_by ys => ys.length

/-- The product of a whole symmetric matrix with a vector: the sum of what the partitions add to
zero each. -/
def multiplySymmetricParts [Zero α] [Add α] [Mul α] (parts : List (EncodedSymmetric α))
    (x : Array α) : Except Failure (Array α) := do
  let zeros := Array.replicate x.size 0
  let pieces ← parts.mapM fun p =>
    match p.multiplyAdd x zeros with
    | (_, some failure) => .error failure
    | (y, none) => .ok y
  return sumByHalves zeros pieces

end SparseStream
