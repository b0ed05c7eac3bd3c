import SparseStream.Encoded

/-!
Products with a vector, straight from the stream. Contributions to a row are added in storage
order, from zero on.
-/
namespace SparseStream

/-- Adds to one place of a vector. -/
def addAt [Add α] (y : Array α) (i : Nat) (v : α) : Array α := y.modify i (· + v)

/-- The rows of a partition times a vector. -/
def Encoded.multiply [Zero α] [Add α] [Mul α] (m : Encoded α) (x : Array α) :
    Except Failure (Array α) :=
  if x.size ≠ m.nCols then .error (.error (.matrix (.vectorLength x.size m.nCols)))
  else
    match m.walk with
    | (_, some failure) => .error failure
    | (placed, none) =>
      .ok (placed.foldl (fun y ((r, c), v) => addAt y r (v * x.getD c 0))
        (Array.replicate m.nRows 0))

namespace EncodedSymmetric

/-- Adds the diagonal's share, from row `r` on. A row that the vectors do not have ends it. -/
def addDiagonal [Zero α] [Add α] [Mul α] (x : Array α) : Nat → List α → Array α →
    Array α × Option Failure
  | _, [], y => (y, none)
  | r, d :: rest, y =>
    if y.size ≤ r then (y, some .outOfBounds)
    else addDiagonal x (r + 1) rest (addAt y r (d * x.getD r 0))

/-- Adds the share of each value below the diagonal and of the opposite entry. -/
def addReflected [Zero α] [Add α] [Mul α] (x : Array α) (rowStart : Nat) :
    List (Cell × α) → Array α → Array α × Option Failure
  | [], y => (y, none)
  | ((row, c), v) :: rest, y =>
    let r := rowStart + row
    if y.size ≤ r then (y, some .outOfBounds)
    else
      addReflected x rowStart rest (addAt (addAt y r (v * x.getD c 0)) c (v * x.getD r 0))

/-- Adds the share of a partition in the product of the whole symmetric matrix with `x`. The vector
comes back as far as it got. -/
def multiplyAdd [Zero α] [Add α] [Mul α] (m : EncodedSymmetric α) (x y : Array α) :
    Array α × Option Failure :=
  if x.size ≠ m.lower.nCols ∨ y.size ≠ m.lower.nCols then
    (y, some (.error (.matrix (.vectorLengths x.size y.size m.lower.nCols))))
  else
    match addDiagonal x m.lower.rowStart m.diagonal.toList y with
    | (y, some failure) => (y, some failure)
    | (y, none) =>
      let (placed, stop) := m.lower.walk
      match addReflected x m.lower.rowStart placed y with
      | (y, some failure) => (y, some failure)
      | (y, none) => (y, stop)

end EncodedSymmetric
end SparseStream
