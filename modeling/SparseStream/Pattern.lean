import SparseStream.Error

/-!
Patterns and row elements. A pattern is a shape with a count of elements; a row element is a plain
value, or a pattern anchored at a column with a value for each cell it covers.
-/
namespace SparseStream

structure Pattern where
  shape : Shape
  size : Nat
  deriving DecidableEq, Repr

namespace Pattern

/-- A line of `size` elements along an order that is no block order. -/
def line (order : Order) (stride size : Nat) : Except Error Pattern :=
  if order.isBlock then .error (.pattern (.blockOrder order))
  else if stride = 0 then .error (.pattern .zeroStride)
  else if size = 0 then .error (.pattern .noElements)
  else .ok ⟨.simple order stride, size⟩

/-- A dense block; it covers the product of its dimensions. -/
def block (order : Order) (otherDim : Nat) : Except Error Pattern :=
  match order.blockDim? with
  | none => .error (.pattern (.lineOrder order))
  | some dim =>
    if dim = 0 ∨ maxBlockDim < dim then .error (.pattern (.dimension dim))
    else if otherDim = 0 then .error (.pattern .noLines)
    else .ok ⟨.block order otherDim, dim * otherDim⟩

/-- Element `i` of a pattern anchored at a cell. -/
def cell? (p : Pattern) (row col i : Nat) : Option Cell := do
  let (down, right) ← p.shape.offset? i
  let c ← moveColumn? col right
  return (row + down, c)

/-- The cells of `n` elements from element `i` on, after those already placed, last first. The first
element without a column ends it, however many follow. -/
def cellsFrom? (p : Pattern) (row col : Nat) : Nat → Nat → List Cell → Option (List Cell)
  | 0, _, placed => some placed.reverse
  | n + 1, i, placed =>
    match p.cell? row col i with
    | some cell => cellsFrom? p row col n (i + 1) (cell :: placed)
    | none => none

/-- All cells that a pattern covers, in value order; `none` when one has no column. -/
def cells? (p : Pattern) (row col : Nat) : Option (List Cell) := p.cellsFrom? row col p.size 0 []

theorem cellsFrom?_eq (p : Pattern) (row col n i : Nat) (placed : List Cell) :
    p.cellsFrom? row col n i placed
      = ((List.range' i n).mapM (p.cell? row col)).map (placed.reverse ++ ·) := by
  induction n generalizing i placed with
  | zero => simp [cellsFrom?]
  | succ n ih =>
    rw [cellsFrom?, List.range'_succ, List.mapM_cons]
    cases p.cell? row col i with
    | none => rfl
    | some cell =>
      simp only [ih]
      cases (List.range' (i + 1) n).mapM (p.cell? row col) <;> simp

/-- Each element is placed for itself. -/
theorem cells?_eq (p : Pattern) (row col : Nat) :
    p.cells? row col = (List.range p.size).mapM (p.cell? row col) := by
  rw [cells?, cellsFrom?_eq, ← List.range_eq_range']
  cases (List.range p.size).mapM (p.cell? row col) <;> simp

end Pattern

/-- What a row holds at a column. -/
inductive Element (α : Type) where
  | plain (col : Nat) (value : α)
  | pattern (col : Nat) (pattern : Pattern) (values : List α)
  deriving Repr

namespace Element

/-- The column of a plain element, or of the anchor. -/
def col : Element α → Nat
  | plain c _ | pattern c _ _ => c

/-- How many matrix entries an element stands for. -/
def count : Element α → Nat
  | plain _ _ => 1
  | pattern _ p _ => p.size

def isPattern : Element α → Bool
  | plain _ _ => false
  | pattern _ _ _ => true

def values : Element α → List α
  | plain _ v => [v]
  | pattern _ _ vs => vs

/-- The cells that an element of some row covers. -/
def cells? (row : Nat) : Element α → Option (List Cell)
  | plain c _ => some [(row, c)]
  | pattern c p _ => p.cells? row c

end Element
end SparseStream
