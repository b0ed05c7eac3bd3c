import SparseStream.Memory

/-!
Matrices stored by compressed rows: row pointers into one array of columns and one of values.
`Csr.make` admits exactly the arrays that fit together. The arrays can also be put together
unchecked, so reading a row may fail.
-/
namespace SparseStream

structure Csr (α : Type) where
  nRows : Nat
  nCols : Nat
  rowPtr : Array Nat
  cols : Array Nat
  values : Array α
  deriving Repr

/-- Each number is below the next one. -/
def increasing : List Nat → Bool
  | a :: b :: rest => a < b && increasing (b :: rest)
  | _ => true

namespace Csr

def count (m : Csr α) : Nat := m.values.size

/-- One row has its bounds in order, and its columns in range and increasing. -/
def checkRow (nCols : Nat) (rowPtr cols : Array Nat) (i : Nat) : Except Error Unit :=
  let first := rowPtr.getD i 0
  let last := rowPtr.getD (i + 1) 0
  if last < first ∨ cols.size < last then .error (.matrix (.rowPointerOrder i))
  else
    let row := (cols.extract first last).toList
    match row.find? (nCols ≤ ·) with
    | some col => .error (.matrix (.columnBound col nCols))
    | none => if increasing row then .ok () else .error (.matrix (.columnOrder i))

def make (nRows nCols : Nat) (rowPtr cols : Array Nat) (values : Array α) :
    Except Error (Csr α) :=
  if rowPtr.size ≠ nRows + 1 then
    .error (.matrix (.rowPointerCount rowPtr.size (nRows + 1)))
  else if cols.size ≠ values.size then
    .error (.matrix (.columnCount cols.size values.size))
  else if rowPtr.getD nRows 0 ≠ cols.size ∨ rowPtr.getD 0 0 ≠ 0 then
    .error (.matrix .rowPointerEnds)
  else do
    (List.range nRows).forM (checkRow nCols rowPtr cols)
    return ⟨nRows, nCols, rowPtr, cols, values⟩

/-- A matrix without entries. -/
def zeros (nRows nCols : Nat) : Except Failure (Csr α) := do
  reserve (nRows + 1) wordBytes
  return ⟨nRows, nCols, Array.replicate (nRows + 1) 0, #[], #[]⟩

def identity [One α] (n : Nat) : Except Failure (Csr α) := do
  reserve (n + 1) wordBytes
  return ⟨n, n, Array.range (n + 1), Array.range n, Array.replicate n 1⟩

/-- How many entries a row has. -/
def rowCount? (m : Csr α) (i : Nat) : Option Nat := do
  let first ← m.rowPtr[i]?
  let last ← m.rowPtr[i + 1]?
  if first ≤ last then some (last - first) else none

/-- How many entries each row has. -/
def rowCounts? (m : Csr α) : Option (List Nat) :=
  if 0 < m.nRows ∧ m.rowPtr.size ≤ m.nRows then none else (List.range m.nRows).mapM m.rowCount?

/-- The columns and values of a row. -/
def row? (m : Csr α) (i : Nat) : Option (List (Nat × α)) := do
  let first ← m.rowPtr[i]?
  let last ← m.rowPtr[i + 1]?
  if first ≤ last ∧ last ≤ m.cols.size ∧ last ≤ m.values.size then
    some ((m.cols.extract first last).zip (m.values.extract first last)).toList
  else none

/-- The rows from `first` to before `last`. -/
def rowsBetween? (m : Csr α) (first last : Nat) : Option (List (List (Nat × α))) :=
  if first < last ∧ m.rowPtr.size ≤ last then none
  else (List.range' first (last - first)).mapM m.row?

def rows? (m : Csr α) : Option (List (List (Nat × α))) := m.rowsBetween? 0 m.nRows

/-- Rows and entries that the text of a matrix shows. -/
def shownRows : Nat := 5

def shownEntries : Nat := 5

def rowText (value : α → String) (i : Nat) (row : List (Nat × α)) : String :=
  let entry := fun (col, v) => "(" ++ toString col ++ ", " ++ value v ++ ") "
  let more := row.length - shownEntries
  "    row " ++ toString i ++ ": "
    ++ (if row.isEmpty then "(empty)" else String.join ((row.take shownEntries).map entry))
    ++ (if more = 0 then "" else "... (" ++ toString more ++ " more)") ++ "\n"

/-- The first rows of a matrix, with the first entries of each. -/
def text? (value : α → String) (m : Csr α) : Option String := do
  let shown := min shownRows m.nRows
  let rows ← m.rowsBetween? 0 shown
  let more := m.nRows - shown
  some ("SparseMatrixCSR \x7b\n  dimensions: " ++ toString m.nRows ++ " × " ++ toString m.nCols
    ++ "\n  nnz: " ++ toString m.count ++ "\n"
    ++ String.join (rows.zipIdx.map fun (row, i) => rowText value i row)
    ++ (if more = 0 then "" else "    ... (" ++ toString more ++ " more rows)\n") ++ "\x7d")

end Csr
end SparseStream
