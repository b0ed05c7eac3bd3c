import SparseStream.Header
import SparseStream.Shape

/-!
What can go wrong, by cause, and the wording of each cause. `Corruption` is what a reader of a
stream reports; `Error` covers every call that can be refused. A `Failure` is an error, or an access
outside of an array or of all memory, which ends the program without an answer.
-/
namespace SparseStream

/-- What a field of a stream holds. -/
inductive Field where
  | byte | fullColumn | packedDelta
  deriving DecidableEq, Repr

def Field.text : Field → String
  | byte => "a byte"
  | fullColumn => "a 32-bit column"
  | packedDelta => "a packed delta"

inductive StreamFault where
  | endsInVarint
  | varintTooWide
  | endsInField (field : Field)
  | unknownFlag (flag : Nat)
  | emptyUnit
  | rowOverflow (jump : Nat)
  | jumpWithoutRow
  | columnOverflow (col step : Nat)
  deriving DecidableEq, Repr

def StreamFault.text : StreamFault → String
  | endsInVarint => "unexpected end of stream inside a varint"
  | varintTooWide => "varint does not fit in 64 bits"
  | endsInField field => "unexpected end of stream reading " ++ field.text
  | unknownFlag flag => "flag " ++ toString flag ++ " is not in the pattern table"
  | emptyUnit => "unit of size 0"
  | rowOverflow jump => "row jump of " ++ toString jump ++ " overflows"
  | jumpWithoutRow => "row jump without a new row"
  | columnOverflow col step => "column " ++ toString col ++ " + " ++ toString step ++ " overflows"

/-- Bytes that break the rules of the stream, from an offset on. -/
structure Corruption where
  offset : Nat
  fault : StreamFault
  deriving DecidableEq, Repr

/-- Why a pattern is not acceptable, by itself or where it stands. -/
inductive PatternFault where
  | blockOrder (order : Order)
  | zeroStride
  | noElements
  | lineOrder (order : Order)
  | dimension (dim : Nat)
  | noLines
  | valueCountInRow (row col size values : Nat)
  | valueCount (row col size values : Nat)
  | pastFirstColumn (row col : Nat)
  | outside (row col cellRow cellCol : Nat)
  | leavesRange (shape : Shape) (row col : Nat)
  deriving DecidableEq, Repr

/-- The largest dimension that a block order may fix. -/
def maxBlockDim : Nat := 8

/-- A cell in brackets. -/
def cellText (row col : Nat) : String := "(" ++ toString row ++ ", " ++ toString col ++ ")"

def PatternFault.text : PatternFault → String
  | blockOrder order => order.text ++ " is a block order, not a simple one"
  | zeroStride => "stride must be positive"
  | noElements => "pattern must not be empty"
  | lineOrder order => order.text ++ " is not a block order"
  | dimension dim => "block dimension " ++ toString dim ++ " outside 1..=" ++ toString maxBlockDim
  | noLines => "block must span at least one line"
  | valueCountInRow row col size values =>
    "row " ++ toString row ++ ": pattern at column " ++ toString col ++ " covers " ++ toString size
      ++ " elements but carries " ++ toString values ++ " values"
  | valueCount row col size values =>
    "pattern at " ++ cellText row col ++ " covers " ++ toString size
      ++ " elements but carries " ++ toString values ++ " values"
  | pastFirstColumn row col => "pattern at " ++ cellText row col ++ " runs past column 0"
  | outside row col cellRow cellCol =>
    "pattern at " ++ cellText row col ++ " reaches " ++ cellText cellRow cellCol
      ++ " outside the partition"
  | leavesRange shape row col =>
    shape.text ++ " anchored at " ++ cellText row col ++ " leaves the index range"

/-- Why a matrix, a partition or a vector does not fit its use. -/
inductive MatrixFault where
  | rowPointerCount (count wanted : Nat)
  | columnCount (cols values : Nat)
  | rowPointerEnds
  | rowPointerOrder (row : Nat)
  | columnBound (col nCols : Nat)
  | columnOrder (row : Nat)
  | entryBound (row col nRows nCols : Nat)
  | rowRange (first last nRows : Nat)
  | notSquare (nRows nCols : Nat)
  | repeatedColumn (row col previous : Nat)
  | elementBound (row col nCols : Nat)
  | diagonalCount (entries rows : Nat)
  | notBelowDiagonal (row cellRow cellCol : Nat)
  | decodedOutside (row col nRows nCols : Nat)
  | vectorLength (length nCols : Nat)
  | vectorLengths (x y n : Nat)
  | partStart (start expected : Nat)
  deriving DecidableEq, Repr

/-- Two dimensions, or a shape in words. -/
def dimsText (nRows nCols : Nat) : String := toString nRows ++ " x " ++ toString nCols

def MatrixFault.text : MatrixFault → String
  | rowPointerCount count wanted =>
    "row_ptr.len() must be n_rows + 1 (" ++ toString count ++ " != " ++ toString wanted ++ ")"
  | columnCount cols values =>
    "col_idx.len() must equal values.len() (" ++ toString cols ++ " != " ++ toString values ++ ")"
  | rowPointerEnds => "row_ptr must start at 0 and end at nnz"
  | rowPointerOrder row => "row_ptr is not monotone at row " ++ toString row
  | columnBound col nCols =>
    "column index " ++ toString col ++ " out of bounds (n_cols = " ++ toString nCols ++ ")"
  | columnOrder row => "columns of row " ++ toString row ++ " are not strictly increasing"
  | entryBound row col nRows nCols =>
    "entry " ++ cellText row col ++ " out of bounds for a " ++ dimsText nRows nCols ++ " matrix"
  | rowRange first last nRows =>
    "row range " ++ toString first ++ ".." ++ toString last ++ " outside a matrix of "
      ++ toString nRows ++ " rows"
  | notSquare nRows nCols =>
    "symmetric encoding needs a square matrix, got " ++ dimsText nRows nCols
  | repeatedColumn row col previous =>
    "row " ++ toString row ++ ": column " ++ toString col ++ " does not follow column Some("
      ++ toString previous ++ ")"
  | elementBound row col nCols =>
    "row " ++ toString row ++ ": column " ++ toString col ++ " out of bounds (n_cols = "
      ++ toString nCols ++ ")"
  | diagonalCount entries rows =>
    "diagonal has " ++ toString entries ++ " entries for " ++ toString rows ++ " rows"
  | notBelowDiagonal row cellRow cellCol =>
    "row " ++ toString row ++ ": entry " ++ cellText cellRow cellCol
      ++ " is not strictly below the diagonal"
  | decodedOutside row col nRows nCols =>
    "decoded element " ++ cellText row col ++ " outside a " ++ dimsText nRows nCols ++ " partition"
  | vectorLength length nCols =>
    "vector of length " ++ toString length ++ " for " ++ toString nCols ++ " columns"
  | vectorLengths x y n =>
    "vectors of length " ++ toString x ++ " and " ++ toString y ++ " for a " ++ dimsText n n
      ++ " matrix"
  | partStart start expected =>
    "partition starts at row " ++ toString start ++ " instead of " ++ toString expected

/-- Why a matrix file cannot be read. `notReal` names the entries that it says it holds. -/
inductive FileFault where
  | missing
  | denied
  | notDirectory
  | directory
  | nameTooLong
  | notText
  | malformed
  | notReal (entries : String)
  deriving DecidableEq, Repr

def FileFault.text : FileFault → String
  | missing => "No such file or directory (os error 2)"
  | denied => "Permission denied (os error 13)"
  | notDirectory => "Not a directory (os error 20)"
  | directory => "Is a directory (os error 21)"
  | nameTooLong => "File name too long (os error 36)"
  | notText => "stream did not contain valid UTF-8"
  | malformed => "Bad matrix market file."
  | notReal entries => "Tried to load " ++ entries ++ " file into real matrix."

inductive Error where
  | tooManyKinds
  | unitTooLong (size : Nat)
  | allocation (bytes : Nat)
  | valueCount (expected actual : Nat)
  | pattern (fault : PatternFault)
  | behindCursor (row col cursor : Nat)
  | columnTooWide (col : Nat)
  | matrix (fault : MatrixFault)
  | setting (key shown : String)
  | corrupted (corruption : Corruption)
  | matrixFile (fault : FileFault)
  deriving DecidableEq, Repr

def Error.message : Error → String
  | tooManyKinds =>
    "too many patterns: at most " ++ toString Header.maxFlag
      ++ " distinct unit kinds fit in the ctl flags"
  | unitTooLong size =>
    "unit of " ++ toString size ++ " elements exceeds the ctl size limit of "
      ++ toString Header.maxSize
  | allocation bytes =>
    "allocation failed: could not allocate " ++ toString bytes ++ " bytes"
  | valueCount expected actual =>
    "consistency violation: wrote " ++ toString actual ++ " values, expected " ++ toString expected
  | pattern fault => "invalid pattern: " ++ fault.text
  | behindCursor row col cursor =>
    "row " ++ toString row ++ ": column " ++ toString col
      ++ " lies behind the column cursor at " ++ toString cursor
  | columnTooWide col =>
    "column " ++ toString col ++ " does not fit in a 32-bit full column index"
  | matrix fault => "invalid matrix: " ++ fault.text
  | setting key shown => "invalid configuration value for " ++ key ++ ": " ++ shown
  | corrupted c =>
    "corrupted ctl stream at byte " ++ toString c.offset ++ ": " ++ c.fault.text
  | matrixFile fault => "matrix market input: " ++ fault.text

/-- Why a call gives no answer. -/
inductive Failure where
  | error (e : Error)
  | outOfBounds
  deriving DecidableEq, Repr

instance : MonadLift (Except Corruption) (Except Error) where
  monadLift x := x.mapError .corrupted

instance : MonadLift (Except Error) (Except Failure) where
  monadLift x := x.mapError .error

/-- A sequence of two steps succeeds when both do. -/
theorem bind_eq_ok {x : Except ε α} {f : α → Except ε β} {b : β} :
    x >>= f = .ok b ↔ ∃ a, x = .ok a ∧ f a = .ok b := by
  cases x <;> simp [bind, Except.bind]

/-- A check in front of a step refuses, or leaves it to the step. -/
theorem refuse_eq_ok {c : Prop} [Decidable c] {failure : ε} {next : Except ε β} {b : β} :
    (do if c then throw failure
        next) = .ok b ↔ ¬c ∧ next = .ok b := by
  by_cases holds : c <;> simp [holds, throw, throwThe, MonadExceptOf.throw, bind, Except.bind]

theorem exists_ok_of_isOk {x : Except ε α} (succeeds : x.isOk = true) : ∃ a, x = .ok a := by
  cases x with
  | error failure => contradiction
  | ok a => exact ⟨a, rfl⟩

/-- An access that must succeed for the program to go on. -/
def access (x : Option α) : Except Failure α := x.elim (.error .outOfBounds) .ok

end SparseStream
