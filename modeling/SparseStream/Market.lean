import SparseStream.Compressed
import SparseStream.Text.Blank
import SparseStream.Text.Number

/-!
Matrix files in coordinate form. A header names the symmetry, comments may follow it, then come the
size and one entry per line, with places counted from one. Symmetric files hold one of two opposite
entries; the other is filled in, with its sign turned in a skew-symmetric file.
-/
namespace SparseStream.Market

inductive Symmetry where
  | general | symmetric | skew | hermitian
  deriving DecidableEq, Repr

def start : String := "%%matrixmarket matrix coordinate"

/-- Small letters for large ones. -/
def lower (c : Char) : Char := if c = '\u212a' then 'k' else c.toLower

/-- Whether a word occurs anywhere in a header. -/
def mentions : List Char → String → Bool
  | [], word => word.isEmpty
  | c :: rest, word => word.toList.isPrefixOf (c :: rest) || mentions rest word

/-- What a header says of the entries. The first words that it mentions count. -/
def parseHeader (line : List Char) : Except FileFault Symmetry :=
  let header := line.map lower
  if !start.toList.isPrefixOf header then .error .malformed
  else
    let entries? := ["real", "integer", "complex", "pattern"].find? (mentions header)
    let symmetry? : Option Symmetry :=
      if mentions header "general" then some .general
      else if mentions header "skew-symmetric" then some .skew
      else if mentions header "symmetric" then some .symmetric
      else if mentions header "hermitian" then some .hermitian
      else none
    match entries?, symmetry? with
    | some "real", some s => .ok s
    | some entries, some _ => .error (.notReal entries)
    | _, _ => .error .malformed

/-- The bytes up to the next line feed, with it, and the bytes after them. -/
def cutLine (bytes : List UInt8) : List UInt8 × List UInt8 :=
  let line := bytes.takeWhile (· ≠ 10)
  match bytes.dropWhile (· ≠ 10) with
  | [] => (line, [])
  | feed :: rest => (line ++ [feed], rest)

theorem cutLine_append (bytes : List UInt8) :
    (cutLine bytes).1 ++ (cutLine bytes).2 = bytes := by
  have whole := List.takeWhile_append_dropWhile (p := (· ≠ 10)) (l := bytes)
  simp only [cutLine]
  split
  · next found => rwa [found] at whole
  · next found =>
    rw [found] at whole
    rw [List.append_assoc]
    exact whole

theorem length_cutLine_lt {bytes : List UInt8} (h : bytes ≠ []) :
    (cutLine bytes).2.length < bytes.length := by
  have whole := congrArg List.length (cutLine_append bytes)
  rw [List.length_append] at whole
  have : 0 < (cutLine bytes).1.length := by
    simp only [cutLine]
    split
    · next found =>
      have := List.takeWhile_append_dropWhile (p := (· ≠ 10)) (l := bytes)
      rw [found, List.append_nil] at this
      rw [this]
      exact List.length_pos_iff.2 h
    · rw [List.length_append]
      exact Nat.lt_add_left _ Nat.zero_lt_one
  omega

/-- The next line and the bytes after it; no characters when there is no line. -/
def nextLine (bytes : List UInt8) : Except FileFault (List Char × List UInt8) :=
  if bytes.isEmpty then .ok ([], [])
  else
    let cut := cutLine bytes
    match String.fromUTF8? ⟨cut.1.toArray⟩ with
    | some text => .ok (text.toList, cut.2)
    | none => .error .notText

theorem length_lt_of_nextLine {bytes rest : List UInt8} {c : Char} {line : List Char}
    (h : nextLine bytes = .ok (c :: line, rest)) : rest.length < bytes.length := by
  simp only [nextLine] at h
  split at h
  · cases h
  · next some =>
    have shorter : (cutLine bytes).2.length < bytes.length :=
      length_cutLine_lt (by rintro rfl; exact some rfl)
    split at h
    · simp only [Except.ok.injEq, Prod.mk.injEq] at h
      rwa [h.2] at shorter
    · cases h

/-- The first line that `skip` does not pass over. There are no characters when it passes over all
lines. -/
def skipLines (skip : List Char → Bool) (bytes : List UInt8) :
    Except FileFault (List Char × List UInt8) :=
  match _h : nextLine bytes with
  | .error fault => .error fault
  | .ok ([], rest) => .ok ([], rest)
  | .ok (c :: line, rest) =>
    if skip (c :: line) then skipLines skip rest else .ok (c :: line, rest)
termination_by bytes.length
decreasing_by exact length_lt_of_nextLine _h

/-- A line between the header and the size. -/
def isComment (line : List Char) : Bool := line.head? = some '%'

/-- Rows, columns and entries; what is no number on that line is passed over. -/
def parseSize (line : List Char) : Except FileFault (Nat × Nat × Nat) :=
  match (Text.words line).filterMap Text.word? with
  | [rows, cols, entries] => .ok (rows, cols, entries)
  | _ => .error .malformed

/-- A place counted from one. -/
def place? (word : List Char) : Option Nat := do
  let n ← Text.word? word
  if n = 0 then none else some (n - 1)

/-- Row, column and value. -/
def parseEntry (line : List Char) : Except FileFault (Triplet Float) :=
  match Text.words line with
  | [row, col, value] =>
    match place? row, place? col, Text.float? value with
    | some r, some c, some v => .ok ((r, c), v)
    | _, _, _ => .error .malformed
  | _ => .error .malformed

/-- An entry with the opposite one. A skew-symmetric matrix has no diagonal, and hermitian entries
are complex off the diagonal, so a real file has none there. -/
def expand (s : Symmetry) (t : Triplet Float) : Except FileFault (List (Triplet Float)) :=
  let ((r, c), v) := t
  match s with
  | .general => .ok [t]
  | .symmetric => .ok (if r = c then [t] else [t, ((c, r), v)])
  | .skew => if r = c then .error .malformed else .ok [t, ((c, r), -v)]
  | .hermitian => if r = c then .ok [t] else .error .malformed

def parseEntries (s : Symmetry) : Nat → List UInt8 → Except FileFault (List (Triplet Float))
  | 0, _ => .ok []
  | n + 1, bytes => do
    let (line, rest) ← skipLines (·.all Text.isBlank) bytes
    let here ← expand s (← parseEntry line)
    return here ++ (← parseEntries s n rest)

/-- What comes before the entries. -/
structure Heading where
  symmetry : Symmetry
  nRows : Nat
  nCols : Nat
  /-- Entries that follow. -/
  entries : Nat
  deriving Repr

/-- How many entries the matrix may have at most. -/
def Heading.room (h : Heading) : Nat :=
  if h.symmetry = .general then h.entries else 2 * h.entries

def parseHeading (bytes : List UInt8) : Except FileFault (Heading × List UInt8) := do
  let (line, rest) ← nextLine bytes
  let symmetry ← parseHeader line
  let (line, rest) ← skipLines isComment rest
  let (rows, cols, entries) ← parseSize line
  return (⟨symmetry, rows, cols, entries⟩, rest)

/-- The matrix that a file holds, given what opening the file gave. Room for all entries is made
before the first one is read. An entry outside of the shape ends it. -/
def read (file : Except FileFault (List UInt8)) : Except Failure (Csr Float) := do
  let heading := (file >>= parseHeading).mapError Error.matrixFile
  let (h, rest) ← (heading : Except Error _)
  reserve h.room wordBytes
  let entries := (parseEntries h.symmetry h.entries rest).mapError Error.matrixFile
  let m ← MatrixLibrary.plain.ofTriplets h.nRows h.nCols (← (entries : Except Error _))
  m.toCsr

end SparseStream.Market
