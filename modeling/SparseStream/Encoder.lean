import SparseStream.Buffer
import SparseStream.Event
import SparseStream.Pattern
import SparseStream.Registry

/-!
The row encoder. Rows come one after another; plain columns are held back and written together as a
run, a pattern is written at once. A unit leaves the column cursor at the last element it covers on
the row, and the first unit of a row carries the advance over the empty rows before it.

Each write and each value taken asks for memory first. The answers stand in the encoder: whoever
makes one says how its coming requests are answered, and all of them are met unless it says so.

A step that is refused leaves an encoder behind which may have written half a unit, marked a row
without its jump, or turned part of its pending columns into differences; it can be used further.
-/
namespace SparseStream

/-- How the column of a unit is stored: as a jump from the column cursor, or in full. -/
inductive ColumnMode where
  | jump | full
  deriving DecidableEq, Repr

structure Encoder (α : Type) where
  mode : ColumnMode
  buffer : Buffer := {}
  values : Array α := #[]
  registry : Registry := {}
  /-- Columns of the run not yet written. -/
  pending : List Nat := []
  cursor : Nat := 0
  /-- The next unit starts a row. Not set for the first row of all. -/
  newRow : Bool := false
  emptyRows : Nat := 0
  row : Nat := 0
  events : Array Event := #[]
  /-- Bytes that a value takes. -/
  valueBytes : Nat := 8
  /-- The answers to the next requests for memory. Those after them are met. -/
  answers : List Bool := []

/-- A refused step, and the encoder that it left. -/
structure Stopped (α : Type) where
  error : Error
  left : Encoder α

/-- Turns the columns after `previous` into differences, the last column first. It stops at a
column below its predecessor; that column and those before it stay as they are. -/
def differences (previous : Nat) : List Nat → List Nat × Option (Nat × Nat)
  | [] => ([], none)
  | col :: rest =>
    match differences col rest with
    | (steps, some fault) => (col :: steps, some fault)
    | (steps, none) =>
      if col < previous then (col :: steps, some (col, previous))
      else ((col - previous) :: steps, none)

namespace Encoder

def note (e : Encoder α) (event : Event) : Encoder α := { e with events := e.events.push event }

def stop (e : Encoder α) (error : Error) : Except (Stopped α) β := .error ⟨error, e⟩

/-- Asks for memory for an array of some bytes, what it holds already included. -/
def request (e : Encoder α) (bytes : Nat) : Except (Stopped α) (Encoder α) :=
  let met := e.answers.headD true
  let e := { e with answers := e.answers.tail }
  if met then .ok e else e.stop (.allocation bytes)

/-- Changes the buffer by a write of `n` bytes, if there is room for them. -/
def write (e : Encoder α) (n : Nat) (put : Buffer → Buffer) : Except (Stopped α) (Encoder α) := do
  let e ← e.request (min (e.buffer.size + n) (wordLimit - 1))
  return { e with buffer := put e.buffer }

/-- Takes values, if there is room for them. -/
def keep (e : Encoder α) (more : List α) : Except (Stopped α) (Encoder α) := do
  let e ← e.request ((e.values.size + more.length) * e.valueBytes)
  return { e with values := e.values ++ more }

/-- An encoder all of whose requests are met. -/
def Met (e : Encoder α) : Prop := e.answers = []

theorem request_of_met {e : Encoder α} (met : e.Met) (bytes : Nat) : e.request bytes = .ok e := by
  rcases e with ⟨⟩
  cases met
  rfl

theorem write_of_met {e : Encoder α} (met : e.Met) (n : Nat) (put : Buffer → Buffer) :
    e.write n put = .ok { e with buffer := put e.buffer } := by
  rw [write, request_of_met met]
  rfl

theorem keep_of_met {e : Encoder α} (met : e.Met) (more : List α) :
    e.keep more = .ok { e with values := e.values ++ more } := by
  rw [keep, request_of_met met]
  rfl

/-- A unit covers at most `Header.maxSize` elements. -/
def checkSize (e : Encoder α) (size : Nat) : Except (Stopped α) Unit :=
  if Header.maxSize < size then e.stop (.unitTooLong size) else .ok ()

/-- No unit starts behind the cursor. -/
def checkColumn (e : Encoder α) (col : Nat) : Except (Stopped α) Unit :=
  if col < e.cursor then e.stop (.behindCursor e.row col e.cursor) else .ok ()

/-- Marks the header at an offset as the start of a row, if one is due. Both of its bits are set
before there is room for the jump. -/
def startRow (e : Encoder α) (offset : Nat) : Except (Stopped α) (Encoder α) :=
  if !e.newRow then .ok e
  else
    let e := { e with buffer := e.buffer.setBit offset Header.rowBit, newRow := false }
    if e.emptyRows = 0 then .ok e
    else do
      let jump := e.emptyRows + 1
      let e := { e with buffer := e.buffer.setBit offset Header.jumpBit }
      let e ← e.write (Varint.length jump) (·.varint jump)
      return { e with emptyRows := 0 }

/-- Writes the column of a unit. -/
def putColumn (e : Encoder α) (col : Nat) : Except (Stopped α) (Encoder α) :=
  match e.mode with
  | .jump =>
    let jump := col - e.cursor
    e.write (Varint.length jump) (·.varint jump)
  | .full =>
    if fullColumnLimit ≤ col then e.stop (.columnTooWide col) else e.write 4 (·.fullColumn col)

/-- Writes a unit up to its column: a flag for its kind, the header, the row advance. -/
def openUnit (e : Encoder α) (kind : Kind) (size col : Nat) :
    Except (Stopped α) (Nat × Encoder α) :=
  match e.registry.assign kind size with
  | .error error => e.stop error
  | .ok (flag, registry) => do
    let offset := e.buffer.size
    let e ← write { e with registry := registry } 2 (·.header flag size)
    let e ← e.startRow offset
    let e ← e.putColumn col
    return (flag, e)

/-- Packs the differences of a run. A run of one column has none. -/
def putDifferences (e : Encoder α) (width : Width) (steps : List Nat) :
    Except (Stopped α) (Encoder α) :=
  if steps.isEmpty then .ok e else e.write (width.bytes * steps.length) (·.packed width steps)

theorem putDifferences_cons (e : Encoder α) (width : Width) (step : Nat) (steps : List Nat) :
    e.putDifferences width (step :: steps)
      = e.write (width.bytes * (step :: steps).length) (·.packed width (step :: steps)) := rfl

/-- Writes the pending columns as one run. -/
def flush (e : Encoder α) : Except (Stopped α) (Encoder α) :=
  match e.pending with
  | [] => .ok e
  | first :: rest => do
    let size := rest.length + 1
    e.checkSize size
    e.checkColumn first
    let jump := first - e.cursor
    match differences first rest with
    | (steps, some (col, previous)) =>
      stop { e with pending := first :: steps } (.behindCursor e.row col previous)
    | (steps, none) =>
      let width := Width.classify (steps.foldl max 0)
      let kind := Kind.run width
      let (flag, e) ← openUnit { e with pending := first :: steps } kind size first
      let e ← e.putDifferences width steps
      let e := e.note (.unit kind flag size first jump)
      return { e with cursor := rest.getLastD first, pending := [] }

/-- Writes a pattern as one unit. -/
def putPattern (e : Encoder α) (col : Nat) (p : Pattern) : Except (Stopped α) (Encoder α) := do
  e.checkSize p.size
  e.checkColumn col
  let jump := col - e.cursor
  let kind := Kind.pattern p.shape
  let (flag, e) ← e.openUnit kind p.size col
  let e := e.note (.unit kind flag p.size col jump)
  return { e with cursor := col + p.shape.advance p.size }

/-- Takes one element of a row. A run that is full is written before it grows. -/
def element (e : Encoder α) : Element α → Except (Stopped α) (Encoder α)
  | .plain col value => do
    let e ← if e.pending.length = Header.maxSize then e.flush else .ok e
    keep { e with pending := e.pending ++ [col] } [value]
  | .pattern col p values => do
    let e ← e.flush
    if values.length ≠ p.size then
      e.stop (.pattern (.valueCountInRow e.row col p.size values.length))
    else
      let e ← e.putPattern col p
      e.keep values

def elements (e : Encoder α) (row : List (Element α)) : Except (Stopped α) (Encoder α) :=
  row.foldlM element e

def endRow (e : Encoder α) : Encoder α := { e with newRow := true, row := e.row + 1 }

/-- A row without elements. The next unit accounts for it. -/
def skipRow (e : Encoder α) : Encoder α :=
  let e := e.note (.emptyRow e.row)
  let e := if e.newRow then { e with emptyRows := e.emptyRows + 1 } else { e with newRow := true }
  { e with row := e.row + 1 }

/-- A row with elements. -/
def putRow (e : Encoder α) (row : List (Element α)) : Except (Stopped α) (Encoder α) := do
  let e := e.note (.row e.row row.length false)
  let e ← elements { e with cursor := 0 } row
  return (← e.flush).endRow

/-- A row of a symmetric partition. The elements before the diagonal block, which starts at column
`rowStart`, share no run with those inside of it; the cursor runs on. -/
def putSymmetricRow (e : Encoder α) (row : List (Element α)) (rowStart : Nat) :
    Except (Stopped α) (Encoder α) := do
  let e := e.note (.row e.row row.length true)
  let n := splitPoint (fun x : Element α => x.col < rowStart) row
  let e ← elements { e with cursor := 0 } (row.take n)
  let e ← e.flush
  let e ← e.elements (row.drop n)
  return (← e.flush).endRow

end Encoder
end SparseStream
