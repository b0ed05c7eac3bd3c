import SparseStream.Encoder
import SparseStream.Reader

/-!
Units of a stream. `units` reads a stream unit by unit and stops at the first bytes that break the
rules; `StreamUnit.cells` are the cells that a unit covers, in value order.
-/
namespace SparseStream

/-- One unit as it was read. Rows are counted from the first row of the partition. -/
structure StreamUnit where
  offset : Nat
  flag : Nat
  kind : Kind
  size : Nat
  newRow : Bool
  rowJump : Option Nat
  row : Nat
  col : Nat
  deltas : List Nat
  deriving DecidableEq, Repr

/-- A column moved on by `step`, as long as it stays a word. -/
def advanceColumn (offset col step : Nat) : Except Corruption Nat :=
  if col + step < wordLimit then .ok (col + step) else .error ⟨offset, .columnOverflow col step⟩

namespace StreamUnit

/-- The columns of a run from `col` on, for the differences between them. -/
def runColumns (offset col : Nat) : List Nat → Except Corruption (List Nat)
  | [] => .ok [col]
  | d :: rest => do
    let next ← advanceColumn offset col d
    return col :: (← runColumns offset next rest)

/-- Cell `i` of a pattern. It has to lie within the range of rows and columns. -/
def patternCell (u : StreamUnit) (shape : Shape) (i : Nat) : Except Failure Cell := do
  let (down, right) ← access (shape.offset? i)
  match moveColumn? u.col right with
  | some c =>
    if u.row + down < wordLimit then return (u.row + down, c)
    else throw (.error (.pattern (.leavesRange shape u.row u.col)))
  | none => throw (.error (.pattern (.leavesRange shape u.row u.col)))

def cells (u : StreamUnit) : Except Failure (List Cell) :=
  match u.kind with
  | .run _ => do
    let cols ← ((runColumns u.offset u.col u.deltas : Except Corruption _) : Except Error _)
    return cols.map (u.row, ·)
  | .pattern shape => (List.range u.size).mapM (u.patternCell shape)

end StreamUnit

/-- What carries over from one unit to the next. -/
structure Position where
  row : Nat := 0
  cursor : Nat := 0
  deriving DecidableEq, Repr

/-- Reads `n` differences, keeping track of the column they lead to. -/
def readDeltas (offset : Nat) (w : Width) : Nat → Nat → Reader →
    Except Corruption (List Nat × Nat × Reader)
  | 0, col, r => .ok ([], col, r)
  | n + 1, col, r => do
    let (d, r) ← r.packed w
    let next ← advanceColumn offset col d
    let (ds, last, r) ← readDeltas offset w n next r
    return (d :: ds, last, r)

def advanceRow (offset row jump : Nat) : Except Corruption Nat :=
  if row + jump < wordLimit then .ok (row + jump) else .error ⟨offset, .rowOverflow jump⟩

/-- The row jump of a unit that carries one. -/
def readJump (flags : UInt8) (r : Reader) : Except Corruption (Option Nat × Reader) :=
  if Header.hasJump flags then do
    let (jump, r) ← r.varint
    return (some jump, r)
  else .ok (none, r)

/-- The row of a unit: the row before, unless the unit starts a row. Without a jump that is the
next row. -/
def readRow (flags : UInt8) (offset row : Nat) (r : Reader) :
    Except Corruption (Option Nat × Nat × Reader) :=
  if Header.startsRow flags then do
    let (jump, r) ← readJump flags r
    let row ← advanceRow offset row (jump.getD 1)
    return (jump, row, r)
  else if Header.hasJump flags then .error ⟨offset, .jumpWithoutRow⟩
  else .ok (none, row, r)

def readColumn (mode : ColumnMode) (offset cursor : Nat) (r : Reader) :
    Except Corruption (Nat × Reader) :=
  match mode with
  | .full => r.fullColumn
  | .jump => do
    let (jump, r) ← r.varint
    return (← advanceColumn offset cursor jump, r)

/-- The kind of a unit with this header. -/
def readKind (table : KindTable) (offset : Nat) (flags size : UInt8) : Except Corruption Kind :=
  match table.kind? (Header.flag flags) with
  | none => .error ⟨offset, .unknownFlag (Header.flag flags)⟩
  | some kind => if size = 0 then .error ⟨offset, .emptyUnit⟩ else .ok kind

/-- What follows the column of a unit, and the cursor after the unit. -/
def readPayload (kind : Kind) (offset size col : Nat) (r : Reader) :
    Except Corruption (List Nat × Nat × Reader) :=
  match kind with
  | .run w => readDeltas offset w (size - 1) col r
  | .pattern shape => do
    let cursor ← advanceColumn offset col (shape.advance size)
    return ([], cursor, r)

/-- Reads one unit, and says where the next one starts from. A new row starts with the cursor at
column zero. -/
def readUnit (table : KindTable) (mode : ColumnMode) (here : Position) (r : Reader) :
    Except Corruption (StreamUnit × Position × Reader) := do
  let offset := r.offset
  let (flags, r) ← r.byte
  let (size, r) ← r.byte
  let kind ← readKind table offset flags size
  let (rowJump, row, r) ← readRow flags offset here.row r
  let newRow := Header.startsRow flags
  let (col, r) ← readColumn mode offset (if newRow then 0 else here.cursor) r
  let (deltas, cursor, r) ← readPayload kind offset size.toNat col r
  let flag := Header.flag flags
  let unit := ⟨offset, flag, kind, size.toNat, newRow, rowJump, row, col, deltas⟩
  return (unit, ⟨row, cursor⟩, r)

namespace Reader

theorem Left.trans {a b c : Reader} {m n : Nat} (h : a.Left b m) (h' : b.Left c n) :
    a.Left c (m + n) := by
  obtain ⟨h1, h2⟩ := h
  obtain ⟨h3, h4⟩ := h'
  exact ⟨by omega, by omega⟩

theorem left_of_readDeltas {offset n col last : Nat} {w : Width} {r r' : Reader} {ds : List Nat}
    (h : readDeltas offset w n col r = .ok (ds, last, r')) : r.Left r' (w.bytes * n) := by
  induction n generalizing col r ds with
  | zero =>
    simp only [readDeltas, Except.ok.injEq, Prod.mk.injEq] at h
    simp [Left, ← h.2.2]
  | succ n ih =>
    simp only [readDeltas, packed, bind_eq_ok, Prod.exists, pure, Except.pure, Except.ok.injEq,
      Prod.mk.injEq] at h
    obtain ⟨_, r₁, ⟨_, _, taken, -, rfl⟩, _, -, _, _, _, more, -, rfl, rfl⟩ := h
    have := (left_of_take taken).trans (ih more)
    rwa [Nat.add_comm, ← Nat.mul_succ] at this

theorem left_of_readRow {flags : UInt8} {offset row row' : Nat} {r r' : Reader} {jump : Option Nat}
    (h : readRow flags offset row r = .ok (jump, row', r')) : ∃ k, r.Left r' k := by
  have still : r.Left r 0 := ⟨rfl, rfl⟩
  unfold readRow at h
  split at h
  · simp only [bind_eq_ok, Prod.exists, pure, Except.pure, Except.ok.injEq, Prod.mk.injEq] at h
    obtain ⟨_, _, read, _, -, -, -, rfl⟩ := h
    unfold readJump at read
    split at read
    · simp only [bind_eq_ok, Prod.exists, pure, Except.pure, Except.ok.injEq, Prod.mk.injEq] at read
      obtain ⟨_, _, read, -, rfl⟩ := read
      obtain ⟨k, -, left⟩ := left_of_varint read
      exact ⟨k, left⟩
    · simp only [Except.ok.injEq, Prod.mk.injEq] at read
      exact ⟨0, read.2 ▸ still⟩
  · split at h
    · contradiction
    · simp only [Except.ok.injEq, Prod.mk.injEq] at h
      exact ⟨0, h.2.2 ▸ still⟩

theorem left_of_readColumn {mode : ColumnMode} {offset cursor col : Nat} {r r' : Reader}
    (h : readColumn mode offset cursor r = .ok (col, r')) : ∃ k, 0 < k ∧ r.Left r' k := by
  cases mode with
  | full =>
    simp only [readColumn, fullColumn, bind_eq_ok, Prod.exists, pure, Except.pure, Except.ok.injEq,
      Prod.mk.injEq] at h
    obtain ⟨_, _, taken, -, rfl⟩ := h
    exact ⟨4, by decide, left_of_take taken⟩
  | jump =>
    simp only [readColumn, bind_eq_ok, Prod.exists, pure, Except.pure, Except.ok.injEq,
      Prod.mk.injEq] at h
    obtain ⟨_, _, read, _, -, -, rfl⟩ := h
    exact left_of_varint read

/-- A unit takes three bytes at least: its header and its column. -/
theorem left_of_readUnit {table : KindTable} {mode : ColumnMode} {here next : Position}
    {u : StreamUnit} {r r' : Reader} (h : readUnit table mode here r = .ok (u, next, r')) :
    ∃ k, 3 ≤ k ∧ r.Left r' k := by
  simp only [readUnit, bind_eq_ok, Prod.exists, pure, Except.pure, Except.ok.injEq,
    Prod.mk.injEq] at h
  obtain ⟨_, _, flags, _, _, size, _, -, _, _, _, row, _, _, col, _, _, _, payload, -, -, rfl⟩ := h
  obtain ⟨k, left⟩ := left_of_readRow row
  obtain ⟨k', pos, left'⟩ := left_of_readColumn col
  have so := (((left_of_byte flags).trans (left_of_byte size)).trans left).trans left'
  unfold readPayload at payload
  split at payload
  · exact ⟨_, by omega, so.trans (left_of_readDeltas payload)⟩
  · simp only [bind_eq_ok, pure, Except.pure, Except.ok.injEq, Prod.mk.injEq] at payload
    obtain ⟨_, -, -, -, rfl⟩ := payload
    exact ⟨_, by omega, so⟩

end Reader

/-- The units from a reader on, and what ends them if that is not the end of the stream. -/
def unitsFrom (table : KindTable) (mode : ColumnMode) (here : Position) (r : Reader) :
    List StreamUnit × Option Corruption :=
  if r.atEnd then ([], none)
  else
    match _h : readUnit table mode here r with
    | .error c => ([], some c)
    | .ok (u, next, r') =>
      let (us, fault) := unitsFrom table mode next r'
      (u :: us, fault)
termination_by r.rest.length
decreasing_by
  obtain ⟨k, pos, left, -⟩ := Reader.left_of_readUnit ‹readUnit table mode here r = _›
  omega

/-- The units of a whole stream. -/
def units (table : KindTable) (mode : ColumnMode) (bytes : List UInt8) :
    List StreamUnit × Option Corruption :=
  unitsFrom table mode {} ⟨0, bytes⟩

end SparseStream
