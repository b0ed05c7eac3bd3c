import SparseStream.Proofs.Accepted
import SparseStream.Proofs.Flags

/-! The encoder writes layouts. What it has written is the layout of the pieces so far, and it
refuses a row with the refusal of the first piece that the layout refuses. -/
namespace SparseStream

namespace Piece

/-- The pieces that are complete once an element comes after the columns held back, and the columns
held back from then on. -/
def closedBy (held : List Nat) : Element α → List Piece
  | .plain _ _ => if held.length = Header.maxSize then [run held] else []
  | .pattern col p _ => runs held ++ [pattern col p]

def heldAfter (held : List Nat) : Element α → List Nat
  | .plain col _ => if held.length = Header.maxSize then [col] else held ++ [col]
  | .pattern _ _ _ => []

theorem ofRowAfter_step (held : List Nat) (x : Element α) (row : List (Element α)) :
    ofRowAfter held (x :: row) = closedBy held x ++ ofRowAfter (heldAfter held x) row := by
  cases x with
  | plain col value =>
    by_cases full : held.length = Header.maxSize
    · rw [ofRowAfter, ofRowAfter_append row full (List.cons_ne_nil _ _), closedBy, heldAfter,
        if_pos full, if_pos full, List.singleton_append]
    · rw [ofRowAfter, closedBy, heldAfter, if_neg full, if_neg full, List.nil_append]
  | pattern col p values =>
    rw [ofRowAfter, closedBy, heldAfter, List.append_assoc, List.singleton_append]

theorem length_heldAfter_le {held : List Nat} (x : Element α)
    (short : held.length ≤ Header.maxSize) : (heldAfter held x).length ≤ Header.maxSize := by
  cases x with
  | plain col value =>
    by_cases full : held.length = Header.maxSize
    · rw [heldAfter, if_pos full, List.length_singleton, Header.maxSize_eq]
      omega
    · rw [heldAfter, if_neg full, List.length_append, List.length_singleton]
      omega
  | pattern col p values => exact Nat.zero_le _

end Piece

namespace Encoder

open Layout

/-- An encoder that wrote the pieces before a row, holds some plain columns of that row back, and
has taken the given values. -/
structure Wrote (mode : ColumnMode) (before : List Placed) (row : Nat) (held : List Nat)
    (values : List α) (e : Encoder α) : Prop where
  sameMode : e.mode = mode
  stream : e.buffer.bytes.toList = bytes mode before
  registry : e.registry = ⟨entries before⟩
  onRow : e.row = row
  pending : e.pending = held
  taken : e.values.toList = values
  advance : if e.newRow then row = lastRow before + e.emptyRows + 1
    else row = lastRow before ∧ e.emptyRows = 0
  few : (kinds before).length ≤ Header.maxFlag
  met : e.Met

/-- An encoder in the middle of a row. -/
structure Holds (mode : ColumnMode) (before : List Placed) (row : Nat) (held : List Nat)
    (values : List α) (e : Encoder α) : Prop extends Wrote mode before row held values e where
  atCursor : e.cursor = Layout.cursor before row

/-- The outcome of a step that should write further pieces: it leaves an encoder as described, or
stops with the refusal of the first piece that is refused. -/
def Outcome (mode : ColumnMode) (before more : List Placed) (after : Encoder α → Prop) :
    Except (Stopped α) (Encoder α) → Prop
  | .ok e => firstRefusal? mode before more = none ∧ after e
  | .error stopped => firstRefusal? mode before more = some stopped.error

theorem Outcome.refused {mode : ColumnMode} {before : List Placed} {x : Placed}
    {after : Encoder α → Prop} {error : Error} {left : Encoder α}
    (refusal : refusal? mode before x = some error) :
    Outcome mode before [x] after (.error ⟨error, left⟩) := by
  simp [Outcome, firstRefusal?, refusal]

theorem Outcome.bind {mode : ColumnMode} {before xs ys : List Placed} {mid after : Encoder α → Prop}
    {step : Except (Stopped α) (Encoder α)} {next : Encoder α → Except (Stopped α) (Encoder α)}
    (first : Outcome mode before xs mid step)
    (more : ∀ e, mid e → Outcome mode (before ++ xs) ys after (next e)) :
    Outcome mode before (xs ++ ys) after (step >>= next) := by
  cases step with
  | error stopped =>
    have refused : firstRefusal? mode before xs = some stopped.error := first
    change firstRefusal? mode before (xs ++ ys) = some stopped.error
    rw [firstRefusal?_append, refused, Option.some_or]
  | ok e =>
    have rest := more e first.2
    change Outcome mode before (xs ++ ys) after (next e)
    cases outcome : next e with
    | error stopped =>
      rw [outcome] at rest
      simpa only [Outcome, firstRefusal?_append, first.1, Option.none_or] using rest
    | ok e' =>
      rw [outcome] at rest
      simpa only [Outcome, firstRefusal?_append, first.1, Option.none_or] using rest

/-- A step that is followed by one that writes no pieces and is never refused. -/
theorem Outcome.andThen {mode : ColumnMode} {before more : List Placed}
    {mid after : Encoder α → Prop} {step : Except (Stopped α) (Encoder α)}
    {next : Encoder α → Except (Stopped α) (Encoder α)} (first : Outcome mode before more mid step)
    (taken : ∀ e, mid e → ∃ e', next e = .ok e' ∧ after e') :
    Outcome mode before more after (step >>= next) := by
  cases step with
  | error stopped => exact first
  | ok e =>
    obtain ⟨e', done, holds⟩ := taken e first.2
    change Outcome mode before more after (next e)
    rw [done]
    exact ⟨first.1, holds⟩

/-- A step within a row. -/
abbrev Writes (mode : ColumnMode) (before more : List Placed) (row : Nat) (held : List Nat)
    (values : List α) : Except (Stopped α) (Encoder α) → Prop :=
  Outcome mode before more (Holds mode (before ++ more) row held values)

theorem Writes.bind {mode : ColumnMode} {before xs ys : List Placed} {row : Nat}
    {held held' : List Nat} {values values' : List α} {step : Except (Stopped α) (Encoder α)}
    {next : Encoder α → Except (Stopped α) (Encoder α)}
    (first : Writes mode before xs row held values step)
    (more : ∀ e, Holds mode (before ++ xs) row held values e →
      Writes mode (before ++ xs) ys row held' values' (next e)) :
    Writes mode before (xs ++ ys) row held' values' (step >>= next) := by
  unfold Writes at more ⊢
  rw [← List.append_assoc]
  exact Outcome.bind first more

/-- An encoder that wrote a unit up to its column. -/
structure Opened (mode : ColumnMode) (before : List Placed) (x : Placed) (held : List Nat)
    (values : List α) (e : Encoder α) : Prop where
  sameMode : e.mode = mode
  stream : e.buffer.bytes.toList ++ payload x = bytes mode (before ++ [x])
  registry : e.registry = ⟨entries (before ++ [x])⟩
  onRow : e.row = x.row
  pending : e.pending = held
  taken : e.values.toList = values
  newRow : e.newRow = false
  emptyRows : e.emptyRows = 0
  few : (kinds (before ++ [x])).length ≤ Header.maxFlag
  met : e.Met

/-- The header of a unit and its row jump, once the row is accounted for. -/
theorem startRow_eq {e : Encoder α} {before : List Placed} {x : Placed} {front : List UInt8}
    {size : UInt8} (met : e.Met) (small : flag before x < 64)
    (bytes : e.buffer.bytes.toList = front ++ [(flag before x).toUInt8, size])
    (advance : if e.newRow then x.row = lastRow before + e.emptyRows + 1
      else x.row = lastRow before ∧ e.emptyRows = 0) :
    ∃ buffer,
      e.startRow front.length
        = .ok { e with buffer := buffer, newRow := false, emptyRows := 0 } ∧
      buffer.bytes.toList = front
        ++ Header.flags (flag before x) (Layout.newRow before x) (rowJump before x).isSome :: size
        :: jumpBytes before x := by
  cases starts : e.newRow with
  | false =>
    simp only [starts, Bool.false_eq_true, ite_false] at advance
    have same : Layout.newRow before x = false := by simp [Layout.newRow, advance.1]
    have jump : rowJump before x = none := if_pos (by omega)
    refine ⟨e.buffer, ?_, ?_⟩
    · rcases e with ⟨⟩
      simp only at starts advance
      simp [startRow, starts, advance.2]
    · simpa [jumpBytes, jump, same, Header.flags] using bytes
  | true =>
    simp only [starts, ite_true] at advance
    have next : Layout.newRow before x = true := by
      simp only [Layout.newRow, decide_eq_true_eq]
      omega
    have marked := Buffer.toList_setBit Header.rowBit bytes
    rw [Header.or_rowBit small] at marked
    by_cases adjacent : e.emptyRows = 0
    · have jump : rowJump before x = none := if_pos (by omega)
      refine ⟨e.buffer.setBit front.length Header.rowBit, ?_, ?_⟩
      · simp [startRow, starts, adjacent]
      · simpa [jumpBytes, jump, next] using marked
    · have jump : rowJump before x = some (e.emptyRows + 1) := by
        rw [rowJump, if_neg (by omega)]
        exact congrArg some (by omega)
      have twice := Buffer.toList_setBit Header.jumpBit marked
      rw [Header.or_jumpBit small] at twice
      let both := (e.buffer.setBit front.length Header.rowBit).setBit front.length Header.jumpBit
      have room : ({ e with buffer := both, newRow := false } : Encoder α).Met := met
      refine ⟨both.varint (e.emptyRows + 1), ?_, ?_⟩
      · simp [startRow, starts, adjacent, both, write_of_met room]
      · simp [Buffer.varint, both, twice, jumpBytes, jump, next]

theorem putColumn_eq {mode : ColumnMode} {before : List Placed} {x : Placed} {e : Encoder α}
    (met : e.Met) (sameMode : e.mode = mode) (atCursor : e.cursor = Layout.cursor before x.row) :
    e.putColumn x.piece.col =
      if mode = .full ∧ fullColumnLimit ≤ x.piece.col then e.stop (.columnTooWide x.piece.col)
      else .ok { e with buffer := e.buffer.append (columnBytes mode before x) } := by
  cases mode with
  | jump => simp [putColumn, write_of_met met, sameMode, atCursor, columnBytes, Buffer.varint]
  | full => simp [putColumn, write_of_met met, sameMode, columnBytes, Buffer.fullColumn]

/-- The differences of a run are its payload; a run of one column has none. -/
theorem putDifferences_eq {e : Encoder α} (met : e.Met) (width : Width) (steps : List Nat) :
    e.putDifferences width steps = .ok { e with buffer := e.buffer.packed width steps } := by
  cases steps with
  | nil => simp [putDifferences, Buffer.packed, Buffer.append]
  | cons step steps => rw [putDifferences_cons, write_of_met met]

theorem openUnit_opens {mode : ColumnMode} {before : List Placed} {x : Placed} {held : List Nat}
    {values : List α} {e : Encoder α} (holds : Holds mode before x.row held values e) :
    match e.openUnit x.piece.kind x.piece.size x.piece.col with
    | .error stopped => openRefusal? mode before x.piece.kind x.piece.col = some stopped.error
    | .ok (_, e') => openRefusal? mode before x.piece.kind x.piece.col = none ∧
        Opened mode before x held values e' := by
  unfold openUnit
  rw [holds.registry, assign_entries]
  by_cases used : x.piece.kind ∉ kinds before ∧ Header.maxFlag ≤ (kinds before).length
  · simp only [if_pos used, openRefusal?, stop]
  · have room := not_used_up_iff.mp used
    have small := flag_lt holds.few room
    let counted : Encoder α := { e with registry := ⟨entries (before ++ [x])⟩ }
    let named : Encoder α :=
      { counted with buffer := e.buffer.header (flag before x) x.piece.size }
    have met : counted.Met := holds.met
    have written := write_of_met met 2 (·.header (flag before x) x.piece.size)
    have header : named.buffer.bytes.toList
        = e.buffer.bytes.toList ++ [(flag before x).toUInt8, x.piece.size.toUInt8] := by
      simp [named, Buffer.header]
    have place : e.buffer.size = e.buffer.bytes.toList.length := by simp [Buffer.size]
    obtain ⟨buffer, started, stream⟩ :=
      startRow_eq (e := named) holds.met small header holds.advance
    let ready : Encoder α := { named with buffer := buffer, newRow := false, emptyRows := 0 }
    have column := putColumn_eq (e := ready) holds.met holds.sameMode holds.atCursor
    simp only [if_neg used, openRefusal?, place, counted] at written ⊢
    rw [written]
    change match named.startRow e.buffer.bytes.toList.length >>= fun e' =>
        e'.putColumn x.piece.col >>= fun e' => pure (flag before x, e') with
      | .error stopped => _
      | .ok (_, e') => _
    rw [started]
    change match ready.putColumn x.piece.col >>= fun e' => pure (flag before x, e') with
      | .error stopped => _
      | .ok (_, e') => _
    rw [column]
    by_cases wide : mode = .full ∧ fullColumnLimit ≤ x.piece.col
    · simp only [if_pos wide]
      rfl
    · simp only [if_neg wide]
      refine ⟨trivial, holds.sameMode, ?_, rfl, holds.onRow, holds.pending, holds.taken, rfl, rfl,
        length_kinds_snoc_le holds.few room, holds.met⟩
      simp [ready, stream, bytes, bytesAfter, bytesAfter_append, unitBytes, holds.stream]

/-- A unit that passed its own checks is written unless it cannot be opened. -/
theorem writes_of_opened {mode : ColumnMode} {before : List Placed} {x : Placed}
    {held held' : List Nat} {values : List α} {e : Encoder α}
    (finish : Nat → Encoder α → Except (Stopped α) (Encoder α))
    (holds : Holds mode before x.row held values e) (short : x.piece.size ≤ Header.maxSize)
    (ahead : Layout.cursor before x.row ≤ x.piece.col) (ordered : x.piece.decrease? = none)
    (finished : ∀ n e', Opened mode before x held values e' →
      ∃ e'', finish n e' = .ok e'' ∧ Holds mode (before ++ [x]) x.row held' values e'') :
    Writes mode before [x] x.row held' values (do
      let (n, e') ← e.openUnit x.piece.kind x.piece.size x.piece.col
      finish n e') := by
  have refusal : firstRefusal? mode before [x]
      = openRefusal? mode before x.piece.kind x.piece.col := by
    simp [firstRefusal?, refusal?, Nat.not_lt_of_le short, Nat.not_lt_of_le ahead, ordered]
  have opens := openUnit_opens holds
  cases outcome : e.openUnit x.piece.kind x.piece.size x.piece.col with
  | error stopped =>
    rw [outcome] at opens
    exact refusal.trans opens
  | ok opened =>
    rw [outcome] at opens
    obtain ⟨e', done, written⟩ := finished _ _ opens.2
    change Writes mode before [x] x.row held' values (finish opened.1 opened.2)
    rw [done]
    exact ⟨refusal.trans opens.1, written⟩

/-- An opened unit is complete once its payload follows and the cursor is at its last column. -/
theorem Opened.close {mode : ColumnMode} {before : List Placed} {x : Placed} {held held' : List Nat}
    {values : List α} {e e' : Encoder α} (opened : Opened mode before x held values e)
    (stream : e'.buffer.bytes.toList = e.buffer.bytes.toList ++ payload x)
    (cursor : e'.cursor = x.piece.last) (pending : e'.pending = held')
    (kept : e'.mode = e.mode ∧ e'.registry = e.registry ∧ e'.row = e.row ∧ e'.values = e.values ∧
      e'.newRow = e.newRow ∧ e'.emptyRows = e.emptyRows ∧ e'.answers = e.answers) :
    Holds mode (before ++ [x]) x.row held' values e' := by
  obtain ⟨mode, registry, row, values, newRow, emptyRows, answers⟩ := kept
  constructor
  · constructor
    · exact mode.trans opened.sameMode
    · exact stream.trans opened.stream
    · exact registry.trans opened.registry
    · exact row.trans opened.onRow
    · exact pending
    · rw [values, opened.taken]
    · simp [newRow, opened.newRow, emptyRows, opened.emptyRows]
    · exact opened.few
    · exact answers.trans opened.met
  · simp [cursor]

/-- The checks that each unit passes before it is opened. -/
theorem writes_of_checked {mode : ColumnMode} {before : List Placed} {x : Placed}
    {held held' : List Nat} {values : List α} {e : Encoder α}
    {next : Except (Stopped α) (Encoder α)} (holds : Holds mode before x.row held values e)
    (written : x.piece.size ≤ Header.maxSize → Layout.cursor before x.row ≤ x.piece.col →
      Writes mode before [x] x.row held' values next) :
    Writes mode before [x] x.row held' values (do
      e.checkSize x.piece.size
      e.checkColumn x.piece.col
      next) := by
  by_cases long : Header.maxSize < x.piece.size
  · have refused : checkSize e x.piece.size = .error ⟨.unitTooLong x.piece.size, e⟩ := if_pos long
    rw [refused]
    exact .refused (by simp [refusal?, long])
  have short : checkSize e x.piece.size = .ok () := if_neg long
  rw [short]
  by_cases behind : x.piece.col < Layout.cursor before x.row
  · have refused : checkColumn e x.piece.col
        = .error ⟨.behindCursor x.row x.piece.col (Layout.cursor before x.row), e⟩ := by
      simp [checkColumn, holds.atCursor, holds.onRow, behind, stop]
    rw [refused]
    exact .refused (by simp [refusal?, long, behind])
  · have ahead : checkColumn e x.piece.col = .ok () := by
      simp [checkColumn, holds.atCursor, behind]
    rw [ahead]
    exact written (Nat.le_of_not_lt long) (Nat.le_of_not_lt behind)

theorem putPattern_writes {mode : ColumnMode} {before : List Placed} {row : Nat} {values : List α}
    {e : Encoder α} (holds : Holds mode before row [] values e) (col : Nat) (p : Pattern) :
    Writes mode before [⟨row, .pattern col p⟩] row [] values (e.putPattern col p) := by
  let finish (flag : Nat) (e' : Encoder α) : Except (Stopped α) (Encoder α) :=
    let noted := e'.note (.unit (.pattern p.shape) flag p.size col (col - e.cursor))
    return { noted with cursor := col + p.shape.advance p.size }
  apply writes_of_checked (x := ⟨row, .pattern col p⟩) holds
  intro short ahead
  apply writes_of_opened finish holds short ahead rfl
  intro n e' opened
  refine ⟨_, rfl, opened.close (List.append_nil _).symm rfl opened.pending ?_⟩
  exact ⟨rfl, rfl, rfl, rfl, rfl, rfl, rfl⟩

/-- Columns held back are written as one run, with their differences as its payload. -/
theorem flush_writes {mode : ColumnMode} {before : List Placed} {row : Nat} {held : List Nat}
    {values : List α} {e : Encoder α} (nonempty : held ≠ [])
    (holds : Holds mode before row held values e) :
    Writes mode before [⟨row, .run held⟩] row [] values e.flush := by
  unfold flush
  rw [holds.pending]
  cases held with
  | nil => contradiction
  | cons first rest =>
    apply writes_of_checked (x := ⟨row, .run (first :: rest)⟩) holds
    intro short ahead
    dsimp only
    rcases found : differences first rest with ⟨steps, fault⟩
    cases fault with
    | some fault =>
      have refused : refusal? mode before ⟨row, .run (first :: rest)⟩
          = some (.behindCursor row fault.1 fault.2) := by
        simp [refusal?, Nat.not_lt_of_le short, Nat.not_lt_of_le ahead, Piece.decrease?, found]
      exact .refused (holds.onRow ▸ refused)
    | none =>
      have ordered : (Piece.run (first :: rest)).decrease? = none := by
        simp [Piece.decrease?, found]
      have deltas : (Piece.run (first :: rest)).deltas = steps := by
        have same := (differences_ordered ordered).1
        rw [found] at same
        exact same.symm
      have turned : Holds mode before row (first :: steps) values
          { e with pending := first :: steps } :=
        ⟨{ holds.toWrote with pending := rfl }, holds.atCursor⟩
      let width := Width.classify (steps.foldl max 0)
      let finish (flag : Nat) (e' : Encoder α) : Except (Stopped α) (Encoder α) := do
        let packed ← e'.putDifferences width steps
        let noted := packed.note
          (.unit (.run width) flag (rest.length + 1) first (first - e.cursor))
        return { noted with cursor := rest.getLastD first, pending := [] }
      have written : ∀ n e',
          Opened mode before ⟨row, .run (first :: rest)⟩ (first :: steps) values e' →
          ∃ e'', finish n e' = .ok e'' ∧
            Holds mode (before ++ [⟨row, .run (first :: rest)⟩]) row [] values e'' := by
        intro n e' opened
        simp only [finish, putDifferences_eq opened.met]
        refine ⟨_, rfl, opened.close ?_ ?_ rfl ⟨rfl, rfl, rfl, rfl, rfl, rfl, rfl⟩⟩
        · simp [note, width, Buffer.packed, payload, Piece.kind, deltas]
        · exact (List.getLastD_cons (a := 0)).symm
      have done := writes_of_opened finish turned short ahead ordered written
      rw [Piece.kind, deltas] at done
      exact done

theorem Holds.writes_nothing {mode : ColumnMode} {before : List Placed} {row : Nat}
    {held : List Nat} {values : List α} {e : Encoder α}
    (holds : Holds mode before row held values e) :
    Writes mode before [] row held values (.ok e) :=
  ⟨rfl, (List.append_nil before).symm ▸ holds⟩

/-- What is held back is written as a run, if it is anything. -/
theorem flush_writes_runs {mode : ColumnMode} {before : List Placed} {row : Nat} {held : List Nat}
    {values : List α} {e : Encoder α} (short : held.length ≤ Header.maxSize)
    (holds : Holds mode before row held values e) :
    Writes mode before ((Piece.runs held).map (Placed.mk row)) row [] values e.flush := by
  by_cases empty : held = []
  · subst empty
    rw [flush, holds.pending]
    exact holds.writes_nothing
  · rw [Piece.runs_of_short empty short]
    exact flush_writes empty holds

theorem Holds.keep {mode : ColumnMode} {before : List Placed} {row : Nat} {held : List Nat}
    {values : List α} {e : Encoder α} (holds : Holds mode before row held values e)
    (more : List α) :
    ∃ e', e.keep more = .ok e' ∧ Holds mode before row held (values ++ more) e' := by
  refine ⟨_, keep_of_met holds.met more, { holds.toWrote with taken := ?_ }, holds.atCursor⟩
  rw [Array.toList_appendList, holds.taken]

/-- A plain column is held back, and its value taken. -/
theorem Holds.hold {mode : ColumnMode} {before : List Placed} {row : Nat} {held : List Nat}
    {values : List α} {e : Encoder α} (holds : Holds mode before row held values e) (col : Nat)
    (value : α) :
    ∃ e', { e with pending := e.pending ++ [col] }.keep [value] = .ok e' ∧
      Holds mode before row (held ++ [col]) (values ++ [value]) e' := by
  apply Holds.keep
  exact ⟨{ holds.toWrote with pending := congrArg (· ++ [col]) holds.pending }, holds.atCursor⟩

/-- One element of a row writes the pieces that it closes. -/
theorem element_writes {mode : ColumnMode} {before : List Placed} {row : Nat} {held : List Nat}
    {values : List α} {e : Encoder α} {x : Element α} (short : held.length ≤ Header.maxSize)
    (counted : x.Counted) (holds : Holds mode before row held values e) :
    Writes mode before ((Piece.closedBy held x).map (Placed.mk row)) row (Piece.heldAfter held x)
      (values ++ x.values) (e.element x) := by
  cases x with
  | plain col value =>
    by_cases full : held.length = Header.maxSize
    · have nonempty : held ≠ [] := by
        rintro rfl
        contradiction
      have flushed := flush_writes nonempty holds
      rw [element, holds.pending, if_pos full, Piece.closedBy, Piece.heldAfter, if_pos full,
        if_pos full]
      exact flushed.andThen fun e' after => after.hold col value
    · rw [element, holds.pending, if_neg full, Piece.closedBy, Piece.heldAfter, if_neg full,
        if_neg full]
      exact holds.writes_nothing.andThen fun e' after => after.hold col value
  | pattern col p list =>
    have count : list.length = p.size := counted
    have written : e.element (.pattern col p list) = (do
        let e' ← e.flush
        let e' ← e'.putPattern col p
        e'.keep list) := by
      simp [element, count]
    rw [written, Piece.closedBy, List.map_append]
    apply (flush_writes_runs short holds).bind
    intro e' flushed
    exact (putPattern_writes flushed col p).andThen fun e'' put => put.keep list

/-- Elements of a row and the flush after them write the pieces of the row. -/
theorem elements_writes {mode : ColumnMode} {before : List Placed} {row : Nat} {held : List Nat}
    {values : List α} {e : Encoder α} {elems : List (Element α)}
    (short : held.length ≤ Header.maxSize) (counted : ∀ x ∈ elems, x.Counted)
    (holds : Holds mode before row held values e) :
    Writes mode before ((Piece.ofRowAfter held elems).map (Placed.mk row)) row []
      (values ++ elems.flatMap Element.values) (e.elements elems >>= flush) := by
  induction elems generalizing before held values e with
  | nil =>
    simp only [List.flatMap_nil, List.append_nil]
    exact flush_writes_runs short holds
  | cons x elems ih =>
    rw [List.forall_mem_cons] at counted
    have step : e.elements (x :: elems) >>= flush
        = e.element x >>= fun e' => e'.elements elems >>= flush := by
      simp only [elements, List.foldlM_cons, bind_assoc]
    rw [step, Piece.ofRowAfter_step, List.map_append, List.flatMap_cons, ← List.append_assoc]
    apply (element_writes short counted.1 holds).bind
    intro e' after
    exact ih (Piece.length_heldAfter_le x short) counted.2 after

end Encoder
end SparseStream
