import SparseStream.Assembly
import SparseStream.Proofs.Accepted
import SparseStream.Proofs.Order
import SparseStream.Proofs.Search
import SparseStream.Proofs.Spelled
import SparseStream.Proofs.Supply
import SparseStream.Proofs.Writing

/-! Runs of the row encoder. An encoder takes rows as operations one after another; each of them
adds the pieces of its row to the layout that the encoder has written. -/
namespace SparseStream

/-- What an encoder can be asked for. -/
inductive Operation (α : Type) where
  | skip
  | row (elems : List (Element α))
  | symmetricRow (elems : List (Element α)) (rowStart : Nat)

namespace Operation

def run (e : Encoder α) : Operation α → Except (Stopped α) (Encoder α)
  | skip => .ok e.skipRow
  | row elems => e.putRow elems
  | symmetricRow elems rowStart => e.putSymmetricRow elems rowStart

def runAll (e : Encoder α) (ops : List (Operation α)) : Except (Stopped α) (Encoder α) :=
  ops.foldlM run e

def elements : Operation α → List (Element α)
  | skip => []
  | row elems | symmetricRow elems _ => elems

def pieces : Operation α → List Piece
  | skip => []
  | row elems => Piece.ofRow elems
  | symmetricRow elems rowStart => Piece.ofSymmetricRow elems rowStart

/-- Only `skip` takes a row without elements. -/
def Filled : Operation α → Prop
  | skip => True
  | row elems | symmetricRow elems _ => elems ≠ []

/-- Only `skip` takes a row without elements, and in a symmetric row the elements before `rowStart`
come first. -/
def Proper : Operation α → Prop
  | skip => True
  | row elems => elems ≠ []
  | symmetricRow elems rowStart =>
    elems ≠ [] ∧ ∀ x ∈ elems.dropWhile (·.col < rowStart), rowStart ≤ x.col

theorem Proper.filled {op : Operation α} (proper : op.Proper) : op.Filled := by
  cases op with
  | skip => trivial
  | row elems => exact proper
  | symmetricRow elems rowStart => exact proper.1

/-- The pieces that an operation writes. A symmetric row is cut where the search for its split ends,
whatever the order of its elements. -/
def written : Operation α → List Piece
  | skip => []
  | row elems => Piece.ofRow elems
  | symmetricRow elems rowStart =>
    let n := splitPoint (fun x : Element α => x.col < rowStart) elems
    Piece.ofRow (elems.take n) ++ Piece.ofRow (elems.drop n)

/-- The last piece of a row ends where its last element does, on whatever side of a split. -/
theorem getLast?_written (op : Operation α) :
    op.written.getLast?.map Piece.last = op.elements.getLast?.map Element.last := by
  have ofRow (elems : List (Element α)) :
      (Piece.ofRow elems).getLast?.map Piece.last = elems.getLast?.map Element.last := by
    rw [Piece.ofRow, Piece.getLast?_ofRowAfter, List.getLast?_nil, Option.or_none]
  cases op with
  | skip => rfl
  | row elems => exact ofRow elems
  | symmetricRow elems rowStart =>
    let n := splitPoint (fun x : Element α => x.col < rowStart) elems
    have whole : elems.take n ++ elems.drop n = elems := List.take_append_drop n elems
    have last := congrArg (·.getLast?.map Element.last) whole
    simp only [List.getLast?_append, Option.map_or] at last
    rw [written, elements, List.getLast?_append, Option.map_or, ofRow, ofRow]
    exact last

theorem written_ne_nil {op : Operation α} (filled : op.elements ≠ []) : op.written ≠ [] := by
  intro empty
  have same := getLast?_written op
  rw [empty, List.getLast?_eq_some_getLast filled] at same
  contradiction

/-- Where the elements before `rowStart` come first, the search splits the row there. -/
theorem written_eq_pieces {op : Operation α} (proper : op.Proper) : op.written = op.pieces := by
  cases op with
  | skip => rfl
  | row elems => rfl
  | symmetricRow elems rowStart =>
    obtain ⟨outer, inner⟩ := splitPoint_ordered (·.col < rowStart) elems
      (fun x member => decide_eq_false (Nat.not_lt_of_le (proper.2 x member)))
    rw [written, outer, inner, pieces, Piece.ofSymmetricRow]

/-- The layout of operations, for rows counted from `row` on. -/
def layout (row : Nat) (ops : List (Operation α)) : List Placed :=
  (ops.zipIdx row).flatMap fun (op, i) => op.pieces.map (Placed.mk i)

theorem layout_cons (row : Nat) (op : Operation α) (ops : List (Operation α)) :
    layout row (op :: ops) = op.pieces.map (Placed.mk row) ++ layout (row + 1) ops := by
  simp [layout]

end Operation

namespace Encoder

open Layout

/-- An encoder between two rows. Nothing was written yet on the row to come. -/
structure Rests (mode : ColumnMode) (before : List Placed) (row : Nat) (values : List α)
    (e : Encoder α) : Prop extends Wrote mode before row [] values e where
  fresh : Layout.cursor before row = 0

theorem rests_new (mode : ColumnMode) (reserved : Nat) (values : Array α) :
    Rests mode [] 0 values.toList
      { mode := mode, buffer := { reserved := reserved }, values := values } where
  sameMode := rfl
  stream := rfl
  registry := rfl
  onRow := rfl
  pending := rfl
  taken := rfl
  advance := ⟨rfl, rfl⟩
  few := Nat.zero_le _
  met := rfl
  fresh := rfl

theorem Rests.enter {mode : ColumnMode} {before : List Placed} {row : Nat} {values : List α}
    {e : Encoder α} (rests : Rests mode before row values e) (event : Event) :
    Holds mode before row [] values { e.note event with cursor := 0 } :=
  ⟨{ rests.toWrote with }, rests.fresh.symm⟩

theorem Rests.skipRow {mode : ColumnMode} {before : List Placed} {row : Nat} {values : List α}
    {e : Encoder α} (rests : Rests mode before row values e) :
    Rests mode before (row + 1) values e.skipRow := by
  have advance := rests.advance
  have skipped : e.skipRow.newRow = true ∧ row + 1 = lastRow before + e.skipRow.emptyRows + 1 := by
    cases starts : e.newRow with
    | true =>
      simp only [starts, ite_true] at advance
      simp [Encoder.skipRow, note, starts]
      omega
    | false =>
      simp only [starts, Bool.false_eq_true, ite_false] at advance
      simp [Encoder.skipRow, note, starts, advance]
  have kept : e.skipRow.mode = e.mode ∧ e.skipRow.buffer = e.buffer ∧
      e.skipRow.registry = e.registry ∧ e.skipRow.row = e.row + 1 ∧
      e.skipRow.pending = e.pending ∧ e.skipRow.values = e.values ∧
      e.skipRow.answers = e.answers := by
    cases starts : e.newRow <;> simp [Encoder.skipRow, note, starts]
  obtain ⟨mode, buffer, registry, row, pending, values, answers⟩ := kept
  exact
    { sameMode := mode.trans rests.sameMode
      stream := buffer ▸ rests.stream
      registry := registry.trans rests.registry
      onRow := by rw [row, rests.onRow]
      pending := pending.trans rests.pending
      taken := values ▸ rests.taken
      advance := by simpa [skipped.1] using skipped.2
      few := rests.few
      met := answers.trans rests.met
      fresh := cursor_of_lastRow_ne (by omega) }

/-- A row that wrote something is over. -/
theorem Holds.endRow {mode : ColumnMode} {before : List Placed} {row : Nat} {values : List α}
    {e : Encoder α} (holds : Holds mode before row [] values e) (here : lastRow before = row) :
    Rests mode before (row + 1) values e.endRow := by
  have empty : e.emptyRows = 0 := by
    have advance := holds.advance
    cases starts : e.newRow <;> simp [starts] at advance <;> omega
  exact
    { holds.toWrote with
      onRow := congrArg (· + 1) holds.onRow
      advance := by simp [Encoder.endRow, empty, here]
      fresh := cursor_of_lastRow_ne (by omega) }

theorem lastRow_append_map {row : Nat} (before : List Placed) {pieces : List Piece}
    (nonempty : pieces ≠ []) : lastRow (before ++ pieces.map (Placed.mk row)) = row := by
  simp [lastRow, List.getLast?_append, List.getLast?_eq_some_getLast nonempty]

/-- An encoder that took an operation: the row is over, and the cursor is still on the last column
that was written. -/
structure Took (mode : ColumnMode) (before : List Placed) (row : Nat) (pieces : List Piece)
    (values : List α) (e : Encoder α) : Prop
    extends Rests mode (before ++ pieces.map (Placed.mk row)) (row + 1) values e where
  atLast : ∀ piece ∈ pieces.getLast?, e.cursor = piece.last

theorem cursor_append_map {row : Nat} {pieces : List Piece} {piece : Piece} (before : List Placed)
    (last : piece ∈ pieces.getLast?) :
    Layout.cursor (before ++ pieces.map (Placed.mk row)) row = piece.last := by
  simp [Layout.cursor, List.getLast?_append, List.getLast?_map, Option.mem_def.mp last]

theorem Holds.took {mode : ColumnMode} {before : List Placed} {row : Nat} {pieces : List Piece}
    {values : List α} {e : Encoder α} (nonempty : pieces ≠ [])
    (holds : Holds mode (before ++ pieces.map (Placed.mk row)) row [] values e) :
    Took mode before row pieces values e.endRow where
  toRests := holds.endRow (lastRow_append_map before nonempty)
  atLast _ last := holds.atCursor.trans (cursor_append_map before last)

abbrev Takes (mode : ColumnMode) (before : List Placed) (row : Nat) (pieces : List Piece)
    (values : List α) : Except (Stopped α) (Encoder α) → Prop :=
  Outcome mode before (pieces.map (Placed.mk row)) (Took mode before row pieces values)

theorem putRow_takes {mode : ColumnMode} {before : List Placed} {row : Nat} {values : List α}
    {e : Encoder α} {elems : List (Element α)} (filled : elems ≠ [])
    (counted : ∀ x ∈ elems, x.Counted) (rests : Rests mode before row values e) :
    Takes mode before row (Piece.ofRow elems) (values ++ elems.flatMap Element.values)
      (e.putRow elems) := by
  have nonempty : Piece.ofRow elems ≠ [] := Piece.ofRowAfter_ne_nil (.inr filled)
  have written := elements_writes (Nat.zero_le _) counted
    (rests.enter (.row e.row elems.length false))
  have done := written.andThen fun e' holds => ⟨_, rfl, holds.took nonempty⟩
  rw [bind_assoc] at done
  exact done

/-- A symmetric row, wherever it is split. -/
theorem putSymmetricRow_takes {mode : ColumnMode} {before : List Placed} {row : Nat}
    {values : List α} {e : Encoder α} {elems : List (Element α)} (rowStart : Nat)
    (filled : elems ≠ []) (counted : ∀ x ∈ elems, x.Counted)
    (rests : Rests mode before row values e) :
    Takes mode before row (Operation.symmetricRow elems rowStart).written
      (values ++ elems.flatMap Element.values) (e.putSymmetricRow elems rowStart) := by
  have nonempty : (Operation.symmetricRow elems rowStart).written ≠ [] :=
    Operation.written_ne_nil filled
  let n := splitPoint (fun x : Element α => x.col < rowStart) elems
  have countedOuter : ∀ x ∈ elems.take n, x.Counted :=
    fun x member => counted x (List.mem_of_mem_take member)
  have countedInner : ∀ x ∈ elems.drop n, x.Counted :=
    fun x member => counted x (List.mem_of_mem_drop member)
  have first := elements_writes (Nat.zero_le _) countedOuter
    (rests.enter (.row e.row elems.length true))
  have written := first.bind fun e' holds => elements_writes (Nat.zero_le _) countedInner holds
  rw [← List.map_append, List.append_assoc, ← List.flatMap_append, List.take_append_drop] at written
  have done := written.andThen fun e' holds => ⟨_, rfl, holds.took nonempty⟩
  simp only [bind_assoc] at done
  exact done

end Encoder

namespace Operation

open Encoder

theorem run_takes {mode : ColumnMode} {before : List Placed} {row : Nat} {values : List α}
    {e : Encoder α} {op : Operation α} (filled : op.Filled)
    (counted : ∀ x ∈ op.elements, x.Counted) (rests : Rests mode before row values e) :
    Takes mode before row op.written (values ++ op.elements.flatMap Element.values) (op.run e) := by
  cases op with
  | skip =>
    have skipped : Rests mode (before ++ []) (row + 1) (values ++ []) e.skipRow := by
      simpa using rests.skipRow
    exact ⟨rfl, skipped, fun _ none => nomatch none⟩
  | row elems => exact putRow_takes filled counted rests
  | symmetricRow elems rowStart => exact putSymmetricRow_takes rowStart filled counted rests

/-- Any number of operations, by induction on the operations from any row on. -/
theorem runAll_outcome {mode : ColumnMode} {before : List Placed} {row : Nat} {values : List α}
    {e : Encoder α} {ops : List (Operation α)} (proper : ∀ op ∈ ops, op.Proper)
    (counted : ∀ op ∈ ops, ∀ x ∈ op.elements, x.Counted) (rests : Rests mode before row values e) :
    Outcome mode before (layout row ops)
      (Rests mode (before ++ layout row ops) (row + ops.length)
        (values ++ (ops.flatMap elements).flatMap Element.values)) (runAll e ops) := by
  induction ops generalizing before row values e with
  | nil =>
    refine ⟨rfl, ?_⟩
    simpa [layout] using rests
  | cons op ops ih =>
    rw [List.forall_mem_cons] at proper counted
    have first := run_takes proper.1.filled counted.1 rests
    rw [written_eq_pieces proper.1] at first
    have more := first.bind fun e' after => ih proper.2 counted.2 after.toRests
    rw [layout_cons, runAll, List.foldlM_cons, List.length_cons, List.flatMap_cons,
      List.flatMap_append, Nat.add_comm ops.length 1, ← Nat.add_assoc]
    simp only [← List.append_assoc]
    exact more

end Operation

namespace Encoder

/-- What an encoder took carries a value for each of its cells. -/
theorem counted_of_element {e e' : Encoder α} {x : Element α} (taken : e.element x = .ok e') :
    x.Counted := by
  cases x with
  | plain col value => exact rfl
  | pattern col p list =>
    simp only [element, bind_eq_ok] at taken
    obtain ⟨_, -, taken⟩ := taken
    split at taken
    · contradiction
    · rename_i same
      have count : list.length = p.size := Decidable.not_not.mp same
      exact count

theorem counted_of_elements {e e' : Encoder α} {elems : List (Element α)}
    (taken : e.elements elems = .ok e') : ∀ x ∈ elems, x.Counted := by
  induction elems generalizing e with
  | nil => simp
  | cons x elems ih =>
    simp only [elements, List.foldlM_cons, bind_eq_ok] at taken
    obtain ⟨_, first, rest⟩ := taken
    exact List.forall_mem_cons.mpr ⟨counted_of_element first, ih rest⟩

end Encoder

namespace Operation

theorem counted_of_run {e e' : Encoder α} {op : Operation α} (ran : op.run e = .ok e') :
    ∀ x ∈ op.elements, x.Counted := by
  cases op with
  | skip => simp [elements]
  | row elems =>
    simp only [run, Encoder.putRow, bind_eq_ok] at ran
    obtain ⟨_, taken, -⟩ := ran
    exact Encoder.counted_of_elements taken
  | symmetricRow elems rowStart =>
    simp only [run, Encoder.putSymmetricRow, bind_eq_ok] at ran
    obtain ⟨_, outer, _, -, _, inner, -⟩ := ran
    intro x member
    rw [elements, ← List.take_append_drop (splitPoint (fun x : Element α => x.col < rowStart) elems)
      elems] at member
    rcases List.mem_append.mp member with early | late
    · exact Encoder.counted_of_elements outer x early
    · exact Encoder.counted_of_elements inner x late

theorem counted_of_runAll {e e' : Encoder α} {ops : List (Operation α)}
    (ran : runAll e ops = .ok e') : ∀ op ∈ ops, ∀ x ∈ op.elements, x.Counted := by
  induction ops generalizing e with
  | nil => simp
  | cons op ops ih =>
    simp only [runAll, List.foldlM_cons, bind_eq_ok] at ran
    obtain ⟨_, first, rest⟩ := ran
    exact List.forall_mem_cons.mpr ⟨counted_of_run first, ih rest⟩

theorem cutFrom_of_mem_pieces {op : Operation α} {piece : Piece} (member : piece ∈ op.pieces) :
    Piece.CutFrom op.elements piece := by
  cases op with
  | skip => cases member
  | row elems => exact Piece.cutFrom_of_mem_ofRow member
  | symmetricRow elems rowStart => exact Piece.cutFrom_of_mem_ofSymmetricRow member

theorem mem_layout {row : Nat} {ops : List (Operation α)} {x : Placed}
    (member : x ∈ layout row ops) :
    row ≤ x.row ∧ x.row < row + ops.length ∧ ∃ op ∈ ops, x.piece ∈ op.pieces := by
  obtain ⟨⟨op, i⟩, inOps, inPieces⟩ := List.mem_flatMap.mp member
  obtain ⟨piece, inOp, rfl⟩ := List.mem_map.mp inPieces
  have place := List.mem_zipIdx inOps
  have below : i < row + ops.length := by omega
  exact ⟨place.1, below, op, List.fst_mem_of_mem_zipIdx inOps, inOp⟩

theorem forward_layout (row : Nat) (ops : List (Operation α)) :
    Layout.Forward (layout row ops) := by
  induction ops generalizing row with
  | nil => exact List.Pairwise.nil
  | cons op ops ih =>
    rw [layout_cons]
    apply List.pairwise_append.mpr
    refine ⟨?_, ih (row + 1), ?_⟩
    · apply List.pairwise_map.mpr
      exact List.pairwise_of_forall fun _ _ => Nat.le_refl row
    · intro x first y later
      obtain ⟨piece, -, rfl⟩ := List.mem_map.mp first
      exact Nat.le_of_succ_le (mem_layout later).1

theorem sound_of_cutFrom {row : Nat} {elems : List (Element α)} {piece : Piece}
    (word : row < wordLimit) (cols : ∀ x ∈ elems, x.col < wordLimit)
    (fit : ∀ x ∈ elems, x.count = piece.size → x.Fits) (cut : Piece.CutFrom elems piece) :
    Placed.Sound ⟨row, piece⟩ := by
  cases cut with
  | @run chunk nonempty short sub =>
    refine ⟨List.length_pos_iff.mpr nonempty, word, ?_⟩
    obtain ⟨x, member, same⟩ := List.mem_map.mp (sub.subset (List.getLast_mem nonempty))
    have last : (Piece.run chunk).last = x.col := by
      rw [same, Piece.last, List.getLastD_eq_getLast?, List.getLast?_eq_some_getLast nonempty]
      rfl
    exact last ▸ cols x member
  | pattern member =>
    have fits := fit _ member rfl
    exact ⟨fits.1.size_pos, word, fits.2⟩

theorem granted_of_run {e e' : Encoder α} {op : Operation α} (ran : op.run e = .ok e') :
    op.run e.granted = .ok e'.granted := by
  cases op with
  | skip =>
    cases ran
    exact congrArg Except.ok e.granted_skipRow
  | row elems => exact Encoder.granted_of_putRow ran
  | symmetricRow elems rowStart => exact Encoder.granted_of_putSymmetricRow ran

/-- Memory decides whether a run ends, never what it writes; by induction along the operations. -/
theorem granted_of_runAll {e e' : Encoder α} {ops : List (Operation α)}
    (ran : runAll e ops = .ok e') : runAll e.granted ops = .ok e'.granted := by
  induction ops generalizing e with
  | nil =>
    cases ran
    rfl
  | cons op ops ih =>
    simp only [runAll, List.foldlM_cons, bind_eq_ok] at ran ⊢
    obtain ⟨e₁, first, rest⟩ := ran
    exact ⟨_, granted_of_run first, ih rest⟩

/-- Operations that an encoder takes one after another without refusing any, whatever it is answered
when it asks for memory, are read back as the units of their layout, with the registry as the table.
No narrower width than that of a run holds its differences. The row counter is a word, which bounds
the number of operations. -/
theorem units_of_runAll {mode : ColumnMode} {reserved : Nat} {taken : Array α}
    {answers : List Bool} {ops : List (Operation α)} {e : Encoder α}
    (proper : ∀ op ∈ ops, op.Proper) (fit : ∀ op ∈ ops, ∀ x ∈ op.elements, x.Fits)
    (rows : ops.length ≤ wordLimit)
    (ran : runAll
      { mode := mode, buffer := { reserved := reserved }, values := taken, answers := answers } ops
      = .ok e) :
    units e.registry.table e.mode e.buffer.bytes.toList
        = (Layout.units mode (layout 0 ops), none) ∧
      ∀ u ∈ Layout.units mode (layout 0 ops), ∀ w, u.kind = .run w → w.Narrowest u.deltas := by
  have outcome := runAll_outcome proper (counted_of_runAll ran)
    (Encoder.rests_new mode reserved taken)
  have granted : runAll { mode := mode, buffer := { reserved := reserved }, values := taken } ops
      = .ok e.granted := granted_of_runAll ran
  rw [granted] at outcome
  obtain ⟨accepted, rests⟩ := outcome
  have sound : ∀ x ∈ layout 0 ops, x.Sound := by
    intro x member
    obtain ⟨-, below, op, inOps, inPieces⟩ := mem_layout member
    exact sound_of_cutFrom (by omega) (fun x inOp => (fit op inOps x inOp).col_lt)
      (fun x inOp _ => fit op inOps x inOp) (cutFrom_of_mem_pieces inPieces)
  refine ⟨?_, Layout.narrowest_of_mem_units sound accepted⟩
  have table : e.registry = ⟨Layout.entries (layout 0 ops)⟩ := rests.registry
  have sameMode : e.mode = mode := rests.sameMode
  have stream : e.buffer.bytes.toList = Layout.bytes mode (layout 0 ops) := rests.stream
  rw [table, sameMode, stream]
  exact Layout.units_bytes sound (forward_layout 0 ops) accepted

theorem units_of_skipped_split_rows :
    let line : Pattern := ⟨.simple .horizontal 2, 3⟩
    let ops : List (Operation Unit) :=
      [.skip, .skip, .row [.plain 3 (), .plain 500 (), .pattern 600 line [(), (), ()]],
        .symmetricRow [.plain 1 (), .plain 4 ()] 2]
    ∃ e, runAll { mode := .jump, answers := List.replicate 12 true } ops = .ok e ∧
      units e.registry.table e.mode e.buffer.bytes.toList
        = (Layout.units .jump (layout 0 ops), none) ∧
      ∀ u ∈ Layout.units .jump (layout 0 ops), ∀ w, u.kind = .run w → w.Narrowest u.deltas := by
  intro line ops
  have proper : ∀ op ∈ ops, op.Proper := by simp [ops, Proper, Element.col]
  have admitted : line.Admitted :=
    .line (by decide : 2 < strideLimit) (by decide : 3 < wordLimit)
      (rfl : Pattern.line .horizontal 2 3 = _)
  have fit : ∀ op ∈ ops, ∀ x ∈ op.elements, x.Fits := by
    have words : 606 < wordLimit := by decide
    simp [ops, elements, Element.Fits, admitted, line, Shape.advance]
    omega
  let start : Encoder Unit := { mode := .jump, answers := List.replicate 12 true }
  have accepted : (runAll start ops).isOk = true := by decide +kernel
  cases ran : runAll start ops with
  | error stopped =>
    rw [ran] at accepted
    contradiction
  | ok e => exact ⟨e, rfl, units_of_runAll proper fit (by decide) ran⟩

end Operation
end SparseStream
