import Mathlib.Data.List.Induction
import SparseStream.Proofs.Operations

/-! The encoder between two rows. Nothing is held back then, and the rows counted so far are those
that the stream has reached and the empty rows after them, however the advance to come is split
between a mark and a counter. The cursor is where the last element of a row left it. -/
namespace SparseStream

theorem Pattern.Admitted.shape_of_horizontal {p : Pattern} (admitted : p.Admitted)
    (along : p.shape.order = .horizontal) : ∃ stride, p.shape = .simple .horizontal stride := by
  cases admitted with
  | line _ _ made =>
    obtain ⟨-, -, -, rfl⟩ := line_eq_ok_iff.mp made
    cases along
    exact ⟨_, rfl⟩
  | block _ made =>
    obtain ⟨dim, dimension, -, -, -, rfl⟩ := block_eq_ok_iff.mp made
    cases along
    contradiction

namespace Element

/-- Where an element leaves the column cursor: on its own column, on the last column of a horizontal
line, on the anchor of any other pattern. -/
inductive LeavesAt : Element α → Nat → Prop
  | plain {col : Nat} {value : α} : LeavesAt (.plain col value) col
  | line {col stride size : Nat} {values : List α} :
      LeavesAt (.pattern col ⟨.simple .horizontal stride, size⟩ values) (col + (size - 1) * stride)
  | anchor {col : Nat} {p : Pattern} {values : List α} : p.shape.order ≠ .horizontal →
      LeavesAt (.pattern col p values) col

theorem Fits.leavesAt_last {x : Element α} (fits : x.Fits) : x.LeavesAt x.last := by
  cases x with
  | plain col value => exact .plain
  | pattern col p values =>
    by_cases along : p.shape.order = .horizontal
    · obtain ⟨stride, line⟩ := fits.1.shape_of_horizontal along
      obtain ⟨shape, size⟩ := p
      cases line
      exact .line
    · have other : ∀ stride, p.shape ≠ .simple .horizontal stride := by
        intro stride line
        rw [line] at along
        exact along rfl
      rw [last, Shape.advance_eq_zero p.size other]
      exact .anchor along

end Element

theorem Layout.map_row_unitsAfter (mode : ColumnMode) (before : List Placed) (offset : Nat)
    (rest : List Placed) :
    (unitsAfter mode before offset rest).map StreamUnit.row = rest.map Placed.row := by
  induction rest generalizing before offset with
  | nil => rfl
  | cons x rest ih =>
    rw [unitsAfter, List.map_cons, List.map_cons, ih]
    rfl

theorem Operation.cutFrom_of_mem_written {op : Operation α} {piece : Piece}
    (member : piece ∈ op.written) : Piece.CutFrom op.elements piece := by
  cases op with
  | skip => cases member
  | row elems => exact Piece.cutFrom_of_mem_ofRow member
  | symmetricRow elems rowStart =>
    rcases List.mem_append.mp member with outer | inner
    · exact (Piece.cutFrom_of_mem_ofRow outer).of_sublist (List.take_sublist _ _)
    · exact (Piece.cutFrom_of_mem_ofRow inner).of_sublist (List.drop_sublist _ _)

namespace Encoder

open Layout

/-- An encoder between two rows whose stream can be read back. All that was written lies on the rows
counted so far. -/
structure Between (mode : ColumnMode) (before : List Placed) (rows : Nat) (values : List α)
    (e : Encoder α) : Prop extends Rests mode before rows values e where
  sound : ∀ x ∈ before, x.Sound
  forward : Forward before
  below : ∀ x ∈ before, x.row < rows
  accepted : firstRefusal? mode [] before = none

variable {mode : ColumnMode} {before : List Placed} {rows : Nat} {values : List α}
  {e e' : Encoder α} {op : Operation α}

theorem between_new (mode : ColumnMode) (reserved : Nat) (values : Array α) :
    Between mode [] 0 values.toList
      { mode := mode, buffer := { reserved := reserved }, values := values } where
  toRests := rests_new mode reserved values
  sound _ none := absurd none List.not_mem_nil
  forward := List.Pairwise.nil
  below _ none := absurd none List.not_mem_nil
  accepted := rfl

/-- What an operation adds lies on the row that was counted next. -/
theorem Between.run (between : Between mode before rows values e) (filled : op.Filled)
    (fit : ∀ x ∈ op.elements, x.Fits) (word : rows < wordLimit) (ran : op.run e = .ok e') :
    Between mode (before ++ op.written.map (Placed.mk rows)) (rows + 1)
      (values ++ op.elements.flatMap Element.values) e' := by
  have takes := Operation.run_takes filled (Operation.counted_of_run ran) between.toRests
  rw [ran] at takes
  have added : ∀ x ∈ op.written.map (Placed.mk rows), x.row = rows ∧ x.Sound := by
    intro x member
    obtain ⟨piece, written, rfl⟩ := List.mem_map.mp member
    exact ⟨rfl, Operation.sound_of_cutFrom word (fun x inOp => (fit x inOp).col_lt)
      (fun x inOp _ => fit x inOp) (Operation.cutFrom_of_mem_written written)⟩
  constructor
  · exact takes.2.toRests
  · intro x member
    rcases List.mem_append.mp member with old | new
    · exact between.sound x old
    · exact (added x new).2
  · refine List.pairwise_append.mpr ⟨between.forward, ?_, ?_⟩
    · apply List.pairwise_map.mpr
      exact List.pairwise_of_forall fun _ _ => Nat.le_refl rows
    · intro x old y new
      exact (added y new).1 ▸ Nat.le_of_lt (between.below x old)
  · intro x member
    rcases List.mem_append.mp member with old | new
    · exact Nat.lt_succ_of_lt (between.below x old)
    · exact (added x new).1 ▸ Nat.lt_succ_self rows
  · rw [firstRefusal?_append, between.accepted, Option.none_or]
    exact takes.1

/-- A row leaves the cursor where its last element does. -/
theorem Between.leavesAt_of_run (between : Between mode before rows values e) (filled : op.Filled)
    (fit : ∀ x ∈ op.elements, x.Fits) (ran : op.run e = .ok e') :
    ∀ x ∈ op.elements.getLast?, x.LeavesAt e'.cursor := by
  have takes := Operation.run_takes filled (Operation.counted_of_run ran) between.toRests
  rw [ran] at takes
  intro x last
  have same := Operation.getLast?_written op
  rw [Option.mem_def.mp last, Option.map_some, Option.map_eq_some_iff] at same
  obtain ⟨piece, lastPiece, ends⟩ := same
  rw [takes.2.atLast piece lastPiece, ends]
  exact (fit x (List.mem_of_getLast? last)).leavesAt_last

/-- The state of an encoder after some rows, against the units of its stream: nothing is held back,
and the row after the last one with a unit is as many rows away as the counter of empty rows says.
The first row of all is not marked as a new one. -/
structure Accounts (rows : Nat) (us : List StreamUnit) (e : Encoder α) : Prop where
  idle : e.pending = []
  row : e.row = rows
  unmarked : e.newRow = false ↔ rows = 0
  noneSkipped : e.newRow = false → e.emptyRows = 0
  afterUnit : ∀ u ∈ us.getLast?, e.row = u.row + 1 + e.emptyRows
  beforeUnits : us = [] → rows ≠ 0 → e.row = 1 + e.emptyRows

theorem lastRow_lt (below : ∀ x ∈ before, x.row < rows) (nonempty : before ≠ []) :
    lastRow before < rows := by
  have last := List.getLast?_eq_some_getLast nonempty
  rw [lastRow, last]
  exact below _ (List.mem_of_getLast? last)

theorem Between.unmarked_iff (between : Between mode before rows values e) :
    e.newRow = false ↔ rows = 0 := by
  have advance := between.advance
  cases marked : e.newRow with
  | true =>
    simp only [marked, ite_true] at advance
    simp only [Bool.true_eq_false, false_iff]
    omega
  | false =>
    simp only [marked, Bool.false_eq_true, ite_false] at advance
    simp only [true_iff]
    by_cases empty : before = []
    · rw [advance.1, empty]
      rfl
    · have later := lastRow_lt between.below empty
      omega

theorem Between.accounts (between : Between mode before rows values e) :
    Accounts rows (Layout.units mode before) e := by
  have advance := between.advance
  have marks := between.unmarked_iff
  have sameRows : (Layout.units mode before).map StreamUnit.row = before.map Placed.row :=
    map_row_unitsAfter mode [] 0 before
  -- behind the first row a mark is due, and the counter holds the rest of the way
  have later : rows ≠ 0 → e.row = lastRow before + 1 + e.emptyRows := by
    intro counted
    have marked : e.newRow = true := by simpa using mt marks.mp counted
    rw [if_pos marked] at advance
    rw [between.onRow, advance, Nat.add_right_comm]
  constructor
  · exact between.pending
  · exact between.onRow
  · exact marks
  · intro unmarked
    rw [unmarked] at advance
    exact advance.2
  · intro u last
    have reached : lastRow before = u.row := by
      rw [lastRow, ← List.getLast?_map, ← sameRows, List.getLast?_map, Option.mem_def.mp last]
      rfl
    have nonempty : before ≠ [] := by
      rintro rfl
      contradiction
    have counted : rows ≠ 0 := Nat.ne_of_gt (Nat.zero_lt_of_lt (lastRow_lt between.below nonempty))
    rw [← reached]
    exact later counted
  · intro none counted
    rw [none] at sameRows
    have empty : before = [] := List.map_eq_nil_iff.mp sameRows.symm
    have start := later counted
    rw [empty] at start
    exact start

end Encoder

namespace Operation

open Encoder

/-- Any number of operations, by induction on one more operation. -/
theorem exists_between_of_runAll {mode : ColumnMode} {reserved : Nat} {taken : Array α}
    {ops : List (Operation α)} {e : Encoder α} (filled : ∀ op ∈ ops, op.Filled)
    (fit : ∀ op ∈ ops, ∀ x ∈ op.elements, x.Fits) (rows : ops.length ≤ wordLimit)
    (ran : runAll { mode := mode, buffer := { reserved := reserved }, values := taken } ops
      = .ok e) :
    (∃ before values, Between mode before ops.length values e) ∧
      ∀ op ∈ ops.getLast?, ∀ x ∈ op.elements.getLast?, x.LeavesAt e.cursor := by
  induction ops using List.reverseRecOn generalizing e with
  | nil =>
    cases ran
    exact ⟨⟨[], _, between_new mode reserved taken⟩, fun _ none => nomatch none⟩
  | append_singleton ops op ih =>
    rw [List.length_append, List.length_singleton] at rows
    simp only [List.forall_mem_append, List.forall_mem_singleton] at filled fit
    simp only [runAll, List.foldlM_append, List.foldlM_cons, List.foldlM_nil, bind_eq_ok] at ran
    obtain ⟨e₁, first, e₂, next, done⟩ := ran
    cases done
    -- a row enters with the cursor at zero, so where the rows before it left it does not matter
    obtain ⟨⟨before, values, between⟩, -⟩ := ih filled.1 fit.1 (by omega) first
    constructor
    · rw [List.length_append, List.length_singleton]
      exact ⟨_, _, between.run filled.2 fit.2 rows next⟩
    · simp only [List.getLast?_concat, Option.mem_def, Option.some.injEq, forall_eq']
      exact between.leavesAt_of_run filled.2 fit.2 next

/-- After operations that an encoder took one after another without refusing any, whatever it was
answered when it asked for memory, its rows are accounted for by the units of its stream, and the
cursor is where the last element of the row just written left it. The row counter is a word, which
bounds the number of operations. -/
theorem rows_accounted_for {mode : ColumnMode} {reserved : Nat} {taken : Array α}
    {answers : List Bool} {ops : List (Operation α)} {e : Encoder α}
    (filled : ∀ op ∈ ops, op.Filled) (fit : ∀ op ∈ ops, ∀ x ∈ op.elements, x.Fits)
    (rows : ops.length ≤ wordLimit)
    (ran : runAll
      { mode := mode, buffer := { reserved := reserved }, values := taken, answers := answers } ops
      = .ok e) :
    (∃ us, units e.registry.table e.mode e.buffer.bytes.toList = (us, none) ∧
      Accounts ops.length us e) ∧
    ∀ op ∈ ops.getLast?, ∀ x ∈ op.elements.getLast?, x.LeavesAt e.cursor := by
  have granted : runAll { mode := mode, buffer := { reserved := reserved }, values := taken } ops
      = .ok e.granted := granted_of_runAll ran
  obtain ⟨⟨before, values, between⟩, leaves⟩ := exists_between_of_runAll filled fit rows granted
  have accounts := between.accounts
  refine ⟨⟨Layout.units mode before, ?_, { accounts with }⟩, leaves⟩
  have table : e.registry = ⟨Layout.entries before⟩ := between.registry
  have sameMode : e.mode = mode := between.sameMode
  have stream : e.buffer.bytes.toList = Layout.bytes mode before := between.stream
  rw [table, sameMode, stream]
  exact Layout.units_bytes between.sound between.forward between.accepted

/-- Two empty rows before the first unit, one between the rows with elements, and a line at the end
of the last row. -/
theorem rows_accounted_for_skipped_rows :
    let line : Pattern := ⟨.simple .horizontal 2, 3⟩
    let ops : List (Operation Unit) :=
      [.skip, .skip, .row [.plain 3 (), .plain 500 ()], .skip,
        .symmetricRow [.plain 1 (), .pattern 4 line [(), (), ()]] 2]
    ∃ e us, runAll { mode := .jump } ops = .ok e ∧
      units e.registry.table e.mode e.buffer.bytes.toList = (us, none) ∧ Accounts 5 us e ∧
      e.cursor = 8 := by
  intro line ops
  have filled : ∀ op ∈ ops, op.Filled := by simp [ops, Filled]
  have admitted : line.Admitted :=
    .line (by decide : 2 < strideLimit) (by decide : 3 < wordLimit)
      (rfl : Pattern.line .horizontal 2 3 = _)
  have fit : ∀ op ∈ ops, ∀ x ∈ op.elements, x.Fits := by
    have words : 500 < wordLimit := by decide
    simp [ops, elements, Element.Fits, admitted, line, Shape.advance]
    omega
  have taken : (runAll { mode := .jump } ops).isOk = true := by decide +kernel
  cases ran : runAll { mode := .jump } ops with
  | error stopped =>
    rw [ran] at taken
    contradiction
  | ok e =>
    obtain ⟨⟨us, read, accounts⟩, leaves⟩ := rows_accounted_for filled fit (by decide) ran
    have ends : (Element.pattern 4 ⟨.simple .horizontal 2, 3⟩ [(), (), ()]).LeavesAt e.cursor :=
      leaves _ rfl _ rfl
    refine ⟨e, us, rfl, read, accounts, ?_⟩
    generalize e.cursor = cursor at ends
    cases ends with
    | line => rfl
    | anchor other => exact absurd rfl other

end Operation
end SparseStream
