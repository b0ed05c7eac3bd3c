import SparseStream.Proofs.Checked
import SparseStream.Proofs.Contents
import SparseStream.Proofs.Numbers
import SparseStream.Proofs.Statistics
import SparseStream.Proofs.Success

/-! How long streams get. Two bytes for the header of a unit, four for its column and four for each
difference come to six bytes for each element, however rows are cut into units; only row jumps come on
top. Six bytes set aside for each entry are enough where no row is empty. -/
namespace SparseStream

/-- Columns below this take four bytes at most. -/
def ColumnMode.shortColumns : ColumnMode → Nat
  | jump => 268435456
  | full => fullColumnLimit

theorem ColumnMode.shortColumns_le (mode : ColumnMode) : mode.shortColumns ≤ byteLimit 4 := by
  cases mode <;> decide

/-- Bytes of the row jump that a unit carries. -/
def StreamUnit.jumpLength (u : StreamUnit) : Nat := u.rowJump.elim 0 Varint.length

/-- A piece of a partition with so many columns that covers something. -/
structure Piece.Inside (nCols : Nat) (piece : Piece) : Prop where
  covers : 1 ≤ piece.size
  col : piece.col < nCols
  deltas : ∀ d ∈ piece.deltas, d < nCols

/-- A piece cut from a row whose columns increase. The last column bounds the sum of the differences,
and so each of them. -/
theorem Piece.CutFrom.inside {row : List (Element α)} {piece : Piece} {nRows nCols i : Nat}
    (sound : ∀ y ∈ row, y.Sound nRows nCols i) (rising : piece.decrease? = none)
    (cut : CutFrom row piece) : piece.Inside nCols := by
  cases cut with
  | @run chunk nonempty short sub =>
    have last : (Piece.run chunk).last < nCols := by
      obtain ⟨y, inRow, same⟩ := List.mem_map.mp (sub.subset (List.getLast_mem nonempty))
      rw [Piece.last, List.getLastD_eq_getLast?, List.getLast?_eq_some_getLast nonempty, ← same]
      exact (sound y inRow).col_lt
    have steps := Piece.col_add_total_deltas chunk nonempty rising
    refine ⟨List.length_pos_iff.mpr nonempty, by omega, fun d step => ?_⟩
    have summand := le_total_of_mem step
    omega
  | pattern inRow =>
    have admitted : Pattern.Admitted _ := (sound _ inRow).admitted
    exact ⟨admitted.size_pos, (sound _ inRow).col_lt, List.forall_mem_nil _⟩

theorem Partition.inside_of_mem_layout {symmetric : Bool} {p : Partition α} {x : Placed}
    (sound : p.Sound) (member : x ∈ p.layout symmetric) : x.piece.Inside p.nCols := by
  obtain ⟨row, found, -, cut⟩ := cutFrom_of_mem_layout member
  exact cut.inside (sound.sound x.row row found) (decrease?_of_mem_layout sound member)

theorem Piece.Inside.mono {piece : Piece} {nCols nCols' : Nat} (inside : piece.Inside nCols)
    (more : nCols ≤ nCols') : piece.Inside nCols' :=
  ⟨inside.covers, Nat.lt_of_lt_of_le inside.col more,
    fun d step => Nat.lt_of_lt_of_le (inside.deltas d step) more⟩

namespace Layout

theorem length_jumpBytes (before : List Placed) (offset : Nat) (x : Placed) :
    (jumpBytes before x).length = (unit before offset x).jumpLength := by
  simp only [jumpBytes, StreamUnit.jumpLength, unit]
  cases rowJump before x with
  | none => rfl
  | some n => exact Varint.length_encode n

theorem length_columnBytes_le {mode : ColumnMode} {x : Placed} (before : List Placed)
    (short : x.piece.col < mode.shortColumns) : (columnBytes mode before x).length ≤ 4 := by
  cases mode with
  | jump =>
    have jump : x.piece.col - cursor before x.row < 128 ^ (3 + 1) :=
      Nat.lt_of_le_of_lt (Nat.sub_le _ _) short
    rw [columnBytes, Varint.length_encode]
    exact Varint.length_le_of_lt jump
  | full => exact Nat.le_of_eq (length_littleEndian 4 _)

/-- Differences of four bytes take four bytes each; the first element of a run has none, and those
of a pattern neither. -/
theorem length_payload_le {x : Placed} (inside : x.piece.Inside (byteLimit 4)) :
    (payload x).length + 4 ≤ 4 * x.piece.size := by
  rcases x with ⟨row, cols | ⟨col, p⟩⟩
  · let widest := (Piece.run cols).deltas.foldl max 0
    have count := Piece.length_deltas cols (List.ne_nil_of_length_pos inside.covers)
    have narrow : (Width.classify widest).bytes ≤ 4 :=
      calc (Width.classify widest).bytes ≤ (Width.classify (byteLimit 4 - 1)).bytes :=
            Checked.bytes_classify_mono
              (Nat.le_pred_of_lt (foldl_max_lt_iff.mpr ⟨by decide, inside.deltas⟩))
        _ = 4 := by decide
    have packed : (payload ⟨row, .run cols⟩).length
        = (Piece.run cols).deltas.length * (Width.classify widest).bytes := by
      simp [payload, Piece.kind, List.length_flatMap, Width.length_pack, widest]
    have bound := Nat.mul_le_mul_left (Piece.run cols).deltas.length narrow
    dsimp only
    omega
  · exact Nat.mul_le_mul_left 4 inside.covers

/-- One unit. -/
theorem length_unitBytes_le {mode : ColumnMode} {x : Placed} (before : List Placed) (offset : Nat)
    (inside : x.piece.Inside mode.shortColumns) :
    (unitBytes mode before x).length
      ≤ 6 * x.piece.size + (unit before offset x).jumpLength := by
  have column := length_columnBytes_le before inside.col
  have packed := length_payload_le (inside.mono mode.shortColumns_le)
  rw [← length_jumpBytes, unitBytes]
  simp only [List.length_cons, List.length_append]
  omega

/-- All units of a layout, by induction along it. -/
theorem length_bytesAfter_le {mode : ColumnMode} {before rest : List Placed} (offset : Nat)
    (inside : ∀ x ∈ rest, x.piece.Inside mode.shortColumns) :
    (bytesAfter mode before rest).length ≤ 6 * total (rest.map fun x => x.piece.size)
      + total ((unitsAfter mode before offset rest).map StreamUnit.jumpLength) := by
  induction rest generalizing before offset with
  | nil => exact Nat.zero_le _
  | cons x rest ih =>
    rw [List.forall_mem_cons] at inside
    have first := length_unitBytes_le before offset inside.1
    have more := @ih (before ++ [x]) (offset + (unitBytes mode before x).length) inside.2
    simp only [bytesAfter, unitsAfter, List.length_append, List.map_cons, total_cons]
    omega

/-- A layout after some row that leaves out no row. -/
def Adjacent (row : Nat) (layout : List Placed) : Prop :=
  (row :: layout.map Placed.row).IsChain fun a b => b ≤ a + 1

/-- Pieces of the row itself leave out none. -/
theorem Adjacent.same {row : Nat} {rest : List Placed} (adjacent : Adjacent row rest)
    (pieces : List Piece) : Adjacent row (pieces.map (Placed.mk row) ++ rest) := by
  induction pieces with
  | nil => exact adjacent
  | cons piece pieces ih => exact List.isChain_cons_cons.mpr ⟨Nat.le_succ row, ih⟩

/-- Where no row is left out, no unit carries a row jump. -/
theorem Adjacent.rowJump {mode : ColumnMode} {before rest : List Placed} {offset : Nat}
    (adjacent : Adjacent (lastRow before) rest) :
    ∀ u ∈ unitsAfter mode before offset rest, u.rowJump = none := by
  induction rest generalizing before offset with
  | nil => exact List.forall_mem_nil _
  | cons x rest ih =>
    obtain ⟨next, more⟩ := List.isChain_cons_cons.mp adjacent
    refine List.forall_mem_cons.mpr ⟨if_pos next, ih ?_⟩
    rw [lastRow_snoc]
    exact more

theorem total_jumpLength {us : List StreamUnit} (none : ∀ u ∈ us, u.rowJump = none) :
    total (us.map StreamUnit.jumpLength) = 0 := by
  induction us with
  | nil => rfl
  | cons u us ih =>
    rw [List.forall_mem_cons] at none
    rw [List.map_cons, total_cons, ih none.2, StreamUnit.jumpLength, none.1]
    rfl

end Layout

namespace Operation

/-- Operations that all write something, by induction along them. -/
theorem adjacent_layout {start row : Nat} {ops : List (Operation α)} (near : row ≤ start + 1)
    (writes : ∀ op ∈ ops, op.pieces ≠ []) : Layout.Adjacent start (layout row ops) := by
  induction ops generalizing start row with
  | nil => exact List.isChain_singleton start
  | cons op ops ih =>
    rw [List.forall_mem_cons] at writes
    have later := ih (Nat.le_refl (row + 1)) writes.2
    obtain ⟨piece, more, cut⟩ := List.exists_cons_of_ne_nil writes.1
    rw [layout_cons, cut]
    exact List.isChain_cons_cons.mpr ⟨near, later.same more⟩

theorem pieces_ofRow_ne_nil {row : List (Element α)} (symmetric : Bool) (rowStart : Nat)
    (filled : row ≠ []) : (ofRow symmetric rowStart row).pieces ≠ [] := by
  cases row with
  | nil => contradiction
  | cons x row =>
    cases symmetric with
    | false => exact Piece.ofRowAfter_ne_nil (.inr filled)
    | true => exact Piece.ofSymmetricRow_ne_nil rowStart filled

end Operation

namespace Partition

/-- No row of a partition is empty. -/
def Filled (p : Partition α) : Prop := ∀ row ∈ p.rows, row ≠ []

theorem Filled.adjacent_layout {p : Partition α} (filled : p.Filled) (symmetric : Bool) :
    Layout.Adjacent 0 (p.layout symmetric) := by
  refine Operation.adjacent_layout (Nat.zero_le _) fun op member => ?_
  obtain ⟨row, inRows, rfl⟩ := List.mem_map.mp member
  exact Operation.pieces_ofRow_ne_nil symmetric p.rowStart (filled row inRows)

end Partition

namespace Encoder

/-- An encoder with so much room set aside for its stream, and nothing to warn of. -/
structure Calm (room : Nat) (e : Encoder α) : Prop where
  reserved : e.buffer.reserved = room
  quiet : ∀ event ∈ e.events.toList, event.level ≠ .warn

variable {e e' : Encoder α} {room : Nat}

theorem Calm.same (calm : e.Calm room) (reserved : e'.buffer.reserved = e.buffer.reserved)
    (events : e'.events = e.events) : e'.Calm room :=
  ⟨reserved.trans calm.reserved, events ▸ calm.quiet⟩

theorem Calm.noted (calm : e.Calm room) {event : Event}
    (reserved : e'.buffer.reserved = e.buffer.reserved) (events : e'.events = e.events.push event)
    (quiet : event.level ≠ .warn) : e'.Calm room := by
  refine ⟨reserved.trans calm.reserved, ?_⟩
  rw [events, Array.toList_push]
  exact List.forall_mem_append.mpr ⟨calm.quiet, List.forall_mem_singleton.mpr quiet⟩

theorem Calm.gains {more : List α} (calm : e.Calm room) (gains : e.Gains more e') :
    e'.Calm room where
  reserved := gains.reserved.trans calm.reserved
  quiet event member := by
    rcases gains.told event member with old | new
    · exact calm.quiet event old
    · rw [new]
      decide

/-- Any number of steps, by induction along them. -/
theorem Calm.foldlM {xs : List β} {step : Encoder α → β → Except (Stopped α) (Encoder α)}
    (each : ∀ (e e' : Encoder α) (x : β), e.Calm room → step e x = .ok e' → e'.Calm room)
    (calm : e.Calm room) (taken : xs.foldlM step e = .ok e') : e'.Calm room := by
  induction xs generalizing e with
  | nil =>
    cases taken
    exact calm
  | cons x xs ih =>
    simp only [List.foldlM_cons, bind_eq_ok] at taken
    obtain ⟨e₁, first, rest⟩ := taken
    exact ih (each e e₁ x calm first) rest

theorem Calm.skipRow (calm : e.Calm room) : e.skipRow.Calm room := by
  unfold Encoder.skipRow
  dsimp only
  split <;> exact calm.noted rfl rfl (by simp [Event.level])

theorem Calm.putRow {row : List (Element α)} (calm : e.Calm room)
    (taken : e.putRow row = .ok e') : e'.Calm room := by
  simp only [Encoder.putRow, bind_eq_ok] at taken
  obtain ⟨e₁, inRow, e₂, flushed, done⟩ := taken
  cases done
  have told : Calm room { e.note (.row e.row row.length false) with cursor := 0 } :=
    calm.noted rfl rfl (by simp [Event.level])
  exact ((told.gains (gains_of_elements inRow)).gains (gains_of_flush flushed)).same rfl rfl

theorem Calm.putSymmetricRow {row : List (Element α)} {rowStart : Nat} (calm : e.Calm room)
    (taken : e.putSymmetricRow row rowStart = .ok e') : e'.Calm room := by
  simp only [Encoder.putSymmetricRow, bind_eq_ok] at taken
  obtain ⟨e₁, outer, e₂, between, e₃, inner, e₄, flushed, done⟩ := taken
  cases done
  have told : Calm room { e.note (.row e.row row.length true) with cursor := 0 } :=
    calm.noted rfl rfl (by simp [Event.level])
  have first := (told.gains (gains_of_elements outer)).gains (gains_of_flush between)
  exact ((first.gains (gains_of_elements inner)).gains (gains_of_flush flushed)).same rfl rfl

theorem Calm.take {symmetric : Bool} {rowStart : Nat} {row : List (Element α)} (calm : e.Calm room)
    (taken : e.take symmetric rowStart row = .ok e') : e'.Calm room := by
  unfold Encoder.take at taken
  split at taken
  · cases taken
    exact calm.skipRow
  · split at taken
    · exact calm.putSymmetricRow taken
    · exact calm.putRow taken

/-- A whole run never asks for more room, and warns of nothing by itself. -/
theorem calm_of_run {mode : ColumnMode} {symmetric : Bool} {p : Partition α}
    (ran : run mode symmetric room p = .ok e) : e.Calm room :=
  Calm.foldlM (fun _ _ _ calm taken => calm.take taken) ⟨rfl, List.forall_mem_nil _⟩ ran

end Encoder

namespace Tracked

theorem le_of_allocate {limit n size : Nat} (met : (allocate limit n size).1 = .ok ()) :
    n * size ≤ allocationLimit := by
  have limits : allocationLimit < wordLimit - 1 := by decide
  simp only [allocate, ite_eq_right_iff, reduceCtorEq, imp_false] at met
  omega

/-- A computation that warned of nothing. -/
def Quiet (x : Tracked β) : Prop := ∀ event ∈ x.2.events, event.level ≠ .warn

theorem quiet_of_events_eq_nil {x : Tracked β} (none : x.2.events = []) : x.Quiet := by
  rw [Quiet, none]
  exact List.forall_mem_nil _

theorem Quiet.bind {x : Tracked β} {f : β → Tracked γ} (first : x.Quiet)
    (rest : ∀ b, x.1 = .ok b → (f b).Quiet) : (x >>= f).Quiet := by
  rcases x with ⟨_ | b, progress⟩
  · exact first
  · exact List.forall_mem_append.mpr ⟨first, rest b rfl⟩

end Tracked

namespace Partition

variable [Stored α] {s : Settings} {limit : Nat} {symmetric : Bool} {p : Partition α}

/-- What is set aside by default is six bytes for each entry, if it can be had at all. -/
theorem le_reserved_of_hasRoom (room : p.HasRoom s limit)
    (six : s.factor = ({} : Settings).factor) : 6 * p.count ≤ p.reserved s := by
  have limits : allocationLimit < wordLimit - 1 := by decide
  have met := Tracked.le_of_allocate room.stream
  have factor : s.factor = 6 := six
  rw [reserved, factor] at met ⊢
  omega

/-- Encoding warns of nothing but a stream that outgrew what was set aside for it. -/
theorem quiet_encodeWith {e : Encoder α}
    (ran : Encoder.run s.mode symmetric (p.reserved s) p = .ok e)
    (fits : e.buffer.size ≤ p.reserved s) : (p.encodeWith s limit symmetric).Quiet := by
  have calm := Encoder.calm_of_run ran
  have within : ¬e.buffer.outgrown = true := by
    rw [Buffer.outgrown, calm.reserved, decide_eq_true_eq]
    exact Nat.not_lt_of_le fits
  unfold encodeWith
  refine .bind (Tracked.quiet_of_events_eq_nil rfl) fun _ _ =>
    .bind (Tracked.quiet_of_events_eq_nil rfl) fun _ _ => ?_
  rw [reserved] at ran
  simp only [ran]
  rw [if_neg within]
  refine .bind calm.quiet fun _ _ => ?_
  split
  · exact Tracked.quiet_of_events_eq_nil rfl
  split
  · exact Tracked.quiet_of_events_eq_nil rfl
  refine .bind ?_ fun _ _ => Tracked.quiet_of_events_eq_nil rfl
  simp [Tracked.Quiet, Tracked.note, Encoded.event, Event.level]

end Partition

/-- How long the stream of an encoded partition is. Six bytes for each entry suffice for all but the
row jumps of its units, which are read back from it. Where no row is empty there are no row jumps, and
by default the stream fits what was set aside for it, so that encoding warns of nothing. -/
structure Encoded.Compact (m : Encoded α) (s : Settings) (p : Partition α) (events : List Event) :
    Prop where
  size : ∃ us, m.units = (us, none) ∧
    m.ctl.size ≤ 6 * p.count + total (us.map StreamUnit.jumpLength)
  filled : p.Filled → m.ctl.size ≤ 6 * p.count
  inRoom : p.Filled → s.factor = ({} : Settings).factor →
    m.ctl.size ≤ p.reserved s ∧ ∀ event ∈ events, event.level ≠ .warn

theorem Partition.compact_of_encodeWith [Stored α] {s : Settings} {limit : Nat} {symmetric : Bool}
    {p : Partition α} {m : Encoded α} (sound : p.Sound) (rows : p.nRows < wordLimit)
    (short : p.nCols ≤ s.mode.shortColumns)
    (encoded : (p.encodeWith s limit symmetric).1 = .ok m) :
    m.Compact s p (p.encodeWith s limit symmetric).2.events := by
  have counts : Piece.CountsAs Piece.size (Element.count (α := α)) 1 :=
    ⟨fun _ => (Nat.one_mul _).symm, fun _ _ => rfl, fun _ _ _ => rfl⟩
  have entries := (p.total_layout counts symmetric).trans sound.count
  have bytes : (Layout.bytes s.mode (p.layout symmetric)).length
      ≤ 6 * total ((p.layout symmetric).map fun x => x.piece.size)
        + total ((Layout.units s.mode (p.layout symmetric)).map StreamUnit.jumpLength) :=
    Layout.length_bytesAfter_le 0 fun x member => (inside_of_mem_layout sound member).mono short
  rw [entries, ← (holds_of_encodeWith sound encoded).ctl, Array.length_toList] at bytes
  have few : p.Filled → m.ctl.size ≤ 6 * p.count := by
    intro filled
    have adjacent : Layout.Adjacent (Layout.lastRow []) (p.layout symmetric) :=
      filled.adjacent_layout symmetric
    have none : total ((Layout.units s.mode (p.layout symmetric)).map StreamUnit.jumpLength) = 0 :=
      Layout.total_jumpLength adjacent.rowJump
    omega
  refine ⟨⟨_, units_of_encodeWith sound rows encoded, bytes⟩, few, ?_⟩
  intro filled six
  obtain ⟨room, e, ran, rfl⟩ := exists_run_of_encodeWith sound encoded
  have fits := Nat.le_trans (few filled) (le_reserved_of_hasRoom room six)
  exact ⟨fits, quiet_encodeWith ran fits⟩

/-- Streams are short, whatever the units that rows are cut into: those of accepted partitions and
those of the lower triangles of accepted symmetric partitions, as long as columns take four bytes
at most. -/
theorem compact_of_encode [Zero α] [Stored α] (s : Settings) (limit : Nat) :
    (∀ (p : Partition α) (m : Encoded α), p.Accepted → p.nRows < wordLimit →
      p.nCols ≤ s.mode.shortColumns → (p.encode s limit).1 = .ok m →
      m.Compact s p (p.encode s limit).2.events) ∧
    (∀ (p : SymmetricPartition α) (m : EncodedSymmetric α), p.Accepted →
      p.lower.nRows < wordLimit → p.lower.nCols ≤ s.mode.shortColumns →
      (p.encode s limit).1 = .ok m → m.lower.Compact s p.lower (p.encode s limit).2.events) := by
  constructor
  · intro p m accepted rows short encoded
    exact Partition.compact_of_encodeWith accepted.sound rows short encoded
  · intro p m accepted rows short encoded
    obtain ⟨lower, below, rfl⟩ := SymmetricPartition.exists_below_of_encode encoded
    have compact := Partition.compact_of_encodeWith accepted.lower.sound rows short below
    refine { compact with inRoom := fun filled six => ?_ }
    obtain ⟨fits, quiet⟩ := compact.inRoom filled six
    refine ⟨fits, ?_⟩
    have all : (p.encode s limit).Quiet :=
      .bind (Tracked.quiet_of_events_eq_nil rfl) fun _ _ => .bind quiet fun _ _ =>
        Tracked.quiet_of_events_eq_nil rfl
    exact all

/-- Two entries in the last column that four bytes take, with an empty row between them: the stream
is as long as it may be, one byte of it for the row jump. A symmetric partition without empty rows
stays within twelve bytes. -/
theorem compact_of_encode_last_columns :
    let p : Partition Int32 :=
      ⟨0, 268435456, 2, [[.plain 268435455 1], [], [.plain 268435455 2]], 0⟩
    let q : SymmetricPartition Int32 :=
      ⟨⟨5, 4294967296, 2, [[.plain 0 7], [.plain 5 8]], 0⟩, [1, 2]⟩
    (∃ m, (p.encode {} allocationLimit).1 = .ok m ∧
      m.Compact {} p (p.encode {} allocationLimit).2.events ∧ m.ctl.size = 13) ∧
    (∃ m, (q.encode { mode := .full } allocationLimit).1 = .ok m ∧ m.lower.ctl.size ≤ 12 ∧
      ∀ event ∈ (q.encode { mode := .full } allocationLimit).2.events, event.level ≠ .warn) := by
  intro p q
  have made : Partition.ofRows 0 268435456 p.rows = .ok p := rfl
  have accepted : p.Accepted := .rows (by decide) (by simp [p, Element.Admitted]) made
  have madeBelow : Partition.ofRows 5 4294967296 q.lower.rows = .ok q.lower := rfl
  have below : q.lower.Accepted := .rows (by decide) (by simp [q, Element.Admitted]) madeBelow
  have symmetric : q.Accepted :=
    .make below (rfl : SymmetricPartition.make q.lower [1, 2] = .ok q)
  constructor
  · have length : (p.encode {} allocationLimit).1.toOption.map (·.ctl.size) = some 13 := by
      decide +kernel
    cases encoded : (p.encode {} allocationLimit).1 with
    | error failure =>
      rw [encoded] at length
      contradiction
    | ok m =>
      rw [encoded] at length
      have compact := (compact_of_encode {} allocationLimit).1 p m accepted (by decide)
        (by decide) encoded
      exact ⟨m, rfl, compact, Option.some.inj length⟩
  · have succeeds : (q.encode { mode := .full } allocationLimit).1.isOk = true := by decide +kernel
    cases encoded : (q.encode { mode := .full } allocationLimit).1 with
    | error failure =>
      rw [encoded] at succeeds
      contradiction
    | ok m =>
      have compact := (compact_of_encode { mode := .full } allocationLimit).2 q m symmetric
        (by decide) (by decide) encoded
      have filled : q.lower.Filled := by simp [q, Partition.Filled]
      exact ⟨m, rfl, compact.filled filled, (compact.inRoom filled rfl).2⟩

end SparseStream
