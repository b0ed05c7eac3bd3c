import SparseStream.Proofs.Flags
import SparseStream.Proofs.Grammar

/-! The bytes of a layout are its units. Nothing that is refused while a layout is written is needed
to read it back; rows and columns only have to be words. -/
namespace SparseStream

/-- Rows and columns of a piece are words. -/
structure Placed.Sound (x : Placed) : Prop where
  covers : 1 ≤ x.piece.size
  row : x.row < wordLimit
  last : x.piece.last < wordLimit

namespace Layout

/-- Where the reader of a layout stands. -/
def reached (before : List Placed) : Position :=
  ⟨lastRow before, (before.getLast?.map (·.piece.last)).getD 0⟩

@[simp] theorem reached_snoc (before : List Placed) (x : Placed) :
    reached (before ++ [x]) = ⟨x.row, x.piece.last⟩ := by
  simp [reached]

/-- The cursor of the reader is that of the layout, on a new row as well as on the same one. -/
theorem cursor_reached (before : List Placed) (x : Placed) :
    (if newRow before x then 0 else (reached before).cursor) = cursor before x.row := by
  cases found : before.getLast? with
  | none => simp [reached, cursor, found]
  | some y =>
    by_cases same : x.row = y.row
    · simp [reached, newRow, lastRow, cursor, found, same]
    · simp [newRow, lastRow, cursor, found, same, Ne.symm same]

theorem spellsRow_unit {before : List Placed} {x : Placed} (small : flag before x < 64)
    (forward : lastRow before ≤ x.row) (word : x.row < wordLimit) :
    SpellsRow (Header.flags (flag before x) (newRow before x) (rowJump before x).isSome)
      (lastRow before) (jumpBytes before x) (rowJump before x) x.row := by
  have starts := Header.startsRow_flags small (newRow before x) (rowJump before x).isSome
  have marked := Header.hasJump_flags small (newRow before x) (rowJump before x).isSome
  generalize Header.flags _ _ _ = flags at starts marked ⊢
  by_cases near : x.row ≤ lastRow before + 1
  · have jump : rowJump before x = none := if_pos near
    rw [jump] at marked
    simp only [jumpBytes, jump]
    by_cases same : x.row = lastRow before
    · rw [newRow, decide_eq_false (not_not_intro same)] at starts
      exact same ▸ .same starts marked
    · have next : x.row = lastRow before + 1 := by omega
      rw [newRow, decide_eq_true same] at starts
      exact next ▸ .next starts marked (next ▸ word)
  · have jump : rowJump before x = some (x.row - lastRow before) := if_neg near
    have reach : lastRow before + (x.row - lastRow before) = x.row := Nat.add_sub_cancel' forward
    have starting : x.row ≠ lastRow before := by omega
    rw [newRow, decide_eq_true starting] at starts
    rw [jump] at marked
    have spelled : SpellsRow flags (lastRow before) _ (some (x.row - lastRow before)) _ :=
      .jump starts marked (spellsNumber_encode (x.row - lastRow before) (by omega)) (by omega)
    rw [reach] at spelled
    simpa only [jumpBytes, jump] using spelled

theorem spellsColumn_unit {mode : ColumnMode} {before : List Placed} {x : Placed}
    (forward : cursor before x.row ≤ x.piece.col) (word : x.piece.col < wordLimit)
    (narrow : mode = .full → x.piece.col < fullColumnLimit) :
    SpellsColumn (cursor before x.row) mode (columnBytes mode before x) x.piece.col := by
  cases mode with
  | full =>
    have value : ofLittleEndian (littleEndian 4 x.piece.col) = x.piece.col :=
      (ofLittleEndian_littleEndian 4 _).trans (Nat.mod_eq_of_lt (narrow rfl))
    have spelled : SpellsColumn (cursor before x.row) .full _ _ :=
      .full (length_littleEndian 4 x.piece.col)
    rwa [value] at spelled
  | jump =>
    have spelled : SpellsColumn (cursor before x.row) .jump _ _ :=
      .jump (spellsNumber_encode (x.piece.col - cursor before x.row) (by omega)) (by omega)
    rwa [Nat.add_sub_cancel' forward] at spelled

theorem spellsPayload_unit {x : Placed} (sound : x.Sound) (ordered : x.piece.decrease? = none) :
    SpellsPayload x.piece.size x.piece.col x.piece.kind (payload x) x.piece.deltas := by
  obtain ⟨covers, -, last⟩ := sound
  rcases x with ⟨row, cols | ⟨col, p⟩⟩
  · have nonempty : cols ≠ [] := List.ne_nil_of_length_pos covers
    have reach := Piece.col_add_total_deltas cols nonempty ordered
    rw [← reach] at last
    exact .run (Piece.length_deltas cols nonempty)
      (Piece.narrowest_classify_deltas (by omega)).holds last
  · exact .pattern last

/-- One piece that is not refused is read back from its bytes. -/
theorem spellsUnit_unit {mode : ColumnMode} {before : List Placed} {x : Placed} (rest : List Placed)
    (offset : Nat) (sound : x.Sound) (forward : lastRow before ≤ x.row)
    (few : (kinds before).length ≤ Header.maxFlag) (accepted : refusal? mode before x = none) :
    SpellsUnit (table (before ++ x :: rest)) mode (reached before) offset (unitBytes mode before x)
      (unit before offset x) := by
  obtain ⟨short, ahead, ordered, room, narrow⟩ := refusal?_eq_none_iff.mp accepted
  have small := flag_lt few room
  have size := toNat_toUInt8 x.piece.size (Nat.lt_succ_of_le short)
  have col := Nat.lt_of_le_of_lt (x.piece.col_le_last sound.covers ordered) sound.last
  have starts := Header.startsRow_flags small (newRow before x) (rowJump before x).isSome
  have spelledRow := spellsRow_unit small forward sound.row
  have spelledColumn := spellsColumn_unit ahead col narrow
  have spelledPayload := spellsPayload_unit sound ordered
  have known := kind?_flag before rest x
  rw [← cursor_reached, ← starts] at spelledColumn
  rw [← size] at spelledPayload
  rw [← Header.flag_flags small (newRow before x) (rowJump before x).isSome] at known
  have spelled : SpellsUnit _ _ _ offset _ _ :=
    .intro known (by rw [size]; exact sound.covers) spelledRow spelledColumn spelledPayload
  rwa [size, starts, Header.flag_flags small] at spelled

theorem next_unit (before : List Placed) (offset : Nat) (x : Placed) (covers : 1 ≤ x.piece.size)
    (ordered : x.piece.decrease? = none) :
    (unit before offset x).next = reached (before ++ [x]) := by
  rw [reached_snoc]
  rcases x with ⟨row, cols | ⟨col, p⟩⟩
  · exact congrArg _ (Piece.col_add_total_deltas cols (List.ne_nil_of_length_pos covers) ordered)
  · rfl

/-- Rows never go back. -/
abbrev Forward (layout : List Placed) : Prop := layout.Pairwise fun x y => x.row ≤ y.row

theorem lastRow_le {before rest : List Placed} {x : Placed}
    (forward : Forward (before ++ x :: rest)) : lastRow before ≤ x.row := by
  unfold lastRow
  cases found : before.getLast? with
  | none => exact Nat.zero_le _
  | some y =>
    exact (List.pairwise_append.mp forward).2.2 y (List.mem_of_getLast? found) x
      (List.mem_cons_self ..)

/-- What remains of a layout is read back from its bytes when none of it is refused. -/
theorem spellsUnits_bytesAfter {mode : ColumnMode} {before rest : List Placed} (offset : Nat)
    (sound : ∀ x ∈ rest, x.Sound) (forward : Forward (before ++ rest))
    (few : (kinds before).length ≤ Header.maxFlag)
    (accepted : firstRefusal? mode before rest = none) :
    SpellsUnits (table (before ++ rest)) mode (reached before) offset
      (bytesAfter mode before rest) (unitsAfter mode before offset rest) := by
  induction rest generalizing before offset with
  | nil => exact .nil
  | cons x rest ih =>
    simp only [firstRefusal?, Option.or_eq_none_iff] at accepted
    rw [List.forall_mem_cons] at sound
    obtain ⟨-, -, ordered, room, -⟩ := refusal?_eq_none_iff.mp accepted.1
    have first := spellsUnit_unit rest offset sound.1 (lastRow_le forward) few accepted.1
    rw [List.append_cons] at forward
    have more := ih (offset + (unitBytes mode before x).length) sound.2 forward
      (length_kinds_snoc_le few room) accepted.2
    rw [List.append_assoc, List.singleton_append,
      ← next_unit before offset x sound.1.covers ordered] at more
    exact .cons first more

/-- A layout that is not refused is read back from its bytes unit by unit. -/
theorem units_bytes {mode : ColumnMode} {layout : List Placed} (sound : ∀ x ∈ layout, x.Sound)
    (forward : Forward layout) (accepted : firstRefusal? mode [] layout = none) :
    SparseStream.units (table layout) mode (bytes mode layout) = (units mode layout, none) :=
  (unitsFrom_eq_iff ..).mpr
    (@spellsUnits_bytesAfter mode [] layout 0 sound forward (Nat.zero_le _) accepted)

/-- The runs of a layout that is not refused are packed at the narrowest width there is for them. -/
theorem narrowest_of_mem_unitsAfter {mode : ColumnMode} {before rest : List Placed} {offset : Nat}
    (sound : ∀ x ∈ rest, x.Sound) (accepted : firstRefusal? mode before rest = none) :
    ∀ u ∈ unitsAfter mode before offset rest, ∀ w, u.kind = .run w → w.Narrowest u.deltas := by
  induction rest generalizing before offset with
  | nil => exact fun u member => absurd member List.not_mem_nil
  | cons x rest ih =>
    rw [firstRefusal?, Option.or_eq_none_iff] at accepted
    rw [List.forall_mem_cons] at sound
    refine List.forall_mem_cons.mpr ⟨?_, ih sound.2 accepted.2⟩
    intro w run
    obtain ⟨-, -, ordered, -⟩ := refusal?_eq_none_iff.mp accepted.1
    obtain ⟨covers, -, last⟩ := sound.1
    rcases x with ⟨row, cols | ⟨col, p⟩⟩
    · cases run
      have reach := Piece.col_add_total_deltas cols (List.ne_nil_of_length_pos covers) ordered
      rw [← reach] at last
      exact Piece.narrowest_classify_deltas (by omega)
    · contradiction

theorem narrowest_of_mem_units {mode : ColumnMode} {layout : List Placed}
    (sound : ∀ x ∈ layout, x.Sound) (accepted : firstRefusal? mode [] layout = none) :
    ∀ u ∈ units mode layout, ∀ w, u.kind = .run w → w.Narrowest u.deltas :=
  narrowest_of_mem_unitsAfter sound accepted

end Layout
end SparseStream
