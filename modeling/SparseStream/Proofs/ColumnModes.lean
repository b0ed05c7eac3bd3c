import SparseStream.Proofs.Contents
import SparseStream.Proofs.PlainRows

/-! The two column modes side by side. The pieces of a partition, and with them the flags, the
cursor and all other fields of its units, do not depend on how a column is written; full columns can
only be refused for their width. -/
namespace SparseStream

/-- Units that differ in nothing but their place in the stream. -/
def StreamUnit.Same (u v : StreamUnit) : Prop := { u with offset := v.offset } = v

/-- A unit around its column: the bytes on both sides of it, the column, and the column cursor that
it is counted from. -/
structure UnitFields where
  front : List UInt8
  cursor : Nat
  col : Nat
  back : List UInt8

/-- The bytes of a unit. The mode decides on those of its column alone. -/
def UnitFields.bytes (mode : ColumnMode) (x : UnitFields) : List UInt8 :=
  x.front ++ (match mode with
    | .jump => Varint.encode (x.col - x.cursor)
    | .full => littleEndian 4 x.col) ++ x.back

/-- A partition encoded with column jumps, and the same one with full columns. -/
structure Encoded.AgreesWith (jump full : Encoded α) : Prop where
  shape : jump.rowStart = full.rowStart ∧ jump.nRows = full.nRows ∧ jump.nCols = full.nCols ∧
    jump.count = full.count
  values : jump.values = full.values
  table : jump.table = full.table
  units : ∃ us vs, jump.units = (us, none) ∧ full.units = (vs, none) ∧
    List.Forall₂ StreamUnit.Same us vs ∧ ∃ fields : List UnitFields,
      fields.map UnitFields.col = us.map StreamUnit.col ∧
      jump.ctl.toList = fields.flatMap (UnitFields.bytes .jump) ∧
      full.ctl.toList = fields.flatMap (UnitFields.bytes .full)

namespace Layout

def fields (before : List Placed) (x : Placed) : UnitFields where
  front := Header.flags (flag before x) (newRow before x) (rowJump before x).isSome
    :: x.piece.size.toUInt8 :: jumpBytes before x
  cursor := cursor before x.row
  col := x.piece.col
  back := payload x

/-- The fields of further pieces. -/
def fieldsAfter (before : List Placed) : List Placed → List UnitFields
  | [] => []
  | x :: rest => fields before x :: fieldsAfter (before ++ [x]) rest

theorem bytesAfter_eq_flatMap (mode : ColumnMode) (before rest : List Placed) :
    bytesAfter mode before rest = (fieldsAfter before rest).flatMap (UnitFields.bytes mode) := by
  induction rest generalizing before with
  | nil => rfl
  | cons x rest ih =>
    have unit : unitBytes mode before x = (fields before x).bytes mode := by
      cases mode <;> simp [unitBytes, UnitFields.bytes, fields, columnBytes]
    rw [bytesAfter, fieldsAfter, List.flatMap_cons, ih, unit]

theorem map_col_fieldsAfter (mode : ColumnMode) (before : List Placed) (offset : Nat)
    (rest : List Placed) :
    (fieldsAfter before rest).map UnitFields.col
      = (unitsAfter mode before offset rest).map StreamUnit.col := by
  induction rest generalizing before offset with
  | nil => rfl
  | cons x rest ih =>
    rw [fieldsAfter, unitsAfter, List.map_cons, List.map_cons]
    exact congrArg _ (ih _ _)

/-- Units of the same pieces are the same, wherever the streams have got to. -/
theorem same_unitsAfter (mode mode' : ColumnMode) (before : List Placed) (offset offset' : Nat)
    (rest : List Placed) :
    List.Forall₂ StreamUnit.Same (unitsAfter mode before offset rest)
      (unitsAfter mode' before offset' rest) := by
  induction rest generalizing before offset offset' with
  | nil => exact .nil
  | cons x rest ih => exact .cons rfl (ih _ _ _)

/-- A unit that can be written with a column jump is refused a full column only for its width. -/
theorem refusal?_full {before : List Placed} {x : Placed} {error : Error}
    (accepted : refusal? .jump before x = none) (refused : refusal? .full before x = some error) :
    fullColumnLimit ≤ x.piece.col ∧ error = .columnTooWide x.piece.col := by
  obtain ⟨short, ahead, ordered, room, -⟩ := refusal?_eq_none_iff.mp accepted
  have used := not_used_up_iff.mpr room
  simp only [refusal?, if_neg (Nat.not_lt_of_le short), if_neg (Nat.not_lt_of_le ahead), ordered,
    openRefusal?, if_neg used, true_and] at refused
  split at refused
  · next wide =>
    cases refused
    exact ⟨wide, rfl⟩
  · contradiction

theorem firstRefusal?_full {before rest : List Placed} {error : Error}
    (accepted : firstRefusal? .jump before rest = none)
    (refused : firstRefusal? .full before rest = some error) :
    ∃ col, fullColumnLimit ≤ col ∧ error = .columnTooWide col := by
  induction rest generalizing before with
  | nil => contradiction
  | cons x rest ih =>
    rw [firstRefusal?, Option.or_eq_none_iff] at accepted
    rw [firstRefusal?, Option.or_eq_some_iff] at refused
    rcases refused with here | ⟨-, later⟩
    · exact ⟨_, refusal?_full accepted.1 here⟩
    · exact ih accepted.2 later

end Layout

/-- How the outcomes of encoding in the two column modes go together. -/
structure ModesAgree (R : β → β → Prop) (jump full : Except Failure β) : Prop where
  succeeds : ∀ b, full = .ok b → ∃ a, jump = .ok a
  tooWide : ∀ a failure, jump = .ok a → full = .error failure →
    ∃ col, fullColumnLimit ≤ col ∧ failure = .error (.columnTooWide col)
  same : ∀ a b, jump = .ok a → full = .ok b → R a b

theorem ModesAgree.map {R : β → β → Prop} {R' : γ → γ → Prop} {jump full : Except Failure β}
    {f : β → γ} (agree : ModesAgree R jump full) (respects : ∀ a b, R a b → R' (f a) (f b)) :
    ModesAgree R' (jump.map f) (full.map f) := by
  obtain ⟨succeeds, tooWide, same⟩ := agree
  cases jump with
  | error failure =>
    cases full with
    | error failure' => exact ⟨nofun, nofun, nofun⟩
    | ok b => exact absurd (succeeds b rfl) (by simp)
  | ok a =>
    refine ⟨fun _ _ => ⟨f a, rfl⟩, ?_, ?_⟩
    · intro _ failure _ failed
      cases full with
      | error failure' =>
        cases failed
        exact tooWide a failure rfl rfl
      | ok b => contradiction
    · rintro _ _ ⟨⟩ mapped
      cases full with
      | error failure' => contradiction
      | ok b =>
        cases mapped
        exact respects a b (same a b rfl rfl)

namespace Partition

theorem modesAgree [Stored α] {p : Partition α} (s : Settings) (limit : Nat) (symmetric : Bool)
    (sound : p.Sound) (rows : p.nRows < wordLimit) :
    ModesAgree Encoded.AgreesWith (p.encodeWith { s with mode := .jump } limit symmetric).1
      (p.encodeWith { s with mode := .full } limit symmetric).1 := by
  constructor
  · intro full encoded
    obtain ⟨room, -⟩ := exists_run_of_encodeWith sound encoded
    have can := (encodeWith_outcome symmetric sound room).1.mp ⟨full, encoded⟩
    -- neither request for memory depends on the mode
    have room' : p.HasRoom { s with mode := .jump } limit := ⟨room.stream, room.values⟩
    exact (encodeWith_outcome symmetric sound room').1.mpr
      ⟨can.sizes, can.order, can.kinds, nofun⟩
  · intro jump failure encoded failed
    obtain ⟨room, -⟩ := exists_run_of_encodeWith sound encoded
    have accepted := (holds_of_encodeWith sound encoded).accepted
    have room' : p.HasRoom { s with mode := .full } limit := ⟨room.stream, room.values⟩
    obtain ⟨error, rfl, refused, -⟩ := (encodeWith_outcome symmetric sound room').2 failure failed
    obtain ⟨col, wide, rfl⟩ := Layout.firstRefusal?_full accepted refused
    exact ⟨col, wide, rfl⟩
  · intro jump full encoded encoded'
    have holds := holds_of_encodeWith sound encoded
    have holds' := holds_of_encodeWith sound encoded'
    obtain ⟨start, count, width⟩ := shape_of_encodeWith sound encoded
    obtain ⟨start', count', width'⟩ := shape_of_encodeWith sound encoded'
    have bytes := fun mode => Layout.bytesAfter_eq_flatMap mode [] (p.layout symmetric)
    refine ⟨⟨start.trans start'.symm, count.trans count'.symm, width.trans width'.symm,
      holds.count.trans holds'.count.symm⟩, ?_, holds.table.trans holds'.table.symm, ?_⟩
    · exact Array.toList_inj.mp (holds.values.trans holds'.values.symm)
    · exact ⟨_, _, units_of_encodeWith sound rows encoded, units_of_encodeWith sound rows encoded',
        Layout.same_unitsAfter .jump .full [] 0 0 _, Layout.fieldsAfter [] (p.layout symmetric),
        Layout.map_col_fieldsAfter .jump [] 0 _, holds.ctl.trans (bytes .jump),
        holds'.ctl.trans (bytes .full)⟩

end Partition

/-- An accepted partition that can be encoded with full columns can be encoded with column jumps. If
only the jumps work, the other failure is a column that does not fit its field. If both do, the
values, the table and the units are the same, and the bytes differ in the columns alone. The same
goes for symmetric partitions. -/
theorem encode_modes_agree [Zero α] [Stored α] (s : Settings) (limit : Nat) :
    (∀ p : Partition α, p.Accepted → p.nRows < wordLimit →
      ModesAgree Encoded.AgreesWith (p.encode { s with mode := .jump } limit).1
        (p.encode { s with mode := .full } limit).1) ∧
    (∀ p : SymmetricPartition α, p.Accepted → p.lower.nRows < wordLimit →
      ModesAgree (fun a b => a.diagonal = b.diagonal ∧ a.lower.AgreesWith b.lower)
        (p.encode { s with mode := .jump } limit).1
        (p.encode { s with mode := .full } limit).1) := by
  constructor
  · intro p accepted rows
    exact Partition.modesAgree s limit false accepted.sound rows
  · intro p accepted rows
    rw [SymmetricPartition.fst_encode_eq_map, SymmetricPartition.fst_encode_eq_map]
    cases (Tracked.allocate limit p.diagonal.length (Stored.bytes α)).1 with
    | error failure => exact ⟨nofun, nofun, nofun⟩
    | ok u =>
      have below := Partition.modesAgree s limit true accepted.lower.sound rows
      exact below.map fun a b agree => ⟨rfl, agree⟩

/-- A column of more than four bytes can be reached by a jump only; a symmetric partition with narrow
columns is the same in both modes. -/
theorem encode_modes_agree_on_narrow_columns :
    let p : Partition Int32 := ⟨0, 4294967297, 2, [[.plain 1 10], [.plain 4294967296 20]], 0⟩
    let q : SymmetricPartition Int32 := ⟨⟨5, 10, 2, [[.plain 1 7], [.plain 5 8]], 0⟩, [1, 2]⟩
    (∃ col, fullColumnLimit ≤ col ∧
      (p.encode { mode := .full } allocationLimit).1 = .error (.error (.columnTooWide col))) ∧
    ∃ a b, (q.encode { mode := .jump } allocationLimit).1 = .ok a ∧
      (q.encode { mode := .full } allocationLimit).1 = .ok b ∧ a.lower.AgreesWith b.lower := by
  intro p q
  have made : Partition.ofRows 0 4294967297 p.rows = .ok p := rfl
  have accepted : p.Accepted := .rows (by decide) (by simp [p, Element.Admitted]) made
  have madeBelow : Partition.ofRows 5 10 q.lower.rows = .ok q.lower := rfl
  have below : q.lower.Accepted := .rows (by decide) (by simp [q, Element.Admitted]) madeBelow
  have symmetric : q.Accepted :=
    .make below (rfl : SymmetricPartition.make q.lower [1, 2] = .ok q)
  constructor
  · have agree := (encode_modes_agree {} allocationLimit).1 p accepted (by decide)
    obtain ⟨a, jumps⟩ := exists_ok_of_isOk
      (by decide +kernel : (p.encode { mode := .jump } allocationLimit).1.isOk = true)
    have refused : (p.encode { mode := .full } allocationLimit).1.isOk = false := by decide +kernel
    cases failed : (p.encode { mode := .full } allocationLimit).1 with
    | error failure =>
      obtain ⟨col, wide, rfl⟩ := agree.tooWide a failure jumps failed
      exact ⟨col, wide, rfl⟩
    | ok b =>
      rw [failed] at refused
      cases refused
  · have agree := (encode_modes_agree {} allocationLimit).2 q symmetric (by decide)
    obtain ⟨b, encoded⟩ := exists_ok_of_isOk
      (by decide +kernel : (q.encode { mode := .full } allocationLimit).1.isOk = true)
    obtain ⟨a, jumps⟩ := agree.succeeds b encoded
    exact ⟨a, b, jumps, encoded, (agree.same a b jumps encoded).2⟩

end SparseStream
