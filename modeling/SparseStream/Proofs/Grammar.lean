import SparseStream.Proofs.Fields
import SparseStream.StreamUnit
import SparseStream.Sums

/-! The grammar of a stream, as a relation between bytes and the units that they spell. Reading
succeeds exactly on concatenations of spelled units and reports the fields that were spelled. -/
namespace SparseStream

/-- The last column that a unit covers on its own row: the sum of all steps of a run, the anchor
of a pattern moved by its advance. -/
def StreamUnit.last (u : StreamUnit) : Nat :=
  match u.kind with
  | .run _ => u.col + total u.deltas
  | .pattern shape => u.col + shape.advance u.size

/-- Where the unit after this one starts from. -/
def StreamUnit.next (u : StreamUnit) : Position := ⟨u.row, u.last⟩

/-- The row jump of a unit, and its row after the row before. -/
inductive SpellsRow (flags : UInt8) (row : Nat) : List UInt8 → Option Nat → Nat → Prop
  | same : Header.startsRow flags = false → Header.hasJump flags = false →
      SpellsRow flags row [] none row
  | next : Header.startsRow flags = true → Header.hasJump flags = false → row + 1 < wordLimit →
      SpellsRow flags row [] none (row + 1)
  | jump {bytes : List UInt8} {n : Nat} : Header.startsRow flags = true →
      Header.hasJump flags = true → SpellsNumber bytes n → row + n < wordLimit →
      SpellsRow flags row bytes (some n) (row + n)

/-- The column of a unit, for the column cursor before it. -/
inductive SpellsColumn (cursor : Nat) : ColumnMode → List UInt8 → Nat → Prop
  | full {bytes : List UInt8} : bytes.length = 4 →
      SpellsColumn cursor .full bytes (ofLittleEndian bytes)
  | jump {bytes : List UInt8} {n : Nat} : SpellsNumber bytes n → cursor + n < wordLimit →
      SpellsColumn cursor .jump bytes (cursor + n)

/-- What follows the column: the packed differences of a run, and nothing for a pattern. -/
inductive SpellsPayload (size col : Nat) : Kind → List UInt8 → List Nat → Prop
  | run {w : Width} {deltas : List Nat} : deltas.length + 1 = size → (∀ d ∈ deltas, d < w.limit) →
      col + total deltas < wordLimit →
      SpellsPayload size col (.run w) (deltas.flatMap w.pack) deltas
  | pattern {shape : Shape} : col + shape.advance size < wordLimit →
      SpellsPayload size col (.pattern shape) [] []

/-- The bytes of one unit at an offset, read from a position on. -/
inductive SpellsUnit (table : KindTable) (mode : ColumnMode) (here : Position) (offset : Nat) :
    List UInt8 → StreamUnit → Prop
  | intro {flags size : UInt8} {jump column payload : List UInt8} {kind : Kind}
      {rowJump : Option Nat} {row col : Nat} {deltas : List Nat} :
      table.kind? (Header.flag flags) = some kind → 1 ≤ size.toNat →
      SpellsRow flags here.row jump rowJump row →
      SpellsColumn (if Header.startsRow flags then 0 else here.cursor) mode column col →
      SpellsPayload size.toNat col kind payload deltas →
      SpellsUnit table mode here offset (flags :: size :: (jump ++ column ++ payload))
        ⟨offset, Header.flag flags, kind, size.toNat, Header.startsRow flags, rowJump, row, col,
          deltas⟩

/-- A stretch of bytes as units one after another, each read from where the one before it ended. -/
inductive SpellsUnits (table : KindTable) (mode : ColumnMode) :
    Position → Nat → List UInt8 → List StreamUnit → Prop
  | nil {here : Position} {offset : Nat} : SpellsUnits table mode here offset [] []
  | cons {here : Position} {offset : Nat} {bytes rest : List UInt8} {u : StreamUnit}
      {us : List StreamUnit} : SpellsUnit table mode here offset bytes u →
      SpellsUnits table mode u.next (offset + bytes.length) rest us →
      SpellsUnits table mode here offset (bytes ++ rest) (u :: us)

theorem advanceColumn_eq_ok_iff {offset col step next : Nat} :
    advanceColumn offset col step = .ok next ↔ col + step < wordLimit ∧ next = col + step := by
  unfold advanceColumn
  by_cases word : col + step < wordLimit
  · simp [word, eq_comm]
  · simp [word]

theorem advanceRow_eq_ok_iff {offset row jump next : Nat} :
    advanceRow offset row jump = .ok next ↔ row + jump < wordLimit ∧ next = row + jump := by
  unfold advanceRow
  by_cases word : row + jump < wordLimit
  · simp [word, eq_comm]
  · simp [word]

theorem readJump_eq_ok_iff {flags : UInt8} {r r' : Reader} {jump : Option Nat} :
    readJump flags r = .ok (jump, r') ↔
      (Header.hasJump flags = false ∧ jump = none ∧ r.Before [] r') ∨
      (Header.hasJump flags = true ∧ ∃ bytes n, jump = some n ∧ SpellsNumber bytes n ∧
        r.Before bytes r') := by
  unfold readJump
  cases Header.hasJump flags with
  | true =>
    simp only [ite_true, bind_eq_ok, Prod.exists, pure, Except.pure, Except.ok.injEq,
      Prod.mk.injEq, Reader.varint_eq_ok_iff, Bool.true_eq_false, false_and, true_and, false_or]
    constructor
    · rintro ⟨n, _, ⟨bytes, spells, before⟩, rfl, rfl⟩
      exact ⟨bytes, n, rfl, spells, before⟩
    · rintro ⟨bytes, n, rfl, spells, before⟩
      exact ⟨n, r', ⟨bytes, spells, before⟩, rfl, rfl⟩
  | false =>
    simp only [Bool.false_eq_true, ite_false, Except.ok.injEq, Prod.mk.injEq, false_and, or_false,
      true_and]
    constructor
    · rintro ⟨rfl, rfl⟩
      exact ⟨rfl, .refl r⟩
    · rintro ⟨rfl, before⟩
      exact ⟨rfl, (Reader.Before.refl r).unique before⟩

theorem readRow_eq_ok_iff {flags : UInt8} {offset row row' : Nat} {r r' : Reader}
    {jump : Option Nat} :
    readRow flags offset row r = .ok (jump, row', r') ↔
      ∃ bytes, SpellsRow flags row bytes jump row' ∧ r.Before bytes r' := by
  unfold readRow
  split
  · rename_i starts
    simp only [bind_eq_ok, Prod.exists, pure, Except.pure, Except.ok.injEq, Prod.mk.injEq,
      readJump_eq_ok_iff, advanceRow_eq_ok_iff]
    constructor
    · rintro ⟨_, _, ⟨plain, rfl, before⟩ | ⟨marked, bytes, n, rfl, spells, before⟩, _, ⟨word, rfl⟩,
        rfl, rfl, rfl⟩
      · exact ⟨[], .next starts plain word, before⟩
      · exact ⟨bytes, .jump starts marked spells word, before⟩
    · rintro ⟨bytes, row, before⟩
      cases row with
      | same plain => simp [starts] at plain
      | next _ plain word =>
        exact ⟨none, r', .inl ⟨plain, rfl, before⟩, _, ⟨word, rfl⟩, rfl, rfl, rfl⟩
      | jump _ marked spells word =>
        exact ⟨some _, r', .inr ⟨marked, bytes, _, rfl, spells, before⟩, _, ⟨word, rfl⟩, rfl, rfl,
          rfl⟩
  · rename_i plain
    rw [Bool.not_eq_true] at plain
    split
    · rename_i marked
      simp only [reduceCtorEq, false_iff]
      rintro ⟨bytes, row, -⟩
      cases row <;> simp_all
    · rename_i unmarked
      rw [Bool.not_eq_true] at unmarked
      simp only [Except.ok.injEq, Prod.mk.injEq]
      constructor
      · rintro ⟨rfl, rfl, rfl⟩
        exact ⟨[], .same plain unmarked, .refl r⟩
      · rintro ⟨bytes, row, before⟩
        cases row with
        | same => exact ⟨rfl, rfl, (Reader.Before.refl r).unique before⟩
        | next starts => simp [plain] at starts
        | jump starts => simp [plain] at starts

theorem readColumn_eq_ok_iff {mode : ColumnMode} {offset cursor col : Nat} {r r' : Reader} :
    readColumn mode offset cursor r = .ok (col, r') ↔
      ∃ bytes, SpellsColumn cursor mode bytes col ∧ r.Before bytes r' := by
  cases mode with
  | full =>
    rw [readColumn, Reader.fullColumn_eq_ok_iff]
    constructor
    · rintro ⟨bytes, length, rfl, before⟩
      exact ⟨bytes, .full length, before⟩
    · rintro ⟨bytes, column, before⟩
      cases column with
      | full length => exact ⟨bytes, length, rfl, before⟩
  | jump =>
    simp only [readColumn, bind_eq_ok, Prod.exists, pure, Except.pure, Except.ok.injEq,
      Prod.mk.injEq, Reader.varint_eq_ok_iff, advanceColumn_eq_ok_iff]
    constructor
    · rintro ⟨n, _, ⟨bytes, spells, before⟩, _, ⟨word, rfl⟩, rfl, rfl⟩
      exact ⟨bytes, .jump spells word, before⟩
    · rintro ⟨bytes, column, before⟩
      cases column with
      | jump spells word => exact ⟨_, r', ⟨bytes, spells, before⟩, _, ⟨word, rfl⟩, rfl, rfl⟩

/-- The differences of a run are read as long as the column that they lead to stays a word. -/
theorem readDeltas_eq_ok_iff {offset n col last : Nat} {w : Width} {r r' : Reader}
    {deltas : List Nat} (word : col < wordLimit) :
    readDeltas offset w n col r = .ok (deltas, last, r') ↔
      deltas.length = n ∧ (∀ d ∈ deltas, d < w.limit) ∧ col + total deltas < wordLimit ∧
        last = col + total deltas ∧ r.Before (deltas.flatMap w.pack) r' := by
  induction n generalizing col r deltas with
  | zero =>
    simp only [readDeltas, Except.ok.injEq, Prod.mk.injEq]
    constructor
    · rintro ⟨rfl, rfl, rfl⟩
      exact ⟨rfl, by simp, word, rfl, .refl r⟩
    · rintro ⟨length, -, -, rfl, before⟩
      cases List.eq_nil_of_length_eq_zero length
      exact ⟨rfl, rfl, (Reader.Before.refl r).unique before⟩
  | succ n ih =>
    simp only [readDeltas, bind_eq_ok, Prod.exists, pure, Except.pure, Except.ok.injEq,
      Prod.mk.injEq, Reader.packed_eq_ok_iff, advanceColumn_eq_ok_iff]
    constructor
    · rintro ⟨d, r₁, ⟨fits, first⟩, _, ⟨next, rfl⟩, ds, _, _, more, rfl, rfl, rfl⟩
      obtain ⟨rfl, fit, below, rfl, after⟩ := (ih next).mp more
      rw [total_cons, List.flatMap_cons, List.forall_mem_cons, ← Nat.add_assoc]
      exact ⟨rfl, ⟨fits, fit⟩, below, rfl, first.trans after⟩
    · rintro ⟨length, fit, below, rfl, before⟩
      cases deltas with
      | nil => simp at length
      | cons d ds =>
        rw [List.length_cons] at length
        rw [List.forall_mem_cons] at fit
        rw [total_cons, ← Nat.add_assoc] at below
        rw [List.flatMap_cons] at before
        let r₁ : Reader := ⟨r.offset + (w.pack d).length, ds.flatMap w.pack ++ r'.rest⟩
        have first : r.Before (w.pack d) r₁ := ⟨by rw [before.rest, List.append_assoc], rfl⟩
        have after : r₁.Before (ds.flatMap w.pack) r' :=
          ⟨rfl, by rw [before.offset, List.length_append, Nat.add_assoc]⟩
        have next : col + d < wordLimit := by omega
        have more := (ih next).mpr ⟨Nat.succ.inj length, fit.2, below,
          (Nat.add_assoc col d (total ds)).symm, after⟩
        exact ⟨d, r₁, ⟨fit.1, first⟩, col + d, ⟨next, rfl⟩, ds, _, r', more, rfl, rfl, rfl⟩

theorem SpellsColumn.lt_wordLimit {cursor col : Nat} {mode : ColumnMode} {bytes : List UInt8}
    (column : SpellsColumn cursor mode bytes col) : col < wordLimit := by
  cases column with
  | full length =>
    have small := ofLittleEndian_lt bytes
    rw [length] at small
    exact Nat.lt_trans small (by decide)
  | jump _ word => exact word

theorem readPayload_eq_ok_iff {kind : Kind} {offset size col cursor : Nat} {r r' : Reader}
    {deltas : List Nat} (word : col < wordLimit) (covers : 1 ≤ size) :
    readPayload kind offset size col r = .ok (deltas, cursor, r') ↔
      ∃ bytes, SpellsPayload size col kind bytes deltas ∧ r.Before bytes r' ∧
        cursor = match kind with
          | .run _ => col + total deltas
          | .pattern shape => col + shape.advance size := by
  cases kind with
  | run w =>
    rw [readPayload, readDeltas_eq_ok_iff word]
    constructor
    · rintro ⟨length, fit, below, last, before⟩
      exact ⟨_, .run (by omega) fit below, before, last⟩
    · rintro ⟨bytes, payload, before, last⟩
      cases payload with
      | run length fit below => exact ⟨by omega, fit, below, last, before⟩
  | pattern shape =>
    simp only [readPayload, bind_eq_ok, pure, Except.pure, Except.ok.injEq, Prod.mk.injEq,
      advanceColumn_eq_ok_iff]
    constructor
    · rintro ⟨_, ⟨below, rfl⟩, rfl, rfl, rfl⟩
      exact ⟨[], .pattern below, .refl r, rfl⟩
    · rintro ⟨bytes, payload, before, rfl⟩
      cases payload with
      | pattern below => exact ⟨_, ⟨below, rfl⟩, rfl, rfl, (Reader.Before.refl r).unique before⟩

theorem readKind_eq_ok_iff {table : KindTable} {offset : Nat} {flags size : UInt8} {kind : Kind} :
    readKind table offset flags size = .ok kind ↔
      table.kind? (Header.flag flags) = some kind ∧ 1 ≤ size.toNat := by
  have zero : size = 0 ↔ size.toNat = 0 := by rw [← UInt8.toNat_inj]; rfl
  unfold readKind
  cases table.kind? (Header.flag flags) with
  | none => simp
  | some found =>
    by_cases empty : size = 0
    · simp [empty]
    · have covers : 1 ≤ size.toNat := Nat.one_le_iff_ne_zero.mpr (mt zero.mpr empty)
      simp [empty, covers]

/-- Reading one unit: it succeeds on the bytes that spell a unit and reports what they spell. -/
theorem readUnit_eq_ok_iff {table : KindTable} {mode : ColumnMode} {here next : Position}
    {u : StreamUnit} {r r' : Reader} :
    readUnit table mode here r = .ok (u, next, r') ↔
      ∃ bytes, SpellsUnit table mode here r.offset bytes u ∧ next = u.next ∧ r.Before bytes r' := by
  simp only [readUnit, bind_eq_ok, Prod.exists, pure, Except.pure, Except.ok.injEq, Prod.mk.injEq,
    Reader.byte_eq_ok_iff, readKind_eq_ok_iff, readRow_eq_ok_iff, readColumn_eq_ok_iff]
  constructor
  · rintro ⟨flags, _, first, size, _, second, kind, ⟨known, covers⟩, jump, row, _,
      ⟨jumpBytes, spellsRow, third⟩, col, _, ⟨columnBytes, spellsColumn, fourth⟩, deltas, cursor, _,
      payload, rfl, rfl, rfl⟩
    obtain ⟨payloadBytes, spellsPayload, fifth, rfl⟩ :=
      (readPayload_eq_ok_iff spellsColumn.lt_wordLimit covers).mp payload
    refine ⟨_, .intro known covers spellsRow spellsColumn spellsPayload, rfl, ?_⟩
    have before := (((first.trans second).trans third).trans fourth).trans fifth
    simpa only [List.cons_append, List.nil_append, List.append_assoc] using before
  · rintro ⟨bytes, spells, rfl, before⟩
    cases spells with
    | @intro flags size jump column payload kind rowJump row col deltas known covers spellsRow
        spellsColumn spellsPayload =>
      -- The readers between the fields are what remains of the bytes after each of them.
      let at₁ : Reader := ⟨r.offset + 1, size :: (jump ++ column ++ payload) ++ r'.rest⟩
      let at₂ : Reader := ⟨at₁.offset + 1, jump ++ column ++ payload ++ r'.rest⟩
      let at₃ : Reader := ⟨at₂.offset + jump.length, column ++ payload ++ r'.rest⟩
      let at₄ : Reader := ⟨at₃.offset + column.length, payload ++ r'.rest⟩
      have first : r.Before [flags] at₁ := ⟨before.rest, rfl⟩
      have second : at₁.Before [size] at₂ := ⟨rfl, rfl⟩
      have third : at₂.Before jump at₃ := ⟨by simp only [at₂, at₃, List.append_assoc], rfl⟩
      have fourth : at₃.Before column at₄ := ⟨by simp only [at₃, at₄, List.append_assoc], rfl⟩
      have fifth : at₄.Before payload r' := by
        refine ⟨rfl, ?_⟩
        rw [before.offset]
        simp only [at₁, at₂, at₃, at₄, List.length_cons, List.length_append]
        omega
      refine ⟨flags, at₁, first, size, at₂, second, kind, ⟨known, covers⟩, rowJump, row, at₃,
        ⟨jump, spellsRow, third⟩, col, at₄, ⟨column, spellsColumn, fourth⟩, deltas, _, r',
        (readPayload_eq_ok_iff spellsColumn.lt_wordLimit covers).mpr
          ⟨payload, spellsPayload, fifth, rfl⟩, rfl, rfl, rfl⟩

theorem SpellsUnit.offset_eq {table : KindTable} {mode : ColumnMode} {here : Position}
    {offset : Nat} {bytes : List UInt8} {u : StreamUnit}
    (spells : SpellsUnit table mode here offset bytes u) : u.offset = offset := by
  cases spells
  rfl

theorem SpellsUnit.ne_nil {table : KindTable} {mode : ColumnMode} {here : Position} {offset : Nat}
    {bytes : List UInt8} {u : StreamUnit} (spells : SpellsUnit table mode here offset bytes u) :
    bytes ≠ [] := by
  cases spells
  exact List.cons_ne_nil _ _

theorem unitsFrom_of_readUnit {table : KindTable} {mode : ColumnMode} {here next : Position}
    {u : StreamUnit} {r r' : Reader} (read : readUnit table mode here r = .ok (u, next, r')) :
    unitsFrom table mode here r
      = (u :: (unitsFrom table mode next r').1, (unitsFrom table mode next r').2) := by
  obtain ⟨bytes, spells, -, before⟩ := readUnit_eq_ok_iff.mp read
  have more : r.atEnd = false := by
    rw [Reader.atEnd, before.rest, List.isEmpty_eq_false_iff]
    exact List.append_ne_nil_of_left_ne_nil spells.ne_nil _
  rw [unitsFrom, more]
  simp only [Bool.false_eq_true, ite_false]
  split
  · rename_i failed
    rw [read] at failed
    contradiction
  · rename_i found
    rw [read] at found
    cases found
    rfl

/-- From any position on, reading ends without a fault exactly when the bytes left are units. -/
theorem unitsFrom_eq_iff (table : KindTable) (mode : ColumnMode) (here : Position) (r : Reader)
    (us : List StreamUnit) :
    unitsFrom table mode here r = (us, none) ↔
      SpellsUnits table mode here r.offset r.rest us := by
  induction us generalizing here r with
  | nil =>
    constructor
    · intro done
      rw [unitsFrom] at done
      split at done
      · rename_i stop
        rw [Reader.atEnd, List.isEmpty_iff] at stop
        rw [stop]
        exact .nil
      · split at done <;> simp at done
    · intro spelled
      cases r with
      | mk offset rest =>
        cases spelled
        rw [unitsFrom, Reader.atEnd, List.isEmpty_nil, if_pos rfl]
  | cons u us ih =>
    constructor
    · intro done
      rw [unitsFrom] at done
      split at done
      · simp at done
      · split at done
        · simp at done
        · rename_i found
          simp only [Prod.mk.injEq, List.cons.injEq] at done
          obtain ⟨⟨rfl, more⟩, stop⟩ := done
          obtain ⟨bytes, spells, rfl, before⟩ := readUnit_eq_ok_iff.mp found
          have rest := (ih _ _).mp (Prod.ext more stop)
          rw [before.offset] at rest
          exact before.rest ▸ .cons spells rest
    · intro spelled
      cases r with
      | mk offset rest =>
        cases spelled with
        | @cons _ _ bytes more _ _ spells after =>
          have read : readUnit table mode here ⟨offset, bytes ++ more⟩
              = .ok (u, u.next, ⟨offset + bytes.length, more⟩) :=
            readUnit_eq_ok_iff.mpr ⟨bytes, spells, rfl, rfl, rfl⟩
          refine (unitsFrom_of_readUnit read).trans ?_
          rw [(ih _ ⟨offset + bytes.length, more⟩).mpr after]

end SparseStream
