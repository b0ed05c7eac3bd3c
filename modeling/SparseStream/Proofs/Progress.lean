import SparseStream.Proofs.Grammar
import SparseStream.Proofs.Numbers

/-! Reading makes progress and ends, whatever the bytes and the table. A field moves its reader on
by the bytes it takes, or not at all. A cursor that is asked for unit after unit moves on with each
unit by three bytes or more, and has nothing left to give once a unit was refused. -/
namespace SparseStream

namespace Reader

/-- How many bytes a field takes at the start of some bytes. A number takes the bytes that have
their high bit set and one more. -/
def Call.extent (bytes : List UInt8) : Call → Nat
  | .byte => 1
  | .varint => (bytes.takeWhile (128 ≤ ·.toNat)).length + 1
  | .fullColumn => 4
  | .packed w => w.bytes

/-- The bytes start with the field: a number that is a word, or as many bytes as the field takes. -/
def Call.At (bytes : List UInt8) : Call → Prop
  | .varint => ∃ k n, Varint.Number bytes k n
  | c => c.extent bytes ≤ bytes.length

/-- A reader on some bytes stays on them. -/
theorem Before.eq_of {bytes front : List UInt8} {p : Nat} {r : Reader}
    (before : (of bytes p).Before front r) : r = of bytes (p + front.length) := by
  apply before.unique
  refine ⟨?_, rfl⟩
  have rest : bytes.drop p = front ++ r.rest := before.rest
  rw [of, of, ← List.drop_drop, rest, List.drop_left]

theorem Before.add_length_le {bytes front : List UInt8} {p : Nat} {r : Reader}
    (before : (of bytes p).Before front r) (inside : p ≤ bytes.length) :
    p + front.length ≤ bytes.length := by
  have rest := congrArg List.length before.rest
  simp only [of, List.length_drop, List.length_append] at rest
  omega

/-- As many bytes as are there can be taken for a number. -/
theorem exists_take_iff {r : Reader} {n : Nat} {field : Field} {value : List UInt8 → Nat} :
    (∃ v r', (do let (front, r) ← r.take n field; return (value front, r)) = .ok (v, r')) ↔
      n ≤ r.rest.length := by
  simp only [bind_eq_ok, Prod.exists, pure, Except.pure, Except.ok.injEq, Prod.mk.injEq,
    take_eq_ok_iff_before]
  constructor
  · rintro ⟨_, r', front, _, ⟨rfl, before⟩, -⟩
    rw [before.rest, List.length_append]
    exact Nat.le_add_right _ _
  · intro enough
    have length := List.length_take_of_le enough
    refine ⟨_, _, r.rest.take n, ⟨r.offset + n, r.rest.drop n⟩, ⟨length, ?_, ?_⟩, rfl, rfl⟩
    · exact (List.take_append_drop n r.rest).symm
    · rw [length]

end Reader

theorem Varint.EndsAt.length_takeWhile {bytes : List UInt8} {k : Nat} (ends : EndsAt bytes k) :
    (bytes.takeWhile (128 ≤ ·.toNat)).length = k := by
  induction bytes generalizing k with
  | nil => exact absurd ends (not_endsAt_nil k)
  | cons b bytes ih =>
    cases k with
    | zero =>
      have final := endsAt_cons_zero.mp ends
      rw [List.takeWhile_cons_of_neg (by simpa using final), List.length_nil]
    | succ k =>
      obtain ⟨high, later⟩ := endsAt_cons_succ.mp ends
      rw [List.takeWhile_cons_of_pos (by simpa using high), List.length_cons, ih later]

namespace Reader

/-- A field that was read lies between the two readers. -/
theorem before_of_read {r r' : Reader} {c : Call} {n : Nat} (read : r.read c = .ok (n, r')) :
    ∃ front, front.length = c.extent r.rest ∧ r.Before front r' := by
  cases c with
  | byte =>
    simp only [Reader.read, bind_eq_ok, Prod.exists, pure, Except.pure, Except.ok.injEq,
      Prod.mk.injEq] at read
    obtain ⟨b, _, found, -, rfl⟩ := read
    exact ⟨[b], rfl, byte_eq_ok_iff.mp found⟩
  | varint =>
    obtain ⟨k, front, number, length, before⟩ := exists_number_of_varint read
    refine ⟨front, ?_, before⟩
    rw [length, Call.extent, number.length_takeWhile]
  | fullColumn =>
    obtain ⟨front, length, -, before⟩ := fullColumn_eq_ok_iff.mp read
    exact ⟨front, length, before⟩
  | packed w => exact ⟨w.pack n, w.length_pack n, (packed_eq_ok_iff.mp read).2⟩

/-- A field is read exactly where it stands. -/
theorem exists_read_iff {r : Reader} {c : Call} :
    (∃ n r', r.read c = .ok (n, r')) ↔ c.At r.rest := by
  cases c with
  | byte =>
    simp only [Reader.read, bind_eq_ok, Prod.exists, pure, Except.pure, Except.ok.injEq,
      Prod.mk.injEq, Call.At, Call.extent, byte]
    cases r.rest <;> simp
  | varint =>
    simp only [Call.At]
    constructor
    · rintro ⟨n, r', read⟩
      obtain ⟨k, front, number, -⟩ := exists_number_of_varint read
      exact ⟨k, n, number⟩
    · rintro ⟨k, n, number⟩
      have found : Varint.decode r.rest = .ok (n, k + 1, r.rest.drop (k + 1)) :=
        Varint.decode_eq_ok_iff_number.mpr ⟨k, number, rfl, rfl⟩
      exact ⟨n, ⟨r.offset + (k + 1), r.rest.drop (k + 1)⟩, by simp [Reader.read, varint, found]⟩
  | fullColumn => exact exists_take_iff
  | packed w => exact exists_take_iff

/-- One call, in any place within the bytes: the field stands there and the reader moves behind it,
or the reader stays. -/
theorem call_moves_or_stays {bytes : List UInt8} {p : Nat} (inside : p ≤ bytes.length) (c : Call) :
    (c.At (bytes.drop p) ∧ p + c.extent (bytes.drop p) ≤ bytes.length ∧
      ∃ n, (of bytes p).call c = (.ok n, of bytes (p + c.extent (bytes.drop p)))) ∨
    (¬c.At (bytes.drop p) ∧ ∃ fault, (of bytes p).call c = (.error fault, of bytes p)) := by
  have possible := exists_read_iff (r := of bytes p) (c := c)
  cases read : (of bytes p).read c with
  | ok next =>
    obtain ⟨n, r'⟩ := next
    obtain ⟨front, length, before⟩ := before_of_read read
    have bound := before.add_length_le inside
    have moved := before.eq_of
    rw [length] at bound moved
    refine .inl ⟨possible.mp ⟨n, r', read⟩, bound, n, ?_⟩
    simp only [call, read, moved]
    rfl
  | error fault =>
    refine .inr ⟨fun stands => ?_, fault, by simp only [call, read]⟩
    obtain ⟨n, r', found⟩ := possible.mpr stands
    cases read.symm.trans found

end Reader

/-- Where an iterator over units is: its reader, what carries over from the unit before, and whether
a unit was refused. -/
structure UnitCursor where
  reader : Reader
  here : Position
  failed : Bool
  deriving DecidableEq, Repr

/-- Units and the fault behind them, as one list of what comes one by one. -/
def inTurn (found : List StreamUnit × Option Corruption) : List (Except Corruption StreamUnit) :=
  found.1.map .ok ++ found.2.toList.map .error

namespace UnitCursor

variable (table : KindTable) (mode : ColumnMode)

def start (bytes : List UInt8) : UnitCursor := ⟨.of bytes 0, {}, false⟩

/-- The next unit or the fault of it, and where the iterator is then. A fault is the last thing that
it gives. -/
def next (c : UnitCursor) : Option (Except Corruption StreamUnit) × UnitCursor :=
  if c.failed || c.reader.atEnd then (none, c)
  else
    match readUnit table mode c.here c.reader with
    | .ok (u, here, r) => (some (.ok u), ⟨r, here, false⟩)
    | .error fault => (some (.error fault), { c with failed := true })

/-- Where the iterator is after `n` calls. -/
def after (c : UnitCursor) : Nat → UnitCursor
  | 0 => c
  | n + 1 => ((c.after n).next table mode).2

/-- What call `n` gives, counted from zero. -/
def item (c : UnitCursor) (n : Nat) : Option (Except Corruption StreamUnit) :=
  ((c.after table mode n).next table mode).1

/-- All that is still to come. -/
def pending (c : UnitCursor) : List (Except Corruption StreamUnit) :=
  if c.failed then [] else inTurn (unitsFrom table mode c.here c.reader)

variable {table mode} {c : UnitCursor}

/-- What a call can do: find nothing to read, be refused, or read a unit. -/
theorem next_cases (table : KindTable) (mode : ColumnMode) (c : UnitCursor) :
    (c.next table mode = (none, c) ∧ c.pending table mode = []) ∨
    (∃ fault, c.next table mode = (some (.error fault), { c with failed := true }) ∧
      c.pending table mode = [.error fault]) ∨
    (∃ u here r, readUnit table mode c.here c.reader = .ok (u, here, r) ∧
      c.next table mode = (some (.ok u), ⟨r, here, false⟩) ∧
      c.pending table mode = .ok u :: pending table mode ⟨r, here, false⟩) := by
  obtain ⟨reader, here, failed⟩ := c
  cases failed with
  | true => exact .inl ⟨rfl, rfl⟩
  | false =>
    cases stop : reader.atEnd with
    | true =>
      refine .inl ⟨by simp [next, stop], ?_⟩
      simp [pending, unitsFrom, stop, inTurn]
    | false =>
      cases read : readUnit table mode here reader with
      | error fault =>
        refine .inr (.inl ⟨fault, by simp [next, stop, read], ?_⟩)
        rw [pending, unitsFrom, stop]
        simp only [Bool.false_eq_true, if_false]
        split
        · next failed =>
          cases failed.symm.trans read
          rfl
        · next found => cases found.symm.trans read
      | ok found =>
        obtain ⟨u, here', r⟩ := found
        refine .inr (.inr ⟨u, here', r, rfl, by simp [next, stop, read], ?_⟩)
        simp [pending, unitsFrom_of_readUnit read, inTurn]

/-- One call takes the first of what is still to come, if there is anything. -/
theorem pending_next : (c.next table mode).1 = (c.pending table mode).head? ∧
    ((c.next table mode).2).pending table mode = (c.pending table mode).tail := by
  rcases next_cases table mode c with ⟨given, left⟩ | ⟨fault, given, left⟩ |
    ⟨u, here, r, -, given, left⟩
  all_goals
    rw [given, left]
    exact ⟨rfl, rfl⟩

/-- After some calls, what they took is gone and the rest is still to come. -/
theorem pending_after (n : Nat) :
    (c.after table mode n).pending table mode = (c.pending table mode).drop n := by
  induction n with
  | zero => rfl
  | succ n ih => rw [after, pending_next.2, ih, List.tail_drop]

theorem item_eq_getElem? (n : Nat) : c.item table mode n = (c.pending table mode)[n]? := by
  rw [item, pending_next.1, pending_after, List.head?_drop]

/-- The cursor is somewhere on the bytes. -/
structure On (bytes : List UInt8) (c : UnitCursor) : Prop where
  reader : c.reader = .of bytes c.reader.offset
  inside : c.reader.offset ≤ bytes.length

theorem on_start (bytes : List UInt8) : (start bytes).On bytes := ⟨rfl, Nat.zero_le _⟩

/-- Reading a unit keeps the cursor on the bytes. -/
theorem On.of_readUnit {bytes : List UInt8} {u : StreamUnit} {here : Position} {r : Reader}
    (on : c.On bytes) (read : readUnit table mode c.here c.reader = .ok (u, here, r)) :
    On bytes ⟨r, here, false⟩ := by
  obtain ⟨span, -, -, before⟩ := readUnit_eq_ok_iff.mp read
  rw [on.reader] at before
  have place := before.eq_of
  refine ⟨?_, ?_⟩
  · rw [place]
    rfl
  · rw [place]
    exact before.add_length_le on.inside

theorem On.next {bytes : List UInt8} (on : c.On bytes) : ((c.next table mode).2).On bytes := by
  rcases next_cases table mode c with ⟨given, -⟩ | ⟨fault, given, -⟩ | ⟨u, here, r, read, given, -⟩
  · rw [given]
    exact on
  · rw [given]
    exact ⟨on.reader, on.inside⟩
  · rw [given]
    exact on.of_readUnit read

theorem On.after {bytes : List UInt8} (on : c.On bytes) (n : Nat) :
    (c.after table mode n).On bytes := by
  induction n with
  | zero => exact on
  | succ n ih => exact ih.next

/-- The unit is spelled by the bytes that lie between two cursors, which are three or more. -/
structure Spans (table : KindTable) (mode : ColumnMode) (c c' : UnitCursor) (u : StreamUnit)
    (bytes : List UInt8) : Prop where
  offset : u.offset = c.reader.offset
  spells : SpellsUnit table mode c.here u.offset bytes u
  before : c.reader.Before bytes c'.reader
  long : 3 ≤ bytes.length

/-- A call that gives a unit moves the cursor from its start to its end. -/
theorem exists_spans_of_next {u : StreamUnit} (unit : (c.next table mode).1 = some (.ok u)) :
    ∃ span, Spans table mode c (c.next table mode).2 u span := by
  rcases next_cases table mode c with ⟨given, -⟩ | ⟨fault, given, -⟩ | ⟨v, here, r, read, given, -⟩
  · rw [given] at unit
    cases unit
  · rw [given] at unit
    cases unit
  · rw [given] at unit ⊢
    cases unit
    obtain ⟨k, long, -, moved⟩ := Reader.left_of_readUnit read
    obtain ⟨span, spells, -, before⟩ := readUnit_eq_ok_iff.mp read
    have length := before.offset
    refine ⟨span, spells.offset_eq, spells.offset_eq.symm ▸ spells, before, by omega⟩

end UnitCursor

/-- Each unit takes its three bytes, so there are no more of them than fit. -/
theorem three_mul_length_unitsFrom_le (table : KindTable) (mode : ColumnMode) (here : Position)
    (r : Reader) : 3 * (unitsFrom table mode here r).1.length ≤ r.rest.length := by
  fun_induction unitsFrom table mode here r with
  | case1 here r stop => simp
  | case2 here r more c failed => simp
  | case3 here r more u next r' read us fault rest ih =>
    obtain ⟨k, long, left, -⟩ := Reader.left_of_readUnit read
    rw [rest] at ih
    simp only [List.length_cons] at ih ⊢
    omega

theorem length_inTurn_le (found : List StreamUnit × Option Corruption) :
    (inTurn found).length ≤ found.1.length + 1 := by
  cases fault : found.2 <;> simp [inTurn, fault]

/-- A fault comes last. -/
theorem length_inTurn_of_error {found : List StreamUnit × Option Corruption} {n : Nat}
    {fault : Corruption} (given : (inTurn found)[n]? = some (.error fault)) :
    (inTurn found).length = n + 1 := by
  obtain ⟨us, last⟩ := found
  cases last with
  | none => simp [inTurn] at given
  | some c =>
    have size : (inTurn (us, some c)).length = us.length + 1 := by simp [inTurn]
    rw [size]
    have inside := (List.getElem?_eq_some_iff.mp given).1
    rw [size] at inside
    by_cases early : n < us.length
    · simp [inTurn, List.getElem?_append_left, early] at given
    · omega

open UnitCursor in
/-- What an iterator over the units of some bytes does, call after call. -/
structure Advances (table : KindTable) (mode : ColumnMode) (bytes : List UInt8)
    (start : UnitCursor) : Prop where
  items : ∀ n, start.item table mode n = (inTurn (units table mode bytes))[n]?
  few : (inTurn (units table mode bytes)).length ≤ bytes.length / 3 + 1
  first : start.reader.offset = 0
  on : ∀ n, (start.after table mode n).On bytes
  spans : ∀ n u, start.item table mode n = some (.ok u) → ∃ span,
    Spans table mode (start.after table mode n) (start.after table mode (n + 1)) u span
  last : ∀ n fault, start.item table mode n = some (.error fault) →
    ∀ m, n < m → start.item table mode m = none

/-- Decoding makes progress and ends. Each unit starts where the one before it ended and takes three
bytes or more, a fault comes last, and there are no more items than a third of the bytes and one. A
field moves a reader on by its own bytes, within all bytes, or leaves it where it was. -/
theorem decoding_advances (table : KindTable) (mode : ColumnMode) (bytes : List UInt8) :
    Advances table mode bytes (.start bytes) ∧
    ∀ p ≤ bytes.length, ∀ c : Reader.Call,
      (c.At (bytes.drop p) ∧ p + c.extent (bytes.drop p) ≤ bytes.length ∧
        ∃ n, (Reader.of bytes p).call c = (.ok n, .of bytes (p + c.extent (bytes.drop p)))) ∨
      (¬c.At (bytes.drop p) ∧
        ∃ fault, (Reader.of bytes p).call c = (.error fault, .of bytes p)) := by
  have items : ∀ n, (UnitCursor.start bytes).item table mode n
      = (inTurn (units table mode bytes))[n]? := UnitCursor.item_eq_getElem?
  refine ⟨⟨items, ?_, rfl, (UnitCursor.on_start bytes).after,
    fun n u => UnitCursor.exists_spans_of_next, ?_⟩, fun p => Reader.call_moves_or_stays⟩
  · have enough : 3 * (units table mode bytes).1.length ≤ bytes.length :=
      three_mul_length_unitsFrom_le table mode {} ⟨0, bytes⟩
    have most := length_inTurn_le (units table mode bytes)
    omega
  · intro n fault given m later
    rw [items] at given ⊢
    have length := length_inTurn_of_error given
    exact List.getElem?_eq_none (by omega)

/-- A run of two columns, and the header and column of a run that lacks its difference. -/
theorem decoding_advances_cut_run :
    let table : KindTable := ⟨[⟨.run .u8, 1, 2, 3⟩]⟩
    let bytes : List UInt8 := [1, 2, 0, 1, 0x81, 2, 3]
    let start := UnitCursor.start bytes
    (∃ span u, UnitCursor.Spans table .jump start (start.after table .jump 1) u span) ∧
    start.item table .jump 1 = some (.error ⟨7, .endsInField .packedDelta⟩) ∧
    (∀ n, 1 < n → start.item table .jump n = none) ∧
    4 ≤ bytes.length ∧ (Reader.of bytes 4).call .varint = (.ok 257, .of bytes 6) ∧
    ∃ fault, (Reader.of bytes 4).call .fullColumn = (.error fault, .of bytes 4) := by
  intro table bytes start
  obtain ⟨advances, fields⟩ := decoding_advances table .jump bytes
  have unit : start.item table .jump 0
      = some (.ok ⟨0, 1, .run .u8, 2, false, none, 0, 0, [1]⟩) := by decide +kernel
  have fault : start.item table .jump 1 = some (.error ⟨7, .endsInField .packedDelta⟩) := by
    decide +kernel
  obtain ⟨span, spans⟩ := advances.spans 0 _ unit
  have inside : 4 ≤ bytes.length := by decide
  refine ⟨⟨span, _, spans⟩, fault, advances.last 1 _ fault, inside, rfl, ?_⟩
  rcases fields 4 inside .fullColumn with ⟨stands, -⟩ | ⟨-, stays⟩
  · exact absurd (show 4 ≤ 3 from stands) (by decide)
  · exact stays

end SparseStream
