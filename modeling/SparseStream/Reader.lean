import SparseStream.Error
import SparseStream.Varint
import SparseStream.Width

/-!
Reading the fields of a stream back. A reader is an offset and the bytes from there on; a field
that cannot be read leaves the reader where it was.
-/
namespace SparseStream

structure Reader where
  offset : Nat
  rest : List UInt8
  deriving DecidableEq, Repr

namespace Reader

/-- A reader at some offset, which may lie behind the end. -/
def of (bytes : List UInt8) (offset : Nat) : Reader := ⟨offset, bytes.drop offset⟩

def atEnd (r : Reader) : Bool := r.rest.isEmpty

/-- The next `n` bytes. -/
def take (r : Reader) (n : Nat) (field : Field) : Except Corruption (List UInt8 × Reader) :=
  match cut n r.rest with
  | some (front, rest) => .ok (front, ⟨r.offset + n, rest⟩)
  | none => .error ⟨r.offset, .endsInField field⟩

def byte (r : Reader) : Except Corruption (UInt8 × Reader) :=
  match r.rest with
  | b :: rest => .ok (b, ⟨r.offset + 1, rest⟩)
  | [] => .error ⟨r.offset, .endsInField .byte⟩

def fullColumn (r : Reader) : Except Corruption (Nat × Reader) := do
  let (bytes, r) ← r.take 4 .fullColumn
  return (ofLittleEndian bytes, r)

def packed (r : Reader) (w : Width) : Except Corruption (Nat × Reader) := do
  let (bytes, r) ← r.take w.bytes .packedDelta
  return (ofLittleEndian bytes, r)

/-- A byte that is missing is reported where it should be, a number too wide where it starts. -/
def varint (r : Reader) : Except Corruption (Nat × Reader) :=
  match Varint.decode r.rest with
  | .ok (n, groups, rest) => .ok (n, ⟨r.offset + groups, rest⟩)
  | .error (.cut groups) => .error ⟨r.offset + groups, .endsInVarint⟩
  | .error .tooWide => .error ⟨r.offset, .varintTooWide⟩

/-- What a reader can be asked for: one field of a stream, as a number. -/
inductive Call where
  | byte | varint | fullColumn
  | packed (width : Width)
  deriving DecidableEq, Repr

def read (r : Reader) : Call → Except Corruption (Nat × Reader)
  | .byte => do
    let (b, r) ← r.byte
    return (b.toNat, r)
  | .varint => r.varint
  | .fullColumn => r.fullColumn
  | .packed w => r.packed w

/-- The field asked for, and the reader that is left. A call that is refused leaves the reader where
it was. -/
def call (r : Reader) (c : Call) : Except Corruption Nat × Reader :=
  match r.read c with
  | .ok (n, r') => (.ok n, r')
  | .error corruption => (.error corruption, r)

theorem take_eq_ok_iff {r r' : Reader} {n : Nat} {field : Field} {front : List UInt8} :
    r.take n field = .ok (front, r') ↔
      r.rest = front ++ r'.rest ∧ front.length = n ∧ r'.offset = r.offset + n := by
  cases r' with
  | mk offset rest =>
    simp only [take]
    cases h : cut n r.rest with
    | none =>
      have short := cut_eq_none_iff.1 h
      simp only [reduceCtorEq, false_iff]
      rintro ⟨e, l, -⟩
      rw [e, List.length_append] at short
      omega
    | some p =>
      obtain ⟨f, t⟩ := p
      have := cut_eq_some_iff.1 h
      simp only [Except.ok.injEq, Prod.mk.injEq, Reader.mk.injEq]
      constructor
      · rintro ⟨rfl, rfl, rfl⟩
        exact ⟨this.1, this.2, rfl⟩
      · rintro ⟨e, l, o⟩
        have := (List.append_inj (this.1.symm.trans e) (this.2.trans l.symm))
        exact ⟨this.1, o.symm, this.2⟩

/-- Bytes are read off the front and nowhere else. -/
def Left (r r' : Reader) (n : Nat) : Prop :=
  r'.rest.length + n = r.rest.length ∧ r'.offset = r.offset + n

theorem left_of_byte {r r' : Reader} {b : UInt8} (h : r.byte = .ok (b, r')) : r.Left r' 1 := by
  unfold byte at h
  split at h
  · rename_i found
    simp only [Except.ok.injEq, Prod.mk.injEq] at h
    simp [Left, ← h.2, found]
  · contradiction

theorem left_of_take {r r' : Reader} {n : Nat} {field : Field} {bytes : List UInt8}
    (h : r.take n field = .ok (bytes, r')) : r.Left r' n := by
  obtain ⟨rest, length, offset⟩ := take_eq_ok_iff.1 h
  exact ⟨by simp [rest, length, Nat.add_comm], offset⟩

theorem left_of_varint {r r' : Reader} {n : Nat} (h : r.varint = .ok (n, r')) :
    ∃ k, 0 < k ∧ r.Left r' k := by
  unfold varint at h
  split at h <;> simp only [Except.ok.injEq, Prod.mk.injEq, reduceCtorEq] at h
  rename_i groups rest found
  have := Varint.length_of_decodeFrom found
  exact ⟨groups, this.2, by simp [Left, ← h.2]; omega⟩

end Reader
end SparseStream
