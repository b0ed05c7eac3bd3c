import SparseStream.Header
import SparseStream.Reader

/-! What the fields of a stream look like as bytes. Each reader succeeds exactly on the bytes that
spell its field, whatever follows them, and each writer writes such bytes. -/
namespace SparseStream

theorem toNat_toUInt8 (n : Nat) (small : n < 256) : n.toUInt8.toNat = n := by
  simp [Nat.mod_eq_of_lt small]

theorem littleEndian_ofLittleEndian (bytes : List UInt8) :
    littleEndian bytes.length (ofLittleEndian bytes) = bytes := by
  induction bytes with
  | nil => rfl
  | cons b rest ih =>
    have small := b.toNat_lt
    have low : (ofLittleEndian (b :: rest)).toUInt8 = b := by
      apply UInt8.toNat_inj.mp
      simp only [ofLittleEndian, Nat.toUInt8_eq, UInt8.toNat_ofNat']
      omega
    have high : ofLittleEndian (b :: rest) / 256 = ofLittleEndian rest := by
      simp only [ofLittleEndian]
      omega
    simp only [List.length_cons, littleEndian, low, high, ih]

namespace Width

theorem length_pack (w : Width) (n : Nat) : (w.pack n).length = w.bytes := length_littleEndian _ _

theorem ofLittleEndian_pack (w : Width) (n : Nat) (fits : n < w.limit) :
    ofLittleEndian (w.pack n) = n := by
  rw [pack, ofLittleEndian_littleEndian]
  exact Nat.mod_eq_of_lt fits

/-- As many bytes as the width has are the packed form of one number. -/
theorem pack_ofLittleEndian (w : Width) (bytes : List UInt8) (length : bytes.length = w.bytes) :
    w.pack (ofLittleEndian bytes) = bytes ∧ ofLittleEndian bytes < w.limit := by
  constructor
  · rw [pack, ← length, littleEndian_ofLittleEndian]
  · rw [limit, ← length]
    exact ofLittleEndian_lt bytes

end Width

namespace Varint

/-- Bytes behind a number do not matter to it. -/
theorem decodeFrom_append {i acc n groups : Nat} {bytes rest : List UInt8} (more : List UInt8)
    (h : decodeFrom i acc bytes = .ok (n, groups, rest)) :
    decodeFrom i acc (bytes ++ more) = .ok (n, groups, rest ++ more) := by
  induction bytes generalizing i acc with
  | nil => simp [decodeFrom] at h
  | cons b bytes ih =>
    simp only [decodeFrom, List.cons_append] at h ⊢
    split at h
    · contradiction
    · rename_i narrow
      rw [if_neg narrow]
      split at h
      · rename_i final
        rw [if_pos final]
        simp only [Except.ok.injEq, Prod.mk.injEq] at h ⊢
        obtain ⟨rfl, rfl, rfl⟩ := h
        exact ⟨rfl, rfl, rfl⟩
      · rename_i goesOn
        rw [if_neg goesOn]
        exact ih h

/-- A number takes its bytes off the front and leaves the rest as it was. -/
theorem decodeFrom_front {i acc n groups : Nat} {bytes rest : List UInt8}
    (h : decodeFrom i acc bytes = .ok (n, groups, rest)) :
    ∃ front, bytes = front ++ rest ∧ groups = i + front.length ∧
      decodeFrom i acc front = .ok (n, groups, []) := by
  induction bytes generalizing i acc with
  | nil => simp [decodeFrom] at h
  | cons b bytes ih =>
    simp only [decodeFrom] at h
    split at h
    · contradiction
    · rename_i narrow
      split at h
      · rename_i final
        simp only [Except.ok.injEq, Prod.mk.injEq] at h
        obtain ⟨rfl, rfl, rfl⟩ := h
        refine ⟨[b], rfl, rfl, ?_⟩
        simp only [decodeFrom, if_neg narrow, if_pos final]
      · rename_i goesOn
        obtain ⟨front, rfl, rfl, found⟩ := ih h
        refine ⟨b :: front, rfl, by simp only [List.length_cons]; omega, ?_⟩
        simp only [decodeFrom, if_neg narrow, if_neg goesOn, found]

/-- The lowest group of a number and the groups above it. -/
theorem shiftLeft_groups (m i : Nat) :
    m <<< (7 * i) = (m % 128) <<< (7 * i) + (m / 128) <<< (7 * (i + 1)) := by
  simp only [Nat.shiftLeft_eq]
  rw [Nat.mul_succ, Nat.pow_add, Nat.mul_comm (2 ^ (7 * i)) (2 ^ 7), ← Nat.mul_assoc, ← Nat.add_mul]
  exact congrArg (· * 2 ^ (7 * i)) (Nat.mod_add_div' m 128).symm

theorem lt_maxLength_of_shiftLeft_lt {m i : Nat} (positive : 0 < m)
    (fits : m <<< (7 * i) < wordLimit) : i < maxLength := by
  apply Nat.lt_of_not_le
  intro large
  rw [Nat.shiftLeft_eq] at fits
  have power : 2 ^ 70 ≤ 2 ^ (7 * i) :=
    Nat.pow_le_pow_right (by decide) (by simp only [maxLength] at large; omega)
  have wide : 2 ^ (7 * i) ≤ m * 2 ^ (7 * i) := Nat.le_mul_of_pos_left _ positive
  have limit : wordLimit < 2 ^ 70 := by decide
  omega

/-- What is written is read back, from any group on, as long as the whole stays a word. -/
theorem decodeFrom_encode {i m : Nat} (acc : Nat) (first : i = 0 ∨ 0 < m)
    (fits : m <<< (7 * i) < wordLimit) :
    decodeFrom i acc (encode m) = .ok (acc + m <<< (7 * i), i + (encode m).length, []) := by
  induction m using Nat.strongRecOn generalizing i acc with
  | ind m ih =>
    have place : i < maxLength := by
      rcases first with rfl | positive
      · decide
      · exact lt_maxLength_of_shiftLeft_lt positive fits
    rw [encode]
    split
    · rename_i small
      have byte := toNat_toUInt8 m (by omega)
      have low : m % 128 = m := Nat.mod_eq_of_lt small
      simp only [decodeFrom, byte, low]
      rw [if_neg (by omega), if_pos small]
      rfl
    · rename_i large
      have byte := toNat_toUInt8 (m % 128 + 128) (by omega)
      have low : (m % 128 + 128) % 128 = m % 128 := by omega
      have groups := shiftLeft_groups m i
      have lowFits : (m % 128) <<< (7 * i) < wordLimit :=
        Nat.lt_of_le_of_lt (groups ▸ Nat.le_add_right _ _) fits
      have highFits : (m / 128) <<< (7 * (i + 1)) < wordLimit :=
        Nat.lt_of_le_of_lt (groups ▸ Nat.le_add_left _ _) fits
      have next := ih (m / 128) (by omega) (i := i + 1) (acc + (m % 128) <<< (7 * i))
        (.inr (by omega)) highFits
      simp only [decodeFrom, byte, low, next, List.length_cons]
      rw [if_neg (by omega), if_neg (by omega)]
      simp only [Except.ok.injEq, Prod.mk.injEq, and_true]
      omega

end Varint

namespace Header

/-- The flags byte of a unit. A jump is only marked beside a new row. -/
def flags (flag : Nat) (newRow jump : Bool) : UInt8 :=
  (flag + newRow.toNat * 128 + jump.toNat * 64).toUInt8

theorem toNat_flags {flag : Nat} (small : flag < 64) (newRow jump : Bool) :
    (flags flag newRow jump).toNat = flag + newRow.toNat * 128 + jump.toNat * 64 := by
  apply toNat_toUInt8
  have := newRow.toNat_le
  have := jump.toNat_le
  omega

theorem flag_flags {n : Nat} (small : n < 64) (newRow jump : Bool) :
    flag (flags n newRow jump) = n := by
  rw [flag, toNat_flags small, flagMask]
  omega

theorem startsRow_flags {flag : Nat} (small : flag < 64) (newRow jump : Bool) :
    startsRow (flags flag newRow jump) = newRow := by
  rw [startsRow, bit, toNat_flags small, rowBit, Nat.testBit_eq_decide_div_mod_eq]
  cases newRow <;> cases jump <;> simp <;> omega

theorem hasJump_flags {flag : Nat} (small : flag < 64) (newRow jump : Bool) :
    hasJump (flags flag newRow jump) = jump := by
  rw [hasJump, bit, toNat_flags small, jumpBit, Nat.testBit_eq_decide_div_mod_eq]
  cases newRow <;> cases jump <;> simp <;> omega

/-- Setting the row bit of an unmarked flags byte, and the jump bit after it. -/
theorem or_rowBit {flag : Nat} (small : flag < 64) :
    flag.toUInt8 ||| (1 <<< rowBit.toUInt8) = flags flag true false := by
  have all : ∀ f : Fin 64, f.val.toUInt8 ||| (1 <<< rowBit.toUInt8) = flags f.val true false := by
    decide
  exact all ⟨flag, small⟩

theorem or_jumpBit {flag : Nat} (small : flag < 64) :
    flags flag true false ||| (1 <<< jumpBit.toUInt8) = flags flag true true := by
  have all : ∀ f : Fin 64, flags f.val true false ||| (1 <<< jumpBit.toUInt8)
      = flags f.val true true := by decide
  exact all ⟨flag, small⟩

end Header

/-- The bytes are one number of variable length, with nothing behind it. -/
def SpellsNumber (bytes : List UInt8) (n : Nat) : Prop :=
  Varint.decode bytes = .ok (n, bytes.length, [])

theorem spellsNumber_encode (n : Nat) (word : n < wordLimit) :
    SpellsNumber (Varint.encode n) n := by
  have read := Varint.decodeFrom_encode (i := 0) (m := n) 0 (.inl rfl) (by simpa using word)
  simpa [SpellsNumber, Varint.decode] using read

theorem decode_eq_ok_iff {bytes rest : List UInt8} {n groups : Nat} :
    Varint.decode bytes = .ok (n, groups, rest) ↔
      ∃ front, SpellsNumber front n ∧ bytes = front ++ rest ∧ groups = front.length := by
  constructor
  · intro h
    obtain ⟨front, rfl, rfl, found⟩ := Varint.decodeFrom_front h
    rw [Nat.zero_add] at found
    exact ⟨front, found, rfl, Nat.zero_add _⟩
  · rintro ⟨front, spells, rfl, rfl⟩
    exact Varint.decodeFrom_append rest spells

namespace Reader

/-- One reader is left after the bytes that lie before the other. -/
structure Before (r : Reader) (bytes : List UInt8) (r' : Reader) : Prop where
  rest : r.rest = bytes ++ r'.rest
  offset : r'.offset = r.offset + bytes.length

theorem Before.refl (r : Reader) : r.Before [] r := ⟨rfl, rfl⟩

theorem Before.trans {a b c : Reader} {xs ys : List UInt8} (first : a.Before xs b)
    (second : b.Before ys c) : a.Before (xs ++ ys) c := by
  constructor
  · rw [first.rest, second.rest, List.append_assoc]
  · rw [second.offset, first.offset, List.length_append, Nat.add_assoc]

theorem Before.split {r r' : Reader} {xs ys : List UInt8} (both : r.Before (xs ++ ys) r') :
    ∃ between, r.Before xs between ∧ between.Before ys r' := by
  refine ⟨⟨r.offset + xs.length, ys ++ r'.rest⟩, ⟨?_, rfl⟩, ⟨rfl, ?_⟩⟩
  · rw [both.rest, List.append_assoc]
  · rw [both.offset, List.length_append, Nat.add_assoc]

/-- A reader is known by what lies before it. -/
theorem Before.unique {r a b : Reader} {bytes : List UInt8} (first : r.Before bytes a)
    (second : r.Before bytes b) : a = b := by
  cases a with
  | mk offset rest =>
    cases b with
    | mk offset' rest' =>
      have same := List.append_cancel_left (first.rest.symm.trans second.rest)
      have place := first.offset.trans second.offset.symm
      simp only at same place
      rw [same, place]

theorem byte_eq_ok_iff {r r' : Reader} {b : UInt8} :
    r.byte = .ok (b, r') ↔ r.Before [b] r' := by
  cases r with
  | mk offset rest =>
    cases r' with
    | mk offset' rest' =>
      cases rest with
      | nil =>
        simp only [byte, reduceCtorEq, false_iff]
        intro h
        exact List.cons_ne_nil _ _ h.rest.symm
      | cons c rest =>
        simp only [byte, Except.ok.injEq, Prod.mk.injEq, Reader.mk.injEq]
        constructor
        · rintro ⟨rfl, rfl, rfl⟩
          exact ⟨rfl, rfl⟩
        · intro h
          have same := h.rest
          simp only [List.cons_append, List.nil_append, List.cons.injEq] at same
          exact ⟨same.1, h.offset.symm, same.2⟩

theorem take_eq_ok_iff_before {r r' : Reader} {n : Nat} {field : Field} {bytes : List UInt8} :
    r.take n field = .ok (bytes, r') ↔ bytes.length = n ∧ r.Before bytes r' := by
  rw [take_eq_ok_iff]
  constructor
  · rintro ⟨rest, rfl, offset⟩
    exact ⟨rfl, rest, offset⟩
  · rintro ⟨rfl, rest, offset⟩
    exact ⟨rest, rfl, offset⟩

theorem varint_eq_ok_iff {r r' : Reader} {n : Nat} :
    r.varint = .ok (n, r') ↔ ∃ bytes, SpellsNumber bytes n ∧ r.Before bytes r' := by
  constructor
  · intro h
    unfold varint at h
    split at h <;> simp only [Except.ok.injEq, Prod.mk.injEq, reduceCtorEq] at h
    rename_i found
    obtain ⟨rfl, rfl⟩ := h
    obtain ⟨front, spells, rest, rfl⟩ := decode_eq_ok_iff.mp found
    exact ⟨front, spells, rest, rfl⟩
  · rintro ⟨bytes, spells, rest, offset⟩
    have found := decode_eq_ok_iff.mpr ⟨bytes, spells, rest, rfl⟩
    simp only [varint, found, ← offset]

theorem fullColumn_eq_ok_iff {r r' : Reader} {col : Nat} :
    r.fullColumn = .ok (col, r') ↔
      ∃ bytes, bytes.length = 4 ∧ ofLittleEndian bytes = col ∧ r.Before bytes r' := by
  simp only [fullColumn, bind_eq_ok, Prod.exists, pure, Except.pure, Except.ok.injEq, Prod.mk.injEq,
    take_eq_ok_iff_before]
  constructor
  · rintro ⟨bytes, _, ⟨length, before⟩, value, rfl⟩
    exact ⟨bytes, length, value, before⟩
  · rintro ⟨bytes, length, value, before⟩
    exact ⟨bytes, r', ⟨length, before⟩, value, rfl⟩

theorem packed_eq_ok_iff {r r' : Reader} {w : Width} {d : Nat} :
    r.packed w = .ok (d, r') ↔ d < w.limit ∧ r.Before (w.pack d) r' := by
  simp only [packed, bind_eq_ok, Prod.exists, pure, Except.pure, Except.ok.injEq, Prod.mk.injEq,
    take_eq_ok_iff_before]
  constructor
  · rintro ⟨bytes, _, ⟨length, before⟩, rfl, rfl⟩
    obtain ⟨same, fits⟩ := w.pack_ofLittleEndian bytes length
    exact ⟨fits, same.symm ▸ before⟩
  · rintro ⟨fits, before⟩
    exact ⟨_, r', ⟨w.length_pack d, before⟩, w.ofLittleEndian_pack d fits, rfl⟩

end Reader
end SparseStream
