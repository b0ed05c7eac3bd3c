import Mathlib.Algebra.BigOperators.Group.Finset.Basic
import Mathlib.Algebra.BigOperators.Ring.Finset
import Mathlib.Order.Bounds.Defs
import Mathlib.Tactic.Ring
import SparseStream.Proofs.Fields

/-! Numbers of variable length, both ways. A number stands at a place of some bytes exactly when its
groups end in time and are worth a word together; nothing else is read as one. What is written for a
number is the shortest of all bytes that are read as it. -/
namespace SparseStream

namespace Varint

/-- What the first `k + 1` bytes are worth, as groups of seven bits with the lowest one first. -/
def worth (bytes : List UInt8) (k : Nat) : Nat :=
  ∑ i ∈ Finset.range (k + 1), (bytes.getD i 0).toNat % 128 * 128 ^ i

theorem worth_zero (b : UInt8) (bytes : List UInt8) : worth (b :: bytes) 0 = b.toNat % 128 := by
  simp [worth]

theorem worth_succ (b : UInt8) (bytes : List UInt8) (k : Nat) :
    worth (b :: bytes) (k + 1) = b.toNat % 128 + 128 * worth bytes k := by
  rw [worth, Finset.sum_range_succ', worth, Finset.mul_sum, Nat.add_comm]
  have shift : ∀ i, ((b :: bytes).getD (i + 1) 0).toNat % 128 * 128 ^ (i + 1)
      = 128 * ((bytes.getD i 0).toNat % 128 * 128 ^ i) := by
    intro i
    rw [List.getD_cons_succ]
    ring
  simp only [shift, List.getD_cons_zero, Nat.pow_zero, Nat.mul_one]

theorem worth_lt (bytes : List UInt8) (k : Nat) : worth bytes k < 128 ^ (k + 1) := by
  induction k generalizing bytes with
  | zero =>
    cases bytes with
    | nil => simp [worth]
    | cons b bytes =>
      rw [worth_zero]
      exact Nat.mod_lt _ (by decide)
  | succ k ih =>
    cases bytes with
    | nil => simp [worth]
    | cons b bytes =>
      have higher := ih bytes
      rw [worth_succ, Nat.pow_succ]
      omega

/-- The first `k` bytes have their high bit set, and there is one more byte, which has not. -/
structure EndsAt (bytes : List UInt8) (k : Nat) : Prop where
  goesOn : ∀ i < k, ∃ b, bytes[i]? = some b ∧ 128 ≤ b.toNat
  final : ∃ b, bytes[k]? = some b ∧ b.toNat < 128

theorem not_endsAt_nil (k : Nat) : ¬EndsAt [] k := by
  rintro ⟨-, b, found, -⟩
  contradiction

theorem endsAt_cons_zero {b : UInt8} {bytes : List UInt8} :
    EndsAt (b :: bytes) 0 ↔ b.toNat < 128 := by
  constructor
  · rintro ⟨-, c, found, final⟩
    cases found
    exact final
  · exact fun final => ⟨nofun, b, rfl, final⟩

theorem endsAt_cons_succ {b : UInt8} {bytes : List UInt8} {k : Nat} :
    EndsAt (b :: bytes) (k + 1) ↔ 128 ≤ b.toNat ∧ EndsAt bytes k := by
  constructor
  · rintro ⟨goesOn, final⟩
    obtain ⟨c, found, high⟩ := goesOn 0 (Nat.succ_pos k)
    cases found
    exact ⟨high, fun i lt => goesOn (i + 1) (Nat.succ_lt_succ lt), final⟩
  · rintro ⟨high, goesOn, final⟩
    refine ⟨?_, final⟩
    rintro (- | i) lt
    · exact ⟨b, rfl, high⟩
    · exact goesOn i (Nat.lt_of_succ_lt_succ lt)

/-- A number of `k + 1` groups at the start of some bytes. -/
structure Number (bytes : List UInt8) (k n : Nat) : Prop extends EndsAt bytes k where
  short : k < maxLength
  value : n = worth bytes k
  word : n < wordLimit

theorem add_mul_lt {acc m power bound : Nat} (below : acc < power) (small : m < bound) :
    acc + m * power < bound * power :=
  calc acc + m * power < (m + 1) * power := by rw [Nat.add_mul, Nat.one_mul]; omega
    _ ≤ bound * power := Nat.mul_le_mul_right _ small

/-- Groups below one that fits a word leave room for it. -/
theorem add_group_lt {i acc m : Nat} (place : i < maxLength) (below : acc < 128 ^ i)
    (fits : m * 128 ^ i < wordLimit) : acc + m * 128 ^ i < wordLimit := by
  have power : 128 ^ i = 2 ^ (7 * i) := (Nat.pow_mul 2 7 i).symm
  have limit : wordLimit = 2 ^ (64 - 7 * i) * 2 ^ (7 * i) := by
    rw [← Nat.pow_add, Nat.sub_add_cancel (by simp only [maxLength] at place; omega)]
    decide
  rw [power] at below fits ⊢
  rw [limit] at fits ⊢
  exact add_mul_lt below (Nat.lt_of_mul_lt_mul_right fits)

/-- Reading on from group `i`, with the groups before it worth less than its place: by induction along
the bytes, each of which ends the number or is the lowest group of what is still to come. -/
theorem decodeFrom_eq_ok_iff {i acc n groups : Nat} {bytes rest : List UInt8}
    (below : acc < 128 ^ i) :
    decodeFrom i acc bytes = .ok (n, groups, rest) ↔
      ∃ k, EndsAt bytes k ∧ i + k < maxLength ∧ acc + worth bytes k * 128 ^ i < wordLimit ∧
        n = acc + worth bytes k * 128 ^ i ∧ groups = i + k + 1 ∧ rest = bytes.drop (k + 1) := by
  induction bytes generalizing i acc with
  | nil =>
    simp only [decodeFrom, reduceCtorEq, false_iff]
    rintro ⟨k, ends, -⟩
    exact not_endsAt_nil k ends
  | cons b bytes ih =>
    have group : (b.toNat % 128) <<< (7 * i) = b.toNat % 128 * 128 ^ i := by
      rw [Nat.shiftLeft_eq, Nat.pow_mul]
    have lowest : ∀ k, b.toNat % 128 * 128 ^ i ≤ worth (b :: bytes) k * 128 ^ i := by
      rintro (- | k)
      · rw [worth_zero]
      · rw [worth_succ]
        exact Nat.mul_le_mul_right _ (Nat.le_add_right _ _)
    simp only [decodeFrom, group]
    split
    · next wide =>
      simp only [reduceCtorEq, false_iff]
      rintro ⟨k, -, short, word, -⟩
      have := lowest k
      omega
    · next narrow =>
      rw [not_or, Nat.not_le, Nat.not_le] at narrow
      split
      · next final =>
        have word := add_group_lt narrow.1 below narrow.2
        simp only [Except.ok.injEq, Prod.mk.injEq]
        constructor
        · rintro ⟨rfl, rfl, rfl⟩
          refine ⟨0, endsAt_cons_zero.mpr final, narrow.1, ?_⟩
          rw [worth_zero]
          exact ⟨word, rfl, rfl, rfl⟩
        · rintro ⟨k | k, ends, -, -, rfl, rfl, rfl⟩
          · rw [worth_zero]
            exact ⟨rfl, rfl, rfl⟩
          · have := (endsAt_cons_succ.mp ends).1
            omega
      · next goesOn =>
        have further : acc + b.toNat % 128 * 128 ^ i < 128 ^ (i + 1) := by
          rw [Nat.pow_succ, Nat.mul_comm (128 ^ i)]
          exact add_mul_lt below (Nat.mod_lt _ (by decide))
        have sum : ∀ k, acc + b.toNat % 128 * 128 ^ i + worth bytes k * 128 ^ (i + 1)
            = acc + worth (b :: bytes) (k + 1) * 128 ^ i := by
          intro k
          rw [worth_succ]
          ring
        rw [ih further]
        simp only [sum]
        constructor
        · rintro ⟨k, ends, short, word, rfl, rfl, rfl⟩
          refine ⟨k + 1, endsAt_cons_succ.mpr ⟨by omega, ends⟩, by omega, word, rfl, by omega, rfl⟩
        · rintro ⟨k | k, ends, short, word, rfl, rfl, rfl⟩
          · have := endsAt_cons_zero.mp ends
            omega
          · exact ⟨k, (endsAt_cons_succ.mp ends).2, by omega, word, rfl, by omega, rfl⟩

/-- What is read, and how far: exactly the numbers. -/
theorem decode_eq_ok_iff_number {n groups : Nat} {bytes rest : List UInt8} :
    decode bytes = .ok (n, groups, rest) ↔
      ∃ k, Number bytes k n ∧ groups = k + 1 ∧ rest = bytes.drop (k + 1) := by
  rw [decode, decodeFrom_eq_ok_iff (by decide)]
  simp only [Nat.zero_add, Nat.pow_zero, Nat.mul_one]
  constructor
  · rintro ⟨k, ends, short, word, rfl, rfl, rfl⟩
    exact ⟨k, ⟨ends, short, rfl, word⟩, rfl, rfl⟩
  · rintro ⟨k, ⟨ends, short, rfl, word⟩, rfl, rfl⟩
    exact ⟨k, ends, short, word, rfl, rfl, rfl⟩

/-- A number that is read is a word, and takes no more than ten bytes. -/
theorem lt_wordLimit_of_decode {n groups : Nat} {bytes rest : List UInt8}
    (read : decode bytes = .ok (n, groups, rest)) : n < wordLimit ∧ groups ≤ maxLength := by
  obtain ⟨k, number, rfl, -⟩ := decode_eq_ok_iff_number.mp read
  exact ⟨number.word, number.short⟩

/-- A number below the place of a group has no such group. -/
theorem length_le_of_lt {n k : Nat} (small : n < 128 ^ (k + 1)) : length n ≤ k + 1 := by
  rcases Nat.eq_zero_or_pos n with rfl | positive
  · exact Nat.le_add_left 1 k
  · have power : 128 ^ (k + 1) = 2 ^ (7 * (k + 1)) := (Nat.pow_mul 2 7 (k + 1)).symm
    rw [power] at small
    have bits : n.log2 < 7 * (k + 1) := (Nat.log2_lt (Nat.ne_of_gt positive)).mpr small
    rw [length]
    omega

end Varint

namespace Reader

open Varint

variable {r : Reader} {k n : Nat}

theorem call_varint_of_decode {groups : Nat} {rest : List UInt8}
    (read : decode r.rest = .ok (n, groups, rest)) :
    r.call .varint = (.ok n, ⟨r.offset + groups, rest⟩) := by
  simp only [call, Reader.read, varint, read]

theorem call_varint_of_number (number : Number r.rest k n) :
    r.call .varint = (.ok n, ⟨r.offset + (k + 1), r.rest.drop (k + 1)⟩) :=
  call_varint_of_decode (decode_eq_ok_iff_number.mpr ⟨k, number, rfl, rfl⟩)

/-- A number that was read stands at the front, on the bytes that were read for it. -/
theorem exists_number_of_varint {r' : Reader} (read : r.varint = .ok (n, r')) :
    ∃ k front, Number r.rest k n ∧ front.length = k + 1 ∧ r.Before front r' := by
  obtain ⟨front, spells, before⟩ := varint_eq_ok_iff.mp read
  have found : decode r.rest = .ok (n, front.length, r'.rest) :=
    decode_eq_ok_iff.mpr ⟨front, spells, before.rest, rfl⟩
  obtain ⟨k, number, length, -⟩ := decode_eq_ok_iff_number.mp found
  exact ⟨k, front, number, length, before⟩

/-- Without a number in front of it a reader is refused, and stays. -/
theorem call_varint_refused (none : ∀ k n, ¬Number r.rest k n) :
    ∃ c, r.call .varint = (.error c, r) := by
  cases read : r.varint with
  | error c => exact ⟨c, by simp only [call, Reader.read, read]⟩
  | ok next =>
    obtain ⟨n, r'⟩ := next
    obtain ⟨k, front, number, -⟩ := exists_number_of_varint read
    exact absurd number (none k n)

/-- What was written for a number is read wherever it stands. -/
theorem call_varint_encode {v : Nat} (word : v < wordLimit) (front more : List UInt8) :
    (of (front ++ encode v ++ more) front.length).call .varint
      = (.ok v, of (front ++ encode v ++ more) (front.length + length v)) := by
  have here : (front ++ encode v ++ more).drop front.length = encode v ++ more := by
    rw [List.append_assoc, List.drop_left]
  have behind : (front ++ encode v ++ more).drop (front.length + length v) = more := by
    rw [← length_encode, ← List.length_append, List.drop_left]
  have read : decode (encode v ++ more) = .ok (v, length v, more) :=
    decode_eq_ok_iff.mpr ⟨encode v, spellsNumber_encode v word, rfl, (length_encode v).symm⟩
  rw [of, of, here, behind]
  exact call_varint_of_decode read

/-- Bytes that are read as a number are no fewer than those written for it. -/
theorem length_le_of_call_varint {bytes : List UInt8} {v : Nat} {r' : Reader}
    (read : (of bytes 0).call .varint = (.ok v, r')) : length v ≤ bytes.length := by
  by_cases found : ∃ k n, Number bytes k n
  · obtain ⟨k, n, number⟩ := found
    have same := (call_varint_of_number (r := of bytes 0) number).symm.trans read
    simp only [Prod.mk.injEq, Except.ok.injEq] at same
    obtain ⟨b, final, -⟩ := number.final
    have bound : k < bytes.length := (List.getElem?_eq_some_iff.mp final).1
    have short : length n ≤ k + 1 := length_le_of_lt (number.value ▸ worth_lt bytes k)
    rw [← same.1]
    omega
  · obtain ⟨c, refused⟩ := call_varint_refused (r := of bytes 0)
      fun k n number => found ⟨k, n, number⟩
    cases refused.symm.trans read

end Reader

open Varint in
/-- Numbers are read where they stand and nowhere else, whatever the bytes and the place, and a
reader that finds none stays where it is. What is written for a word has the length that was
computed for it, no bytes that are read as the same word are shorter, and it is read back in front of
whatever follows. -/
theorem varint_codec (bytes : List UInt8) (p : Nat) :
    (∀ k n, Number (bytes.drop p) k n →
      (Reader.of bytes p).call .varint = (.ok n, Reader.of bytes (p + k + 1))) ∧
    ((∀ k n, ¬Number (bytes.drop p) k n) →
      ∃ c, (Reader.of bytes p).call .varint = (.error c, Reader.of bytes p)) ∧
    ∀ v < wordLimit,
      (encode v).length = length v ∧
      IsLeast {m | ∃ bs r, bs.length = m ∧ (Reader.of bs 0).call .varint = (.ok v, r)} (length v) ∧
      ∀ front more, (Reader.of (front ++ encode v ++ more) front.length).call .varint
        = (.ok v, Reader.of (front ++ encode v ++ more) (front.length + length v)) := by
  refine ⟨?_, Reader.call_varint_refused (r := Reader.of bytes p), ?_⟩
  · intro k n number
    have next : Reader.of bytes (p + k + 1) = ⟨p + (k + 1), (bytes.drop p).drop (k + 1)⟩ := by
      rw [Reader.of, List.drop_drop, Nat.add_assoc]
    rw [next]
    exact Reader.call_varint_of_number number
  · intro v word
    refine ⟨length_encode v, ⟨?_, ?_⟩, Reader.call_varint_encode word⟩
    · have whole := Reader.call_varint_encode word [] []
      rw [List.nil_append, List.append_nil] at whole
      exact ⟨encode v, _, length_encode v, whole⟩
    · rintro m ⟨bs, r, rfl, read⟩
      exact Reader.length_le_of_call_varint read

open Varint in
/-- Two groups behind a byte that is not part of them, and the largest word. -/
theorem varint_codec_two_groups :
    Number ([133, 172, 2, 7].drop 1) 1 300 ∧
      (Reader.of [133, 172, 2, 7] 1).call .varint = (.ok 300, Reader.of [133, 172, 2, 7] 3) ∧
      wordLimit - 1 < wordLimit ∧ (encode (wordLimit - 1)).length = length (wordLimit - 1) := by
  have number : Number ([133, 172, 2, 7].drop 1) 1 300 := by
    refine ⟨⟨?_, 2, rfl, by decide⟩, by decide, by decide, by decide⟩
    intro i first
    cases Nat.lt_one_iff.mp first
    exact ⟨172, rfl, by decide⟩
  have word : wordLimit - 1 < wordLimit := by decide
  have codec := varint_codec [133, 172, 2, 7] 1
  exact ⟨number, codec.1 1 300 number, word, (codec.2.2 (wordLimit - 1) word).1⟩

end SparseStream
