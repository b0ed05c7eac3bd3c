import SparseStream.Bytes

/-! The width at which the column differences of a run are packed. -/
namespace SparseStream

inductive Width where
  | u8 | u16 | u32 | u64
  deriving DecidableEq, Repr

namespace Width

def bytes : Width → Nat
  | u8 => 1
  | u16 => 2
  | u32 => 4
  | u64 => 8

/-- One more than the largest number of this width. -/
def limit (w : Width) : Nat := byteLimit w.bytes

/-- The narrowest width that holds `n`, for `n` below `wordLimit`. -/
def classify (n : Nat) : Width :=
  if n < u8.limit then u8
  else if n < u16.limit then u16
  else if n < u32.limit then u32
  else u64

theorem lt_limit_classify {n : Nat} (h : n < wordLimit) : n < (classify n).limit := by
  simp only [classify]
  split
  · assumption
  split
  · assumption
  split
  · assumption
  · exact h

/-- No width that holds `n` is narrower than the one chosen for it. -/
theorem bytes_classify_le_of_lt {n : Nat} {w : Width} (fits : n < w.limit) :
    (classify n).bytes ≤ w.bytes := by
  simp only [classify]
  repeat' split
  all_goals cases w <;> first | contradiction | decide

/-- A width that holds some numbers, and no narrower one holds them all. -/
structure Narrowest (w : Width) (ns : List Nat) : Prop where
  holds : ∀ n ∈ ns, n < w.limit
  least : ∀ w' : Width, (∀ n ∈ ns, n < w'.limit) → w.bytes ≤ w'.bytes

def text (w : Width) : String := "u" ++ toString (w.bytes * 8)

/-- Packs a number; what does not fit the width is dropped from its top. -/
def pack (w : Width) (n : Nat) : List UInt8 := littleEndian w.bytes n

/-- The number at the start of some bytes, if enough of them are there. -/
def unpack? (w : Width) (bytes : List UInt8) : Option Nat :=
  (cut w.bytes bytes).map fun (front, _) => ofLittleEndian front

theorem unpack?_pack (w : Width) {n : Nat} (h : n < w.limit) (rest : List UInt8) :
    w.unpack? (w.pack n ++ rest) = some n := by
  have split : cut w.bytes (w.pack n ++ rest) = some (w.pack n, rest) :=
    cut_eq_some_iff.2 ⟨rfl, length_littleEndian w.bytes n⟩
  simp only [unpack?, split, Option.map_some, Option.some.injEq]
  exact (ofLittleEndian_littleEndian w.bytes n).trans (Nat.mod_eq_of_lt h)

end Width
end SparseStream
