/-!
Numbers as little-endian bytes, and cutting a fixed count off a list. What is written at a width
reads back modulo that width.
-/
namespace SparseStream

/-- Numbers of `n` bytes stay below this. -/
def byteLimit : Nat → Nat
  | 0 => 1
  | n + 1 => 256 * byteLimit n

/-- Rows, columns, counts and offsets are words of eight bytes. -/
def wordLimit : Nat := byteLimit 8

/-- Columns of a pattern are signed while they are moved, so they stay below this. -/
def signedLimit : Nat := wordLimit / 2

/-- The signed word with the same bits as a number. -/
def toSigned (n : Int) : Int := n.bmod wordLimit

@[simp] theorem toSigned_zero : toSigned 0 = 0 := rfl

/-- A number within the signed words stands for itself. -/
theorem toSigned_eq_self {n : Int} (low : -(signedLimit : Int) ≤ n) (high : n < signedLimit) :
    toSigned n = n := by
  have half : (wordLimit : Int) = 2 * signedLimit := by decide
  exact Int.bmod_eq_of_le (by omega) (by omega)

/-- A column stored in full takes four bytes. -/
def fullColumnLimit : Nat := byteLimit 4

/-- The lowest `n` bytes of a number, lowest first. -/
def littleEndian : Nat → Nat → List UInt8
  | 0, _ => []
  | n + 1, v => v.toUInt8 :: littleEndian n (v / 256)

/-- The number that bytes stand for, lowest first. -/
def ofLittleEndian : List UInt8 → Nat
  | [] => 0
  | b :: rest => b.toNat + 256 * ofLittleEndian rest

@[simp] theorem length_littleEndian (n v : Nat) : (littleEndian n v).length = n := by
  induction n generalizing v with
  | zero => rfl
  | succ n ih => simp [littleEndian, ih]

/-- High bytes that do not fit are dropped. -/
theorem ofLittleEndian_littleEndian (n v : Nat) :
    ofLittleEndian (littleEndian n v) = v % byteLimit n := by
  induction n generalizing v with
  | zero => simp [littleEndian, ofLittleEndian, byteLimit, Nat.mod_one]
  | succ n ih => simp [littleEndian, ofLittleEndian, byteLimit, ih, Nat.mod_mul]

theorem ofLittleEndian_lt (bytes : List UInt8) : ofLittleEndian bytes < byteLimit bytes.length := by
  induction bytes with
  | nil => simp [ofLittleEndian, byteLimit]
  | cons b rest ih =>
    have := b.toNat_lt
    simp only [ofLittleEndian, List.length_cons, byteLimit]
    omega

/-- The first `n` items and the rest; `none` when there are fewer. -/
def cut : Nat → List α → Option (List α × List α)
  | 0, xs => some ([], xs)
  | _ + 1, [] => none
  | n + 1, x :: xs => (cut n xs).map fun (front, rest) => (x :: front, rest)

theorem cut_eq_some_iff {n : Nat} {xs front rest : List α} :
    cut n xs = some (front, rest) ↔ xs = front ++ rest ∧ front.length = n := by
  induction n generalizing xs front with
  | zero =>
    cases front <;> simp [cut, eq_comm]
  | succ n ih =>
    cases xs with
    | nil => cases front <;> simp [cut]
    | cons x xs =>
      cases front with
      | nil => simp [cut]
      | cons y ys =>
        simp only [cut, Option.map_eq_some_iff, Prod.exists, Prod.mk.injEq, List.cons.injEq,
          List.cons_append]
        constructor
        · rintro ⟨_, _, h, ⟨rfl, rfl⟩, rfl⟩
          have := ih.1 h
          simp [this]
        · rintro ⟨⟨rfl, h⟩, hl⟩
          exact ⟨ys, rest, ih.2 ⟨h, by simpa using hl⟩, ⟨rfl, rfl⟩, rfl⟩

theorem cut_eq_none_iff {n : Nat} {xs : List α} : cut n xs = none ↔ xs.length < n := by
  induction n generalizing xs with
  | zero => simp [cut]
  | succ n ih => cases xs <;> simp [cut, ih]

end SparseStream
