/-!
Binary floating numbers taken apart and put together, on exact integers. A finite number is
`mantissa * 2 ^ exponent`; the nearest number to a quotient is found by exact division, with ties
going to the even mantissa.
-/
namespace SparseStream.Decimal

inductive Binary where
  | nan
  | infinite (negative : Bool)
  | finite (negative : Bool) (mantissa : Nat) (exponent : Int)
  deriving DecidableEq, Repr

/-- The bit that normal mantissas have on top; it is not stored. -/
def topBit : Nat := 1 <<< 52

/-- The stored exponent of what is not finite. -/
def topExponent : Nat := 2047

def tenTo (n : Nat) : Nat := Nat.pow 10 n

/-- Exponent of the smallest numbers, which is also that of zero. -/
def minExponent : Int := -1074

def Binary.ofBits (bits : UInt64) : Binary :=
  let b : Nat := bits.toNat
  let negative := b.testBit 63
  let exponent : Nat := b / topBit % (topExponent + 1)
  let fraction : Nat := b % topBit
  if exponent = topExponent then
    if fraction = 0 then .infinite negative else .nan
  else if exponent = 0 then .finite negative fraction minExponent
  else .finite negative (topBit + fraction) (exponent + minExponent - 1)

def Binary.ofFloat (x : Float) : Binary := .ofBits x.toBits

/-- The quotient of two numbers to the nearest integer, a tie to the even one. -/
def roundDiv (num den : Nat) : Nat :=
  let q := num / den
  let r := num % den
  if 2 * r < den then q
  else if den < 2 * r then q + 1
  else if q % 2 = 0 then q else q + 1

theorem roundDiv_near (num : Nat) {den : Nat} (h : 0 < den) :
    2 * (roundDiv num den * den) ≤ 2 * num + den ∧
      2 * num ≤ 2 * (roundDiv num den * den) + den := by
  have split := Nat.div_add_mod num den
  have lt := Nat.mod_lt num h
  have up : (num / den + 1) * den = num / den * den + den := by rw [Nat.add_mul, Nat.one_mul]
  rw [Nat.mul_comm] at split
  simp only [roundDiv]
  repeat' split
  all_goals omega

/-- `num / den` times a power of two, as a quotient of integers. -/
def scale (num den : Nat) (power : Int) : Nat × Nat :=
  if 0 ≤ power then (num <<< power.toNat, den) else (num, den <<< (-power).toNat)

/-- The bits of the number nearest to a positive quotient; too large a quotient is infinite. -/
def nearestBits (num den : Nat) : UInt64 :=
  let size : Int := (num.log2 : Int) - den.log2
  let wide := size - 53
  let (n, d) := scale num den (-wide)
  let exponent := max minExponent (if n / d < 2 * topBit then wide else wide + 1)
  let (n, d) := scale num den (-exponent)
  let bits := (exponent - minExponent).toNat * topBit + roundDiv n d
  (min bits (topExponent * topBit)).toUInt64

/-- The nearest number to `digits * 10 ^ exponent`. Quotients far outside of the range are settled
by their size alone. -/
def nearest (negative : Bool) (digits : Nat) (exponent : Int) : Float :=
  let size : Int := exponent + (Nat.toDigits 10 digits).length
  let bits : UInt64 :=
    if digits = 0 ∨ size < -330 then 0
    else if 330 < size then (topExponent * topBit).toUInt64
    else if 0 ≤ exponent then nearestBits (digits * tenTo exponent.toNat) 1
    else nearestBits digits (tenTo (-exponent).toNat)
  Float.ofBits (if negative then bits ||| 0x8000000000000000 else bits)

end SparseStream.Decimal
