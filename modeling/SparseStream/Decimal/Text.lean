import SparseStream.Decimal.Binary

/-!
Decimal text of floating numbers: with a fixed count of places, or with the fewest digits that
still single the number out among its neighbours.
-/
namespace SparseStream.Decimal

/-- `digits` with a point before its last `places` digits. -/
def pointText (digits places : Nat) : String :=
  let text := (Nat.toDigits 10 digits)
  let padded := List.replicate (places + 1 - text.length) '0' ++ text
  let whole := padded.take (padded.length - places)
  if places = 0 then String.ofList whole
  else String.ofList (whole ++ '.' :: padded.drop (padded.length - places))

def signText (negative : Bool) : String := if negative then "-" else ""

/-- A number with `places` places, a tie going to the even last digit. -/
def fixedText (places : Nat) (x : Float) : String :=
  match Binary.ofFloat x with
  | .nan => "NaN"
  | .infinite negative => signText negative ++ "inf"
  | .finite negative m e =>
    let (num, den) := scale (m * tenTo places) 1 e
    signText negative ++ pointText (roundDiv num den) places

/-- Digits with no point, and the power of ten of the last one. -/
structure Digits where
  digits : Nat
  exponent : Int
  deriving DecidableEq, Repr

/-- The multiple of `10 ^ power` that lies nearest to `v * 2 ^ e`, among those between
`lo * 2 ^ e` and `hi * 2 ^ e`; of two as near the upper one. The bounds count when `closed`. -/
def onGrid? (lo v hi : Nat) (closed : Bool) (e power : Int) : Option Digits :=
  let (up, down) : Nat × Nat :=
    if 0 ≤ power then (1, tenTo power.toNat) else (tenTo (-power).toNat, 1)
  let (up, down) := scale up down e
  let below := v * up / down
  let above := below + 1
  let inside (d : Nat) : Bool :=
    if closed then lo * up ≤ d * down && d * down ≤ hi * up
    else lo * up < d * down && d * down < hi * up
  let upper := 2 * (v * up) ≥ (below + above) * down
  if inside below && inside above then some ⟨if upper then above else below, power⟩
  else if inside above then some ⟨above, power⟩
  else if inside below && below != 0 then some ⟨below, power⟩
  else none

/-- The fewest digits that read back as a positive number, and of those the nearest. The grids are
tried from the coarsest on. -/
def shortest (m : Nat) (e : Int) : Digits :=
  let narrow := m = topBit ∧ minExponent < e
  let lo := if narrow then 4 * m - 1 else 4 * m - 2
  let top : Int := ((m.log2 : Int) + e) * 30103 / 100000 + 2
  let powers := (List.range 24).map fun i : Nat => top - i
  (powers.findSome? (onGrid? lo (4 * m) (4 * m + 2) (m % 2 = 0) (e - 2))).getD ⟨0, 0⟩

/-- One digit before the point, then the power of ten. -/
def scientificText (x : Float) : String :=
  match Binary.ofFloat x with
  | .nan => "NaN"
  | .infinite negative => signText negative ++ "inf"
  | .finite negative 0 _ => signText negative ++ "0e0"
  | .finite negative m e =>
    let d := shortest m e
    let places := (Nat.toDigits 10 d.digits).length - 1
    signText negative ++ pointText d.digits places ++ "e" ++ toString (d.exponent + places)

/-- Numbers from `10 ^ -4` to below `10 ^ 16` are written out, with a point always; others with a
power of ten. -/
def plainText (x : Float) : String :=
  match Binary.ofFloat x with
  | .finite negative 0 _ => signText negative ++ "0.0"
  | .finite negative m e =>
    let d := shortest m e
    let leading := d.exponent + (Nat.toDigits 10 d.digits).length - 1
    if leading < -4 ∨ 16 ≤ leading then scientificText x
    else if 0 ≤ d.exponent then
      signText negative ++ toString (d.digits * tenTo d.exponent.toNat) ++ ".0"
    else signText negative ++ pointText d.digits (-d.exponent).toNat
  | _ => scientificText x

end SparseStream.Decimal
