import SparseStream.Bytes
import SparseStream.Decimal.Binary

/-! Numbers in text: words, which may carry a plus sign, and floating numbers. -/
namespace SparseStream.Text

def isDigit (c : Char) : Bool := '0' ≤ c && c ≤ '9'

/-- The number that digits stand for. -/
def digitsValue (cs : List Char) : Nat := cs.foldl (fun n c => 10 * n + (c.toNat - 48)) 0

/-- One digit at least, and nothing else. -/
def digits? (cs : List Char) : Option Nat :=
  if cs.isEmpty || !cs.all isDigit then none else some (digitsValue cs)

/-- A number below `wordLimit`. -/
def word? (cs : List Char) : Option Nat := do
  let n ← digits? (match cs with
    | '+' :: rest => rest
    | _ => cs)
  if n < wordLimit then some n else none

/-- Whether two texts are equal up to the case of ASCII letters. -/
def sameLetters (text : String) (cs : List Char) : Bool := text.toList == cs.map Char.toLower

/-- A sign, if there is one, and what follows it. -/
def signed (cs : List Char) : Bool × List Char :=
  match cs with
  | '-' :: rest => (true, rest)
  | '+' :: rest => (false, rest)
  | _ => (false, cs)

/-- A power of ten: nothing at all, or a letter with a signed number after it. -/
def power? : List Char → Option Int
  | [] => some 0
  | c :: rest =>
    if c = 'e' ∨ c = 'E' then
      let (negative, rest) := signed rest
      (digits? rest).map fun n => if negative then -(n : Int) else n
    else none

/-- Digits with at most one point among them, then a power of ten; or a name for what is no
number or infinite. -/
def float? (cs : List Char) : Option Float :=
  let (negative, cs) := signed cs
  if sameLetters "inf" cs || sameLetters "infinity" cs then
    some (if negative then -1.0 / 0.0 else 1.0 / 0.0)
  else if sameLetters "nan" cs then some (0.0 / 0.0)
  else
    let whole := cs.takeWhile isDigit
    let rest := cs.dropWhile isDigit
    let (places, rest) := match rest with
      | '.' :: more => (more.takeWhile isDigit, more.dropWhile isDigit)
      | _ => ([], rest)
    if whole.isEmpty && places.isEmpty then none
    else
      (power? rest).map fun e =>
        Decimal.nearest negative (digitsValue (whole ++ places)) (e - places.length)

end SparseStream.Text
