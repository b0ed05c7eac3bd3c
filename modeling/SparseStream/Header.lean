import SparseStream.Bytes

/-!
The two bytes that open a unit. The flags byte holds a flag in its low six bits, names the kind of
the unit, and marks in its two high bits whether the unit starts a row and carries a row jump. The
size byte counts the elements of the unit.
-/
namespace SparseStream.Header

/-- Set on a unit that starts a new row. -/
def rowBit : Nat := 7

/-- Set, beside `rowBit`, on a unit that skips empty rows. -/
def jumpBit : Nat := 6

def flagMask : Nat := 63

/-- Flags run from 1; zero names no kind. -/
def maxFlag : Nat := flagMask

def maxSize : Nat := 255

def flag (flags : UInt8) : Nat := flags.toNat % (flagMask + 1)

def bit (flags : UInt8) (i : Nat) : Bool := flags.toNat.testBit i

def startsRow (flags : UInt8) : Bool := bit flags rowBit

def hasJump (flags : UInt8) : Bool := bit flags jumpBit

theorem flag_lt (flags : UInt8) : flag flags < 64 := Nat.mod_lt _ (by decide)

theorem maxFlag_eq : maxFlag = 63 := rfl

theorem maxSize_eq : maxSize = 255 := rfl

end SparseStream.Header
