import SparseStream.Header
import SparseStream.Memory
import SparseStream.Varint
import SparseStream.Width

/-!
The bytes of a stream while it is written. Fields are appended at the end; only the flags byte of a
header is changed afterwards. A buffer remembers how many bytes were set aside for it.

The writes here are what is written once there is room. Whoever writes asks for room first
(`Encoder.write`), and a request that is refused leaves the buffer as it is.
-/
namespace SparseStream

structure Buffer where
  bytes : Array UInt8 := #[]
  reserved : Nat := 0
  deriving DecidableEq, Repr

namespace Buffer

/-- A buffer in room made for `n` bytes, after the `held` bytes in it were cleared away. Room that
was too small for them has doubled, and is at least eight bytes then. -/
def withRoom (n held : Nat) : Except Failure Buffer := do
  reserve n 1
  return { reserved := if held ≤ n then n else max 8 (max (2 * n) held) }

def size (b : Buffer) : Nat := b.bytes.size

/-- More bytes were written than had been set aside. -/
def outgrown (b : Buffer) : Bool := b.reserved < b.size

def append (b : Buffer) (more : List UInt8) : Buffer := { b with bytes := b.bytes ++ more }

/-- A flags byte and a size byte. -/
def header (b : Buffer) (flags size : Nat) : Buffer := b.append [flags.toUInt8, size.toUInt8]

def varint (b : Buffer) (n : Nat) : Buffer := b.append (Varint.encode n)

/-- A column in four bytes. -/
def fullColumn (b : Buffer) (col : Nat) : Buffer := b.append (littleEndian 4 col)

/-- Differences packed back to back. -/
def packed (b : Buffer) (w : Width) (ns : List Nat) : Buffer := b.append (ns.flatMap w.pack)

/-- Sets a bit of the byte at an offset. An offset behind the end changes nothing. -/
def setBit (b : Buffer) (offset bit : Nat) : Buffer :=
  { b with bytes := b.bytes.modify offset (· ||| (1 <<< bit.toUInt8)) }

/-- As `setBit`, for an offset that has to be inside of the buffer. -/
def setBit? (b : Buffer) (offset bit : Nat) : Option Buffer :=
  if offset < b.size then some (b.setBit offset bit) else none

@[simp] theorem toList_append (b : Buffer) (more : List UInt8) :
    (b.append more).bytes.toList = b.bytes.toList ++ more := by
  simp [append]

@[simp] theorem size_setBit (b : Buffer) (offset bit : Nat) :
    (b.setBit offset bit).size = b.size := by
  simp [setBit, size]

theorem getElem?_setBit_of_ne (b : Buffer) (bit : Nat) {offset i : Nat} (h : offset ≠ i) :
    (b.setBit offset bit).bytes[i]? = b.bytes[i]? := by
  simp [setBit, Array.getElem?_modify, h]

theorem toList_setBit {b : Buffer} {front back : List UInt8} {c : UInt8} (bit : Nat)
    (bytes : b.bytes.toList = front ++ c :: back) :
    (b.setBit front.length bit).bytes.toList = front ++ (c ||| (1 <<< bit.toUInt8)) :: back := by
  simp [setBit, bytes, List.modify_eq_take_drop]

end Buffer
end SparseStream
