import SparseStream.Error

/-!
Room in memory. The size of an array is a signed word, so an array of `signedLimit` bytes or more
cannot be asked for: the request ends the program before any memory is touched.

`reserve` stands where an array is asked for at once, at a size that a number of the caller sets:
row pointers, lists of ranges, the room for a stream, for a result or for the entries of a file. A
list that grows item by item, such as the cells of a pattern or the triplets of a stream, is not
guarded: it holds no more than was walked through to fill it. What an encoder asks for while it runs
can be refused without ending the program, and is answered in its state (`Encoder.request`).
-/
namespace SparseStream

/-- The most bytes that one array takes. -/
def allocationLimit : Nat := signedLimit - 1

/-- Bytes of a row, a column, a count or an offset. -/
def wordBytes : Nat := 8

/-- Asks for room for `n` items of a size. -/
def reserve (n size : Nat) : Except Failure Unit :=
  if allocationLimit < n * size then .error .outOfBounds else .ok ()

theorem reserve_eq_ok_iff {n size : Nat} : reserve n size = .ok () ↔ n * size < signedLimit := by
  have : 0 < signedLimit := by decide
  unfold reserve allocationLimit
  split <;> simp <;> omega

end SparseStream
