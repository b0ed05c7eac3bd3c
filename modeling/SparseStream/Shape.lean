import SparseStream.Bytes

/-!
Shapes of repeating structure. A shape says where the elements of a pattern lie relative to its
anchor: a step taken again and again, or a dense block. Only the anchor's column is stored in a
stream, all other cells follow from the shape.
-/
namespace SparseStream

/-- The order in which the elements of a pattern are met. A block order carries the dimension it
fixes: the rows of a block stored column by column, or the columns of one stored row by row. -/
inductive Order where
  | horizontal | vertical | diagonal | antiDiagonal
  | blockRow (rows : Nat)
  | blockCol (cols : Nat)
  deriving DecidableEq, Repr

namespace Order

def blockDim? : Order → Option Nat
  | blockRow d | blockCol d => some d
  | _ => none

def isBlock (o : Order) : Bool := o.blockDim?.isSome

def text : Order → String
  | horizontal => "horizontal"
  | vertical => "vertical"
  | diagonal => "diagonal"
  | antiDiagonal => "anti-diagonal"
  | blockRow r => "block-row(" ++ toString r ++ ")"
  | blockCol c => "block-col(" ++ toString c ++ ")"

end Order

/-- Strides and dimensions stay below this. -/
def strideLimit : Nat := byteLimit 4

/-- A stepped line of elements, or a block with its second dimension. Any order may stand in
either; `Pattern` admits the pairs that make sense. -/
inductive Shape where
  | simple (order : Order) (stride : Nat)
  | block (order : Order) (otherDim : Nat)
  deriving DecidableEq, Repr

namespace Shape

def order : Shape → Order
  | simple o _ | block o _ => o

/-- Rows and columns from the anchor to element `i`; the columns are a signed word. A block with a
dimension of zero has no elements to place. -/
def offset? : Shape → Nat → Option (Nat × Int)
  | simple .horizontal s, i => some (0, toSigned (i * s))
  | simple .vertical s, i => some (i * s, 0)
  | simple .diagonal s, i => some (i * s, toSigned (i * s))
  | simple .antiDiagonal s, i => some (i * s, toSigned (-(i * s)))
  | simple (.blockRow _) s, i | simple (.blockCol _) s, i => some (0, toSigned (i * s))
  | block (.blockRow r) _, i => if r = 0 then none else some (i % r, toSigned (i / r : Nat))
  | block (.blockCol c) _, i => if c = 0 then none else some (i / c, toSigned (i % c : Nat))
  | block _ _, i => some (0, toSigned i)

/-- How far `size` elements move the column cursor past the anchor. Only horizontal lines run
along the row that the stream is on. -/
def advance : Shape → Nat → Nat
  | simple .horizontal s, size => (size - 1) * s
  | _, _ => 0

def text : Shape → String
  | simple o s => o.text ++ " stride=" ++ toString s
  | block o d => o.text ++ " x " ++ toString d

theorem offset?_zero {s : Shape} {o : Nat × Int} (h : s.offset? 0 = some o) : o = (0, 0) := by
  unfold offset? at h
  split at h <;> simp_all [eq_comm]

theorem offset?_eq_none_iff {s : Shape} {i : Nat} :
    s.offset? i = none ↔ ∃ d, s = block (.blockRow 0) d ∨ s = block (.blockCol 0) d := by
  unfold offset?
  split <;> simp_all

end Shape

/-- A row and a column. -/
abbrev Cell := Nat × Nat

/-- Moves a column by a signed distance. The sum is taken on signed words: a column of
`signedLimit` or more has no place there, and a sum outside of them has none either. -/
def moveColumn? (col : Nat) (step : Int) : Option Nat :=
  let c := col + step
  if col < signedLimit ∧ 0 ≤ c ∧ c < signedLimit then some c.toNat else none

end SparseStream
