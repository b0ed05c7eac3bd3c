import Mathlib.Data.List.Nodup
import Mathlib.Data.Prod.Basic
import SparseStream.Proofs.Accepted

/-! Where the cells of a pattern lie. A line goes on from its anchor in the direction of its order, a
block fills a rectangle. The layout of a pattern lists these cells outright; expanding the pattern
element by element comes to the same list, or to none when a line would leave at the first column. -/
namespace SparseStream

/-- The numbers below a product go through a rectangle line by line: the line is the quotient by the
width, the place in it the remainder. -/
theorem map_range_mul {width : Nat} (positive : 0 < width) (top left height : Nat) :
    (List.range (width * height)).map (fun i => (top + i / width, left + i % width))
      = List.range' top height ×ˢ List.range' left width := by
  induction height with
  | zero => rfl
  | succ height ih =>
    have line : (List.range width).map (fun i =>
          (top + (width * height + i) / width, left + (width * height + i) % width))
        = (List.range' left width).map fun c => (top + height, c) := by
      rw [List.range'_eq_map_range, List.map_map]
      apply List.map_congr_left
      intro i member
      have inside : i < width := List.mem_range.mp member
      rw [Nat.mul_add_div positive, Nat.div_eq_of_lt inside, Nat.mul_add_mod,
        Nat.mod_eq_of_lt inside]
      rfl
    rw [Nat.mul_succ, List.range_add, List.map_append, ih, List.map_map, List.range'_1_concat]
    simp only [SProd.sprod, List.product, List.flatMap_append, List.flatMap_singleton]
    exact congrArg _ line

namespace Order

/-- One step along an order, in rows and columns. A line along a block order runs along its row. -/
def direction : Order → Nat × Int
  | horizontal => (0, 1)
  | vertical => (1, 0)
  | diagonal => (1, 1)
  | antiDiagonal => (1, -1)
  | blockRow _ | blockCol _ => (0, 1)

/-- A cell moved along an order. -/
def moved (order : Order) (distance : Nat) (cell : Cell) : Cell :=
  (cell.1 + distance * order.direction.1, (cell.2 + distance * order.direction.2).toNat)

theorem moved_zero (order : Order) (cell : Cell) : order.moved 0 cell = cell := by
  simp [moved]

theorem row_le_moved (order : Order) (distance : Nat) (cell : Cell) :
    cell.1 ≤ (order.moved distance cell).1 := Nat.le_add_right _ _

/-- Every order goes on by a row, or stays in its row and goes on by a column. -/
theorem moved_injective (order : Order) (cell : Cell) :
    Function.Injective fun distance => order.moved distance cell := by
  intro a b same
  cases order <;> simp only [moved, direction, Prod.mk.injEq] at same <;> omega

/-- The columns on the way are no more than its steps. -/
theorem columns_le (order : Order) (distance : Nat) :
    -(distance : Int) ≤ distance * order.direction.2 ∧
      distance * order.direction.2 ≤ (distance : Int) := by
  cases order <;> simp only [direction] <;> omega

/-- The way leaves at the first column only where columns decrease. -/
theorem leaves_iff (order : Order) (distance col : Nat) :
    col + distance * order.direction.2 < 0 ↔ order = .antiDiagonal ∧ col < distance := by
  cases order <;> simp only [direction, reduceCtorEq, true_and, false_and, iff_false] <;> omega

end Order

/-- All lines have their steps from the direction of the order. -/
theorem Shape.offset?_simple (order : Order) (stride i : Nat) :
    (Shape.simple order stride).offset? i = some ((i * stride) * order.direction.1,
      toSigned ((i * stride : Nat) * order.direction.2)) := by
  cases order <;> simp [offset?, Order.direction]

namespace Pattern

/-- How far the cells of a pattern may lie from its anchor. -/
def reach (p : Pattern) : Nat :=
  match p.shape with
  | .simple _ stride => (p.size - 1) * stride
  | .block _ _ => p.size

/-- The cells of a pattern anchored at a cell: those that a line steps on, or the rectangle of a
block, column by column where the order fixes the rows and row by row where it fixes the columns. -/
def layout (p : Pattern) (row col : Nat) : List Cell :=
  match p.shape with
  | .simple order stride => (List.range p.size).map fun i => order.moved (i * stride) (row, col)
  | .block (.blockRow rows) cols => (List.range' col cols ×ˢ List.range' row rows).map Prod.swap
  | .block (.blockCol cols) rows => List.range' row rows ×ˢ List.range' col cols
  | .block _ _ => []

/-- An element with a column among the signed words has its cell there. -/
theorem cell?_of_offset {p : Pattern} {row col i down : Nat} {right : Int}
    (offset : p.shape.offset? i = some (down, toSigned right)) (near : col < signedLimit)
    (low : 0 ≤ col + right) (high : col + right < signedLimit) :
    p.cell? row col i = some (row + down, (col + right).toNat) := by
  rw [toSigned_eq_self (by omega) (by omega)] at offset
  rw [cell?_eq_some_iff]
  exact ⟨down, right, offset, rfl, moveColumn?_eq_some_iff.mpr ⟨near, low, high, rfl⟩⟩

/-- The expansion of a pattern all of whose elements have a cell. -/
theorem cells?_of_cell? {p : Pattern} {row col : Nat} {place : Nat → Cell}
    (placed : ∀ i < p.size, p.cell? row col i = some (place i)) :
    p.cells? row col = some ((List.range p.size).map place) := by
  rw [cells?_eq, mapM_eq_some_iff, List.map_map]
  exact List.map_congr_left fun i member => placed i (List.mem_range.mp member)

section Line

variable {order : Order} {stride size row col : Nat}

/-- An element of a line has its cell unless the way to it leaves at the first column. -/
theorem cell?_line {i : Nat} (bound : i < size)
    (right : col + (size - 1) * stride < signedLimit) :
    cell? ⟨.simple order stride, size⟩ row col i =
      if order = .antiDiagonal ∧ col < i * stride then none
      else some (order.moved (i * stride) (row, col)) := by
  have way : i * stride ≤ (size - 1) * stride := Nat.mul_le_mul_right stride (by omega)
  have offset := Shape.offset?_simple order stride i
  obtain ⟨left, far⟩ := order.columns_le (i * stride)
  split
  next leaves =>
    have negative := (order.leaves_iff (i * stride) col).mpr leaves
    rw [toSigned_eq_self (by omega) (by omega)] at offset
    refine Option.eq_none_iff_forall_ne_some.mpr fun cell placed => ?_
    obtain ⟨_, _, step, -, moved⟩ := cell?_eq_some_iff.mp placed
    obtain ⟨-, first, -, -⟩ := moveColumn?_eq_some_iff.mp moved
    cases offset.symm.trans step
    omega
  next stays =>
    have first := mt (order.leaves_iff (i * stride) col).mp stays
    exact cell?_of_offset offset (by omega) (by omega) (by omega)

/-- A line is laid out when its last element has a cell, for no other is further to the left. -/
theorem cells?_line (positive : 0 < size) (right : col + (size - 1) * stride < signedLimit) :
    cells? ⟨.simple order stride, size⟩ row col =
      if order = .antiDiagonal ∧ col < (size - 1) * stride then none
      else some (layout ⟨.simple order stride, size⟩ row col) := by
  split
  next leaves =>
    refine Option.eq_none_iff_forall_ne_some.mpr fun cells found => ?_
    have last : size - 1 < size := Nat.sub_lt positive Nat.one_pos
    obtain ⟨cell, placed, -⟩ := cell_of_cells? found last
    rw [cell?_line last right, if_pos leaves] at placed
    contradiction
  next stays =>
    apply cells?_of_cell?
    intro i bound
    rw [cell?_line bound right, if_neg]
    rintro ⟨anti, far⟩
    have way : i * stride ≤ (size - 1) * stride :=
      Nat.mul_le_mul_right stride (Nat.le_sub_one_of_lt bound)
    exact stays ⟨anti, Nat.lt_of_lt_of_le far way⟩

end Line

section Block

variable {dim otherDim row col : Nat}

/-- An element of a block is no further from the anchor than the block has elements. -/
theorem cell?_block {p : Pattern} {i down right : Nat}
    (offset : p.shape.offset? i = some (down, toSigned right)) (near : right ≤ i)
    (bound : i < p.size) (inside : col + p.size < signedLimit) :
    p.cell? row col i = some (row + down, col + right) :=
  cell?_of_offset offset (by omega) (by omega) (by omega)

theorem layout_blockCol (positive : 0 < dim) (size : Nat) :
    layout ⟨.block (.blockCol dim) otherDim, size⟩ row col
      = (List.range (dim * otherDim)).map fun i => (row + i / dim, col + i % dim) :=
  (map_range_mul positive row col otherDim).symm

/-- Stored column by column, a block is one stored row by row with rows and columns exchanged. -/
theorem layout_blockRow (positive : 0 < dim) (size : Nat) :
    layout ⟨.block (.blockRow dim) otherDim, size⟩ row col
      = (List.range (dim * otherDim)).map fun i => (row + i % dim, col + i / dim) := by
  have exchanged := congrArg (List.map Prod.swap) (map_range_mul positive col row otherDim)
  rw [List.map_map] at exchanged
  exact exchanged.symm

theorem cells?_blockCol (positive : 0 < dim) (right : col + dim * otherDim < signedLimit) :
    cells? ⟨.block (.blockCol dim) otherDim, dim * otherDim⟩ row col
      = some (layout ⟨.block (.blockCol dim) otherDim, dim * otherDim⟩ row col) := by
  rw [layout_blockCol positive]
  apply cells?_of_cell?
  intro i bound
  exact cell?_block (if_neg (Nat.ne_of_gt positive)) (Nat.mod_le i dim) bound right

theorem cells?_blockRow (positive : 0 < dim) (right : col + dim * otherDim < signedLimit) :
    cells? ⟨.block (.blockRow dim) otherDim, dim * otherDim⟩ row col
      = some (layout ⟨.block (.blockRow dim) otherDim, dim * otherDim⟩ row col) := by
  rw [layout_blockRow positive]
  apply cells?_of_cell?
  intro i bound
  exact cell?_block (if_neg (Nat.ne_of_gt positive)) (Nat.div_le_self i dim) bound right

end Block

/-- What holds of the cells of a pattern anchored at a cell. -/
structure Laid (p : Pattern) (row col : Nat) (cells : List Cell) : Prop where
  length : cells.length = p.size
  distinct : cells.Nodup
  anchor : cells.head? = some (row, col)
  below : ∀ cell ∈ cells, row ≤ cell.1
  last : p.shape.order = .horizontal → cells.getLast? = some (row, col + p.shape.advance p.size)

/-- Elements placed one by one are laid out right when the first is on the anchor, none is above it
and no two share a cell. -/
theorem Laid.of_place {p : Pattern} {row col : Nat} {place : Nat → Cell} (positive : 0 < p.size)
    (distinct : ((List.range p.size).map place).Nodup) (anchor : place 0 = (row, col))
    (below : ∀ i, row ≤ (place i).1)
    (last : p.shape.order = .horizontal →
      place (p.size - 1) = (row, col + p.shape.advance p.size)) :
    Laid p row col ((List.range p.size).map place) where
  length := by rw [List.length_map, List.length_range]
  distinct := distinct
  anchor := by
    rw [List.head?_map, List.head?_range, if_neg (Nat.ne_of_gt positive), Option.map_some, anchor]
  below := by
    intro cell member
    obtain ⟨i, -, rfl⟩ := List.mem_map.mp member
    exact below i
  last := by
    intro horizontal
    rw [List.getLast?_map, List.getLast?_range, if_neg (Nat.ne_of_gt positive), Option.map_some,
      last horizontal]

theorem laid_line {order : Order} {stride size : Nat} (forward : 0 < stride) (positive : 0 < size)
    (row col : Nat) : Laid ⟨.simple order stride, size⟩ row col
      (layout ⟨.simple order stride, size⟩ row col) := by
  apply Laid.of_place positive
  · refine List.nodup_range.map fun i j same => ?_
    exact Nat.eq_of_mul_eq_mul_right forward (order.moved_injective (row, col) same)
  · rw [Nat.zero_mul, Order.moved_zero]
  · intro i
    exact order.row_le_moved _ (row, col)
  · rintro rfl
    simp only [Order.moved, Order.direction, Shape.advance, Int.mul_one, Nat.mul_zero]
    rfl

theorem laid_blockCol {dim otherDim : Nat} (wide : 0 < dim) (long : 0 < otherDim) (row col : Nat) :
    Laid ⟨.block (.blockCol dim) otherDim, dim * otherDim⟩ row col
      (layout ⟨.block (.blockCol dim) otherDim, dim * otherDim⟩ row col) := by
  have distinct : (layout ⟨.block (.blockCol dim) otherDim, dim * otherDim⟩ row col).Nodup :=
    List.Nodup.product List.nodup_range' List.nodup_range'
  rw [layout_blockCol wide] at distinct ⊢
  refine Laid.of_place (Nat.mul_pos wide long) distinct ?_ (fun i => Nat.le_add_right _ _) nofun
  rw [Nat.zero_div, Nat.zero_mod]
  rfl

theorem laid_blockRow {dim otherDim : Nat} (wide : 0 < dim) (long : 0 < otherDim) (row col : Nat) :
    Laid ⟨.block (.blockRow dim) otherDim, dim * otherDim⟩ row col
      (layout ⟨.block (.blockRow dim) otherDim, dim * otherDim⟩ row col) := by
  have distinct : (layout ⟨.block (.blockRow dim) otherDim, dim * otherDim⟩ row col).Nodup :=
    (List.Nodup.product List.nodup_range' List.nodup_range').map Prod.swap_injective
  rw [layout_blockRow wide] at distinct ⊢
  refine Laid.of_place (Nat.mul_pos wide long) distinct ?_ (fun i => Nat.le_add_right _ _) nofun
  rw [Nat.zero_div, Nat.zero_mod]
  rfl

theorem order_of_blockDim? {order : Order} {dim : Nat} (block : order.blockDim? = some dim) :
    order = .blockRow dim ∨ order = .blockCol dim := by
  cases order <;> simp_all [Order.blockDim?]

/-- Expanding a pattern lays its cells out, each of them once, unless columns decrease and the anchor
is too close to the first one. The column cursor moves to the last cell of a horizontal line, and stays
on the anchor of every other pattern. -/
theorem expansion_of_admitted {p : Pattern} {row col : Nat} (admitted : p.Admitted)
    (right : col + p.reach < signedLimit) :
    (p.cells? row col = if p.shape.order = .antiDiagonal ∧ col < p.reach then none
      else some (p.layout row col)) ∧
    Laid p row col (p.layout row col) ∧
    (p.shape.order ≠ .horizontal → ∀ size, p.shape.advance size = 0) := by
  have still : p.shape.order ≠ .horizontal → ∀ size, p.shape.advance size = 0 := by
    intro other size
    apply Shape.advance_eq_zero
    intro stride line
    exact other (congrArg Shape.order line)
  cases admitted with
  | line _ _ made =>
    obtain ⟨-, forward, positive, rfl⟩ := line_eq_ok_iff.mp made
    exact ⟨cells?_line positive right, laid_line forward positive row col, still⟩
  | block _ made =>
    obtain ⟨dim, dimension, wide, -, long, rfl⟩ := block_eq_ok_iff.mp made
    rcases order_of_blockDim? dimension with rfl | rfl
    · exact ⟨cells?_blockRow wide right, laid_blockRow wide long row col, still⟩
    · exact ⟨cells?_blockCol wide right, laid_blockCol wide long row col, still⟩

/-- Three cells of an anti-diagonal with a stride of two take four columns to the left. -/
theorem expansion_of_antiDiagonal :
    cells? ⟨.simple .antiDiagonal 2, 3⟩ 5 4 = some [(5, 4), (7, 2), (9, 0)] ∧
    cells? ⟨.simple .antiDiagonal 2, 3⟩ 5 3 = none ∧
    Laid ⟨.simple .antiDiagonal 2, 3⟩ 5 4 [(5, 4), (7, 2), (9, 0)] := by
  have made : line .antiDiagonal 2 3 = .ok ⟨.simple .antiDiagonal 2, 3⟩ := rfl
  have admitted : Admitted ⟨.simple .antiDiagonal 2, 3⟩ := .line (by decide) (by decide) made
  obtain ⟨far, laid, -⟩ := @expansion_of_admitted _ 5 4 admitted (by decide)
  obtain ⟨near, -, -⟩ := @expansion_of_admitted _ 5 3 admitted (by decide)
  exact ⟨far, near, laid⟩

/-- A block of two rows and three columns, one column after another. -/
example : cells? ⟨.block (.blockRow 2) 3, 6⟩ 4 5
    = some [(4, 5), (5, 5), (4, 6), (5, 6), (4, 7), (5, 7)] := by decide

end Pattern
end SparseStream
