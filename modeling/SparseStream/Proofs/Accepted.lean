import SparseStream.Header
import SparseStream.Partition

/-! What patterns, elements and partitions satisfy once their constructors have accepted them. -/
namespace SparseStream

namespace Pattern

/-- A pattern that one of the two constructors made. -/
inductive Admitted (p : Pattern) : Prop
  | line {order : Order} {stride size : Nat} : stride < strideLimit → size < wordLimit →
      line order stride size = .ok p → Admitted p
  | block {order : Order} {otherDim : Nat} : otherDim < strideLimit →
      block order otherDim = .ok p → Admitted p

theorem line_eq_ok_iff {order : Order} {stride size : Nat} {p : Pattern} :
    line order stride size = .ok p ↔
      order.isBlock = false ∧ 0 < stride ∧ 0 < size ∧ p = ⟨.simple order stride, size⟩ := by
  unfold line
  by_cases blocks : order.isBlock
  · simp [blocks]
  by_cases still : stride = 0
  · simp [blocks, still]
  by_cases empty : size = 0
  · simp [blocks, still, empty]
  · simp [blocks, still, empty, Nat.pos_iff_ne_zero, eq_comm]

theorem block_eq_ok_iff {order : Order} {otherDim : Nat} {p : Pattern} :
    block order otherDim = .ok p ↔
      ∃ dim, order.blockDim? = some dim ∧ 0 < dim ∧ dim ≤ maxBlockDim ∧ 0 < otherDim ∧
        p = ⟨.block order otherDim, dim * otherDim⟩ := by
  unfold block
  cases order.blockDim? with
  | none => simp
  | some dim =>
    by_cases wrong : dim = 0 ∨ maxBlockDim < dim
    · simp only [if_pos wrong, reduceCtorEq, false_iff]
      rintro ⟨d, same, wide, narrow, -⟩
      cases same
      omega
    by_cases empty : otherDim = 0
    · simp [wrong, empty]
    · have dimension : 0 < dim ∧ dim ≤ maxBlockDim := by omega
      simp [wrong, empty, dimension, Nat.pos_of_ne_zero empty, eq_comm]

theorem Admitted.size_pos {p : Pattern} (admitted : p.Admitted) : 0 < p.size := by
  cases admitted with
  | line _ _ made =>
    obtain ⟨-, -, positive, rfl⟩ := line_eq_ok_iff.mp made
    exact positive
  | block _ made =>
    obtain ⟨dim, -, wide, -, long, rfl⟩ := block_eq_ok_iff.mp made
    exact Nat.mul_pos wide long

end Pattern

/-- Only a horizontal line reaches past its own column. -/
theorem Shape.advance_eq_zero {s : Shape} (size : Nat)
    (other : ∀ stride, s ≠ .simple .horizontal stride) : s.advance size = 0 := by
  unfold advance
  split
  · exact absurd rfl (other _)
  · rfl

/-- A look-up for each item finds them all when each of them finds its result. -/
theorem mapM_eq_some_iff {xs : List α} {ys : List β} {f : α → Option β} :
    xs.mapM f = some ys ↔ xs.map f = ys.map some := by
  induction xs generalizing ys with
  | nil => cases ys <;> simp
  | cons x xs ih =>
    simp only [List.mapM_cons, Option.bind_eq_bind, Option.bind_eq_some_iff, Option.pure_def,
      Option.some.injEq]
    constructor
    · rintro ⟨y, first, rest, more, rfl⟩
      rw [List.map_cons, List.map_cons, first, ih.mp more]
    · intro same
      cases ys with
      | nil => contradiction
      | cons y ys =>
        rw [List.map_cons, List.map_cons, List.cons.injEq] at same
        exact ⟨y, same.1, ys, ih.mpr same.2, rfl⟩

theorem moveColumn?_eq_some_iff {col c : Nat} {step : Int} :
    moveColumn? col step = some c ↔
      col < signedLimit ∧ 0 ≤ col + step ∧ col + step < signedLimit ∧ c = (col + step).toNat := by
  rw [moveColumn?]
  split
  · rename_i inside
    simp [inside, eq_comm]
  · rename_i outside
    simp only [reduceCtorEq, false_iff]
    rintro ⟨low, positive, high, -⟩
    exact outside ⟨low, positive, high⟩

namespace Pattern

theorem cell?_eq_some_iff {p : Pattern} {row col i : Nat} {cell : Cell} :
    p.cell? row col i = some cell ↔
      ∃ down right, p.shape.offset? i = some (down, right) ∧ cell.1 = row + down ∧
        moveColumn? col right = some cell.2 := by
  cases cell with
  | mk r c =>
    simp only [cell?, Option.bind_eq_bind, Option.bind_eq_some_iff, Option.pure_def,
      Option.some.injEq, Prod.mk.injEq, Prod.exists]
    constructor
    · rintro ⟨down, right, found, _, moved, rfl, rfl⟩
      exact ⟨down, right, found, rfl, moved⟩
    · rintro ⟨down, right, found, rfl, moved⟩
      exact ⟨down, right, found, c, moved, rfl, rfl⟩

/-- The first element of a pattern is its anchor. -/
theorem col_of_cell?_zero {p : Pattern} {row col : Nat} {cell : Cell}
    (placed : p.cell? row col 0 = some cell) : cell.2 = col := by
  obtain ⟨down, right, step, -, moved⟩ := cell?_eq_some_iff.mp placed
  have still := Shape.offset?_zero step
  obtain ⟨-, -, -, same⟩ := moveColumn?_eq_some_iff.mp moved
  cases still
  simpa using same

/-- Where all cells of a pattern exist, each of them does. -/
theorem cell_of_cells? {p : Pattern} {row col i : Nat} {cells : List Cell}
    (found : p.cells? row col = some cells) (bound : i < p.size) :
    ∃ cell, p.cell? row col i = some cell ∧ cell ∈ cells := by
  rw [cells?_eq, mapM_eq_some_iff] at found
  have member : p.cell? row col i ∈ cells.map some :=
    found ▸ List.mem_map_of_mem (List.mem_range.mpr bound)
  obtain ⟨cell, inCells, same⟩ := List.mem_map.mp member
  exact ⟨cell, same.symm, inCells⟩

/-- A line of one unit ends at a column that is a signed word. -/
theorem last_lt_of_cell? {stride size row col : Nat} {cell : Cell} (narrow : stride < strideLimit)
    (small : size ≤ Header.maxSize)
    (placed : cell? ⟨.simple .horizontal stride, size⟩ row col (size - 1) = some cell) :
    col + (size - 1) * stride < signedLimit := by
  obtain ⟨_, right, step, -, moved⟩ := cell?_eq_some_iff.mp placed
  simp only [Shape.offset?, Option.some.injEq, Prod.mk.injEq] at step
  obtain ⟨-, -, high, -⟩ := moveColumn?_eq_some_iff.mp moved
  have steps : size - 1 ≤ 254 := Nat.sub_le_sub_right small 1
  have reach : (size - 1) * stride ≤ 254 * stride := Nat.mul_le_mul_right stride steps
  have limit : 254 * strideLimit < signedLimit := by decide
  have whole : toSigned (((size - 1 : Nat) : Int) * (stride : Int))
      = ((size - 1) * stride : Nat) := by
    rw [← Int.natCast_mul]
    exact toSigned_eq_self (by omega) (by omega)
  rw [← step.2, whole] at high
  omega

end Pattern

namespace Element

/-- Columns are words, patterns come from their constructors, and a horizontal line ends at a column
that is a word. -/
def Fits : Element α → Prop
  | plain col _ => col < wordLimit
  | pattern col p _ => p.Admitted ∧ col + p.shape.advance p.size < wordLimit

theorem Fits.col_lt {x : Element α} (fits : x.Fits) : x.col < wordLimit := by
  cases x with
  | plain col value => exact fits
  | pattern col p values => exact Nat.lt_of_le_of_lt (Nat.le_add_right _ _) fits.2

/-- A pattern among the elements comes from its constructors. -/
def Admitted : Element α → Prop
  | plain _ _ => True
  | pattern _ p _ => p.Admitted

/-- A value for each matrix entry that the element stands for. -/
def Counted (x : Element α) : Prop := x.values.length = x.count

/-- An element of a row as a partition accepts it: all of its cells exist and lie inside. -/
structure Sound (nRows nCols row : Nat) (x : Element α) : Prop where
  admitted : x.Admitted
  counted : x.Counted
  cells : ∃ cells, x.cells? row = some cells ∧ ∀ cell ∈ cells, cell.1 < nRows ∧ cell.2 < nCols

theorem length_of_cells? {x : Element α} {row : Nat} {cells : List Cell}
    (found : x.cells? row = some cells) : cells.length = x.count := by
  cases x with
  | plain col value =>
    cases found
    rfl
  | pattern col p values =>
    rw [cells?, Pattern.cells?_eq, mapM_eq_some_iff] at found
    simpa [count] using (congrArg List.length found).symm

theorem Sound.col_lt {nRows nCols row : Nat} {x : Element α} (sound : x.Sound nRows nCols row) :
    x.col < nCols := by
  obtain ⟨cells, found, inside⟩ := sound.cells
  cases x with
  | plain col value =>
    cases found
    exact (inside (row, col) (List.mem_singleton_self _)).2
  | pattern col p values =>
    obtain ⟨cell, placed, member⟩ := Pattern.cell_of_cells? found sound.admitted.size_pos
    exact Pattern.col_of_cell?_zero placed ▸ (inside cell member).2

/-- An accepted element that fits one unit ends at a column that is a word: its last cell exists,
and the steps of a unit do not leave the signed words. -/
theorem Sound.fits {nRows nCols row : Nat} {x : Element α} (sound : x.Sound nRows nCols row)
    (word : nCols < wordLimit) (small : x.count ≤ Header.maxSize) : x.Fits := by
  have col := Nat.lt_trans sound.col_lt word
  cases x with
  | plain => exact col
  | pattern col p values =>
    refine ⟨sound.admitted, ?_⟩
    obtain ⟨cells, found, -⟩ := sound.cells
    have admitted : p.Admitted := sound.admitted
    cases admitted with
    | block _ made =>
      obtain ⟨dim, -, -, -, -, rfl⟩ := Pattern.block_eq_ok_iff.mp made
      exact col
    | @line order stride size narrow _ made =>
      obtain ⟨-, -, positive, rfl⟩ := Pattern.line_eq_ok_iff.mp made
      cases order with
      | horizontal =>
        obtain ⟨cell, placed, -⟩ := Pattern.cell_of_cells? found (Nat.sub_lt positive Nat.one_pos)
        have last := Pattern.last_lt_of_cell? narrow small placed
        exact Nat.lt_trans last (by decide)
      | _ => exact col

end Element

theorem forM_eq_ok_iff {xs : List α} {f : α → Except ε Unit} :
    xs.forM f = .ok () ↔ ∀ x ∈ xs, f x = .ok () := by
  induction xs with
  | nil => simp [pure, Except.pure]
  | cons x xs ih =>
    rw [List.forM_eq_forM] at ih
    simp only [List.forM_eq_forM, List.forM_cons, bind_eq_ok, ih, List.forall_mem_cons]
    constructor
    · rintro ⟨_, first, rest⟩
      exact ⟨first, rest⟩
    · rintro ⟨first, rest⟩
      exact ⟨(), first, rest⟩

theorem exists_mem_of_forM_eq_error {xs : List β} {f : β → Except ε Unit} {failure : ε}
    (failed : xs.forM f = .error failure) : ∃ x ∈ xs, f x = .error failure := by
  rw [List.forM_eq_forM] at failed
  induction xs with
  | nil => contradiction
  | cons x xs ih =>
    rw [List.forM_cons] at failed
    cases first : f x with
    | error failure' =>
      rw [first] at failed
      cases failed
      exact ⟨x, List.mem_cons_self .., first⟩
    | ok done =>
      rw [first] at failed
      obtain ⟨y, member, found⟩ := ih failed
      exact ⟨y, List.mem_cons_of_mem _ member, found⟩

theorem error_of_bind_ok {x : Except ε β} {f : β → γ} {failure : ε}
    (failed : (x >>= fun b => .ok (f b)) = .error failure) : x = .error failure := by
  cases x with
  | error failure' =>
    cases failed
    rfl
  | ok b => cases failed

namespace Partition

/-- What the rows of an accepted partition satisfy. -/
structure Sound (p : Partition α) : Prop where
  readable : p.unreadable = 0
  count : total (p.rows.flatten.map Element.count) = p.count
  nCols : p.nCols < wordLimit
  ordered : ∀ row ∈ p.rows, (row.map Element.col).Pairwise (· < ·)
  sound : ∀ (i : Nat) (row : List (Element α)), p.rows[i]? = some row →
    ∀ x ∈ row, x.Sound p.nRows p.nCols i

theorem Sound.counted {p : Partition α} (sound : p.Sound) : ∀ x ∈ p.rows.flatten, x.Counted := by
  intro x member
  obtain ⟨row, inRows, inRow⟩ := List.mem_flatten.mp member
  obtain ⟨i, found⟩ := List.getElem?_of_mem inRows
  exact (sound.sound i row found x inRow).counted

theorem sound_of_checkElement {rowStart nRows nCols row : Nat} {x : Element α} (place : row < nRows)
    (admitted : x.Admitted) (passed : checkElement rowStart nRows nCols row x = .ok ()) :
    x.Sound nRows nCols row := by
  cases x with
  | plain col value =>
    rw [checkElement] at passed
    split at passed
    · contradiction
    · exact ⟨admitted, rfl, _, rfl, by simp; omega⟩
  | pattern col p values =>
    rw [checkElement] at passed
    split at passed
    · contradiction
    · rename_i counted
      have count : values.length = p.size := Decidable.not_not.mp counted
      split at passed
      · contradiction
      · rename_i cells found
        split at passed
        · contradiction
        · rename_i inside
          refine ⟨admitted, count, cells, found, ?_⟩
          intro cell member
          have outside := List.find?_eq_none.mp inside cell member
          simp only [Bool.or_eq_true, decide_eq_true_eq, not_or] at outside
          exact ⟨Nat.lt_of_not_le outside.1, Nat.lt_of_not_le outside.2⟩

/-- A checked row has its columns in order, behind the column before it, and its elements
checked. -/
theorem ordered_of_checkRow {rowStart nRows nCols row : Nat} {previous : Option Nat}
    {elems : List (Element α)}
    (passed : checkRow rowStart nRows nCols row previous elems = .ok ()) :
    (∀ p ∈ previous, ∀ x ∈ elems, p < x.col) ∧ (elems.map Element.col).Pairwise (· < ·) ∧
      ∀ x ∈ elems, checkElement rowStart nRows nCols row x = .ok () := by
  induction elems generalizing previous with
  | nil => simp
  | cons x elems ih =>
    have tail : checkElement rowStart nRows nCols row x = .ok () ∧
        checkRow rowStart nRows nCols row (some x.col) elems = .ok () ∧
        ∀ p ∈ previous, p < x.col := by
      cases previous with
      | none =>
        simp only [checkRow, bind_eq_ok] at passed
        obtain ⟨_, first, rest⟩ := passed
        exact ⟨first, rest, by simp⟩
      | some p =>
        rw [checkRow] at passed
        split at passed
        · contradiction
        · simp only [bind_eq_ok] at passed
          obtain ⟨_, first, rest⟩ := passed
          exact ⟨first, rest, by simp; omega⟩
    obtain ⟨first, rest, behind⟩ := tail
    obtain ⟨after, ordered, checked⟩ := ih rest
    refine ⟨?_, ?_, List.forall_mem_cons.mpr ⟨first, checked⟩⟩
    · intro p member
      rw [List.forall_mem_cons]
      exact ⟨behind p member, fun y later =>
        Nat.lt_trans (behind p member) (after x.col rfl y later)⟩
    · rw [List.map_cons, List.pairwise_cons]
      exact ⟨by simpa using after x.col rfl, ordered⟩

theorem sound_of_ofRows {rowStart nCols : Nat} {rows : List (List (Element α))} {p : Partition α}
    (word : nCols < wordLimit) (admitted : ∀ row ∈ rows, ∀ x ∈ row, x.Admitted)
    (made : ofRows rowStart nCols rows = .ok p) : p.Sound := by
  simp only [ofRows, bind_eq_ok, pure, Except.pure, Except.ok.injEq] at made
  obtain ⟨_, passed, rfl⟩ := made
  have checked := forM_eq_ok_iff.mp passed
  have row : ∀ i row, rows[i]? = some row →
      checkRow rowStart rows.length nCols i none row = .ok () := by
    intro i row found
    apply checked (row, i)
    exact List.mem_zipIdx_iff_getElem?.mpr found
  refine ⟨rfl, rfl, word, ?_, ?_⟩
  · intro elems member
    obtain ⟨i, found⟩ := List.getElem?_of_mem member
    exact (ordered_of_checkRow (row i elems found)).2.1
  · intro i elems found x member
    have place : i < rows.length := (List.getElem?_eq_some_iff.mp found).1
    exact sound_of_checkElement place (admitted elems (List.mem_of_getElem? found) x member)
      ((ordered_of_checkRow (row i elems found)).2.2 x member)

end Partition
end SparseStream
