import Mathlib
import SparseStream.Proofs.LowerTriangle
import SparseStream.Proofs.Product
import SparseStream.Proofs.Room

/-! The product of symmetrically encoded partitions with a vector. Each part adds its values below
the diagonal twice, the second time to a row that may belong to another part, so the product is the
sum of what all parts add. Over a commutative ring it does not matter how this sum is grouped. -/
namespace SparseStream

open SymmetricPartition

/-- An entry below the diagonal and its mirror image. -/
def mirror (t : Triplet α) : List (Triplet α) := [t, ((t.1.2, t.1.1), t.2)]

namespace EncodedSymmetric

variable [Zero α] [Add α] [Mul α] {x y : Array α}

theorem addDiagonal_eq {r : Nat} {ds : List α} (inside : r + ds.length ≤ y.size) :
    addDiagonal x r ds y
      = (((ds.zipIdx r).map fun (d, i) => ((i, i), d)).foldl (addCell x) y, none) := by
  induction ds generalizing r y with
  | nil => rfl
  | cons d ds ih =>
    rw [List.length_cons] at inside
    have size : (addAt y r (d * x.getD r 0)).size = y.size := Array.size_modify
    rw [addDiagonal, if_neg (by omega), ih (by omega)]
    rfl

theorem addReflected_eq {rowStart : Nat} {placed ts : List (Triplet α)}
    (shifted : (placed.map fun ((r, c), v) => ((rowStart + r, c), v)) = ts)
    (inside : ∀ t ∈ ts, t.1.1 < y.size) :
    addReflected x rowStart placed y = ((ts.flatMap mirror).foldl (addCell x) y, none) := by
  subst shifted
  induction placed generalizing y with
  | nil => rfl
  | cons t placed ih =>
    obtain ⟨⟨row, c⟩, v⟩ := t
    rw [List.map_cons, List.forall_mem_cons] at inside
    have size : (addAt (addAt y (rowStart + row) (v * x.getD c 0)) c
        (v * x.getD (rowStart + row) 0)).size = y.size :=
      Array.size_modify.trans Array.size_modify
    simp only [addReflected]
    rw [if_neg (Nat.not_le_of_lt inside.1), ih (by rw [size]; exact inside.2)]
    rfl

end EncodedSymmetric

/-- What a part adds to a product: the diagonal of its rows, and twice the values below it. -/
def updates [Zero α] (first n : Nat) (row : Nat → List (Nat × α)) : List (Triplet α) :=
  ((List.range' first n).map fun i => ((i, i), onDiagonal i (row i))) ++
    ((List.range' first n).flatMap fun i => placeRow i (below i (row i))).flatMap mirror

namespace EncodedSymmetric

variable [Zero α] [Add α] [Mul α] {m : EncodedSymmetric α} {x y : Array α}

theorem ReadsAs.multiplyAdd_eq {first nCols n : Nat} {row : Nat → List (Nat × α)}
    (reads : m.ReadsAs first nCols n row) (inside : first + n ≤ nCols) (xs : x.size = nCols)
    (ys : y.size = nCols) :
    m.multiplyAdd x y = ((updates first n row).foldl (addCell x) y, none) := by
  obtain ⟨placed, walk, shifted⟩ := Encoded.exists_walk reads.lower.triplets
  have sizes : ¬(x.size ≠ m.lower.nCols ∨ y.size ≠ m.lower.nCols) := by
    rw [reads.lower.nCols]
    omega
  have diagonal : m.lower.rowStart + m.diagonal.toList.length ≤ y.size := by
    rw [reads.diagonal, reads.lower.rowStart, List.length_map, List.length_range']
    omega
  have rows : ∀ t ∈ (List.range' first n).flatMap (fun i => placeRow i (below i (row i))),
      t.1.1 < y.size := by
    rintro ⟨⟨r, c⟩, v⟩ member
    obtain ⟨i, place, inRow⟩ := List.mem_flatMap.mp member
    obtain ⟨rfl, -⟩ := mem_placeRow.mp inRow
    have bound := (List.mem_range'_1.mp place).2
    exact Nat.lt_of_lt_of_le bound (ys ▸ inside)
  simp only [multiplyAdd, if_neg sizes, addDiagonal_eq diagonal, walk]
  rw [addReflected_eq shifted fun t member => (size_foldl_addCell x _ y).symm ▸ rows t member,
    ← List.foldl_append, reads.diagonal, reads.lower.rowStart, zipIdx_map_range', List.map_map]
  rfl

/-- What a part adds to a vector of zeros. -/
def share (x : Array α) (m : EncodedSymmetric α) : Except Failure (Array α) :=
  match m.multiplyAdd x (Array.replicate x.size 0) with
  | (_, some failure) => .error failure
  | (y, none) => .ok y

theorem ReadsAs.share_eq {first nCols n : Nat} {row : Nat → List (Nat × α)}
    (reads : m.ReadsAs first nCols n row) (inside : first + n ≤ nCols) (xs : x.size = nCols) :
    m.share x = .ok ((updates first n row).foldl (addCell x) (Array.replicate x.size 0)) := by
  rw [share, reads.multiplyAdd_eq inside xs (Array.size_replicate.trans xs)]

end EncodedSymmetric

theorem multiplySymmetricParts_eq_shares [Zero α] [Add α] [Mul α]
    {parts : List (EncodedSymmetric α)} {x : Array α} :
    multiplySymmetricParts parts x
      = parts.mapM (EncodedSymmetric.share x) >>= fun shares =>
        .ok (sumByHalves (Array.replicate x.size 0) shares) := rfl

/-- A sum of vectors, grouped in any way; zeros may be added anywhere. -/
inductive SumsTo [Add α] (zeros : Array α) : List (Array α) → Array α → Prop
  | zeros : SumsTo zeros [] zeros
  | single (y : Array α) : SumsTo zeros [y] y
  | join {xs ys : List (Array α)} {x y : Array α} : SumsTo zeros xs x → SumsTo zeros ys y →
    SumsTo zeros (xs ++ ys) (addEach x y)

theorem sumsTo_sumByHalves [Add α] (zeros : Array α) (ys : List (Array α)) :
    SumsTo zeros ys (sumByHalves zeros ys) := by
  fun_induction sumByHalves zeros ys with
  | case1 => exact .zeros
  | case2 y => exact .join .zeros (.single y)
  | case3 x y rest half front back =>
    have whole := SumsTo.join front back
    rwa [List.take_append_drop] at whole

section Ring

variable {α : Type} [CommRing α]

theorem getD_addEach {x y : Array α} (same : x.size = y.size) (i : Nat) :
    (addEach x y).getD i 0 = x.getD i 0 + y.getD i 0 := by
  by_cases inside : i < x.size
  · have inside' : i < y.size := same ▸ inside
    simp [addEach, inside, inside']
  · have outside : ¬i < y.size := same ▸ inside
    simp [addEach, inside, outside]

/-- However a sum of vectors is grouped, each place of it is the sum of these places. -/
theorem SumsTo.getD_eq {n : Nat} {ys : List (Array α)} {z : Array α}
    (sums : SumsTo (Array.replicate n 0) ys z) (sized : ∀ y ∈ ys, y.size = n) :
    z.size = n ∧ ∀ i, z.getD i 0 = (ys.map fun y => y.getD i 0).sum := by
  induction sums with
  | zeros =>
    refine ⟨Array.size_replicate, ?_⟩
    intro i
    by_cases inside : i < n <;> simp [inside]
  | single y => exact ⟨sized y (List.mem_singleton_self y), fun i => by simp⟩
  | @join xs ys x y _ _ front back =>
    rw [List.forall_mem_append] at sized
    obtain ⟨size, places⟩ := front sized.1
    obtain ⟨size', places'⟩ := back sized.2
    have same := size.trans size'.symm
    refine ⟨by rw [addEach, Array.size_zipWith, same, Nat.min_self, size'], ?_⟩
    intro i
    rw [getD_addEach same, places, places', List.map_append, List.sum_append]

/-- What an entry adds to place `i` of a product. -/
def weight (x : Array α) (i : Nat) (t : Triplet α) : α :=
  if t.1.1 = i then t.2 * x.getD t.1.2 0 else 0

theorem addRow_onRow (x : Array α) (i : Nat) (ts : List (Triplet α)) (sum : α) :
    addRow x (onRow i ts) sum = sum + (ts.map (weight x i)).sum := by
  induction ts generalizing sum with
  | nil => exact (add_zero sum).symm
  | cons t ts ih =>
    rw [onRow_cons, List.map_cons, List.sum_cons, weight]
    split
    · exact (ih _).trans (add_assoc ..)
    · rw [ih, zero_add]

/-- What the value in row `j` and column `c`, not above the diagonal, is multiplied with for place
`i` of a product, by itself and as its mirror image. -/
def factor (x : Array α) (i j c : Nat) : α :=
  (if j = i then x.getD c 0 else 0) + if c = i ∧ c < j then x.getD j 0 else 0

theorem sum_flatMap_mirror (f : Triplet α → α) (ts : List (Triplet α)) :
    ((ts.flatMap mirror).map f).sum = (ts.map fun t => f t + f ((t.1.2, t.1.1), t.2)).sum := by
  induction ts with
  | nil => rfl
  | cons t ts ih => simp [mirror, ih, add_assoc]

theorem sum_weight_updates (x : Array α) (i first n : Nat) (row : Nat → List (Nat × α)) :
    ((updates first n row).map (weight x i)).sum = ((List.range' first n).map fun j =>
      ((kept j (row j)).map fun e => e.2 * factor x i j e.1).sum).sum := by
  rw [updates, List.map_append, List.sum_append, sum_flatMap_mirror, List.map_map, List.map_flatMap,
    List.flatMap_def, List.sum_flatten, List.map_map, ← List.sum_map_add]
  congr 1
  apply List.map_congr_left
  intro j _
  -- row by row: the diagonal's share, and both shares of each value before it
  have split : kept j (row j) = below j (row j) ++ [(j, onDiagonal j (row j))] := rfl
  have diagonal : weight x i ((j, j), onDiagonal j (row j))
      = onDiagonal j (row j) * factor x i j j := by
    simp [weight, factor]
  have others : ∀ e ∈ below j (row j), weight x i ((j, e.1), e.2) + weight x i ((e.1, j), e.2)
      = e.2 * factor x i j e.1 := by
    intro e member
    simp [weight, factor, (mem_below.mp member).2, mul_add]
  rw [split, List.map_append, List.sum_append, ← List.map_congr_left others, add_comm]
  simp [diagonal, placeRow, Function.comp_def]

variable {m : Csr α} {x : Array α}

/-- A sum over what is kept of a row runs over all columns up to the diagonal. -/
theorem sum_kept (sound : m.Sound) {j : Nat} (bound : j < m.nRows) (g : Nat → α) :
    ((kept j (m.rowEntries j)).map fun e => e.2 * g e.1).sum
      = ∑ c ∈ Finset.range (j + 1), m.valueAt j c * g c := by
  have ordered := ordered_kept (i := j) (Csr.ordered_rowEntries sound bound)
  have distinct : ((kept j (m.rowEntries j)).map Prod.fst).Nodup := ordered.imp Nat.ne_of_lt
  have values : (kept j (m.rowEntries j)).map (fun e => e.2 * g e.1)
      = ((kept j (m.rowEntries j)).map Prod.fst).map fun c => m.valueAt j c * g c := by
    rw [List.map_map]
    apply List.map_congr_left
    intro e member
    rw [Csr.valueAt_of_mem_kept sound bound member]
    rfl
  rw [values, ← List.sum_toFinset _ distinct]
  -- columns up to the diagonal that nothing is kept for hold zero
  apply Finset.sum_subset
  · intro c member
    obtain ⟨e, inRow, rfl⟩ := List.mem_map.mp (List.mem_toFinset.mp member)
    exact Finset.mem_range.mpr (Nat.lt_succ_of_le (col_le_of_mem_kept inRow))
  · intro c inside missing
    have absent : ∀ v, (c, v) ∉ kept j (m.rowEntries j) := fun v member =>
      missing (List.mem_toFinset.mpr (List.mem_map_of_mem (f := Prod.fst) member))
    have before : c < j := by
      rcases Nat.lt_succ_iff_lt_or_eq.mp (Finset.mem_range.mp inside) with before | rfl
      · exact before
      · exact absurd (mem_kept.mpr (.inr rfl)) (absent _)
    have zero : m.valueAt j c = 0 := Csr.valueAt_of_absent fun v stored =>
      absent v (mem_kept.mpr (.inl ⟨stored, before⟩))
    rw [zero, zero_mul]

/-- What row `j` adds to place `i` of a product. -/
def rowShare (m : Csr α) (x : Array α) (i j : Nat) : α :=
  ∑ c ∈ Finset.range (j + 1), m.valueAt j c * factor x i j c

/-- Each value up to the diagonal counts for its own row and, off the diagonal, for that of its
mirror image. -/
theorem sum_rowShare {n i : Nat} (inside : i < n) :
    ∑ j ∈ Finset.range n, rowShare m x i j
      = ∑ c ∈ Finset.range (i + 1), m.valueAt i c * x.getD c 0
        + ∑ j ∈ Finset.Ico (i + 1) n, m.valueAt j i * x.getD j 0 := by
  simp only [rowShare, factor, mul_add, Finset.sum_add_distrib]
  congr 1
  · rw [Finset.sum_eq_single_of_mem i (Finset.mem_range.mpr inside)]
    · simp only [if_pos]
    · intro j _ other
      simp only [if_neg other, mul_zero, Finset.sum_const_zero]
  · have mirrored : ∀ j, ∑ c ∈ Finset.range (j + 1),
        m.valueAt j c * (if c = i ∧ c < j then x.getD j 0 else 0)
          = if i < j then m.valueAt j i * x.getD j 0 else 0 := by
      intro j
      by_cases before : i < j
      · rw [if_pos before, Finset.sum_eq_single_of_mem i (Finset.mem_range.mpr (by omega)),
          if_pos ⟨rfl, before⟩]
        intro c _ other
        rw [if_neg fun both => other both.1, mul_zero]
      · rw [if_neg before]
        apply Finset.sum_eq_zero
        intro c _
        rw [if_neg (by omega), mul_zero]
    have later : (Finset.range n).filter (i < ·) = Finset.Ico (i + 1) n := by
      ext j
      rw [Finset.mem_filter, Finset.mem_range, Finset.mem_Ico]
      omega
    simp only [mirrored]
    rw [← Finset.sum_filter, later]

end Ring

namespace Csr

variable {α : Type} [CommRing α]

/-- The product of the symmetric matrix that has the values of `m` up to the diagonal. -/
def symmetricProduct (m : Csr α) (x : Array α) : Array α :=
  ((List.range m.nRows).map fun i =>
    ∑ j ∈ Finset.range (i + 1), m.valueAt i j * x.getD j 0
      + ∑ j ∈ Finset.Ico (i + 1) m.nRows, m.valueAt j i * x.getD j 0).toArray

/-- The product of a matrix with a vector. -/
def product (m : Csr α) (x : Array α) : Array α :=
  ((List.range m.nRows).map fun i =>
    ∑ j ∈ Finset.range m.nCols, m.valueAt i j * x.getD j 0).toArray

variable {m : Csr α} {x : Array α}

theorem symmetricProduct_eq_product (square : m.nRows = m.nCols)
    (symmetric : ∀ i < m.nRows, ∀ j < m.nRows, m.valueAt i j = m.valueAt j i) :
    m.symmetricProduct x = m.product x := by
  unfold symmetricProduct product
  congr 1
  apply List.map_congr_left
  intro i member
  have inside := List.mem_range.mp member
  rw [← square, ← Finset.sum_range_add_sum_Ico _ (Nat.succ_le_of_lt inside)]
  congr 1
  apply Finset.sum_congr rfl
  intro j later
  rw [symmetric i inside j (Finset.mem_Ico.mp later).2]

/-- Values above the diagonal do not count. -/
theorem symmetricProduct_congr {m' : Csr α} (rows : m'.nRows = m.nRows)
    (same : ∀ i < m.nRows, ∀ j ≤ i, m'.valueAt i j = m.valueAt i j) :
    m'.symmetricProduct x = m.symmetricProduct x := by
  unfold symmetricProduct
  rw [rows]
  congr 1
  apply List.map_congr_left
  intro i member
  have inside := List.mem_range.mp member
  congr 1
  · apply Finset.sum_congr rfl
    intro j before
    rw [same i inside j (Nat.lt_succ_iff.mp (Finset.mem_range.mp before))]
  · apply Finset.sum_congr rfl
    intro j later
    have place := Finset.mem_Ico.mp later
    rw [same j place.2 i (Nat.le_of_succ_le place.1)]

end Csr

section Shares

variable {α : Type} [CommRing α] {m : Csr α} {x : Array α} {ranges : List RowRange}
  {parts : List (EncodedSymmetric α)}

/-- What the rows of a range add to a product. -/
def rangeShare (m : Csr α) (x : Array α) (r : RowRange) : Array α :=
  (updates r.first (r.last - r.first) m.rowEntries).foldl (addCell x) (Array.replicate x.size 0)

theorem mapM_share_eq (square : m.nRows = m.nCols) (size : x.size = m.nRows)
    (tile : RowRange.Tile 0 ranges m.nRows) (read : m.SymmetricPartsRead ranges parts) :
    parts.mapM (EncodedSymmetric.share x) = .ok (ranges.map (rangeShare m x)) := by
  have inside : ∀ r ∈ ranges, r.first + (r.last - r.first) ≤ m.nCols := by
    intro r member
    obtain ⟨order, bound⟩ := tile.order r member
    omega
  have both := (List.forall₂_and_left ranges parts).mpr ⟨inside, read⟩
  rw [mapM_eq_ok_iff, List.forall₂_map_right_iff]
  exact (both.imp fun _ _ part => part.2.share_eq part.1 (size.trans square)).flip

theorem size_rangeShare (r : RowRange) : (rangeShare m x r).size = x.size :=
  (size_foldl_addCell x _ _).trans Array.size_replicate

theorem getD_rangeShare {i : Nat} {r : RowRange} (sound : m.Sound) (bound : r.last ≤ m.nRows)
    (inside : i < x.size) :
    (rangeShare m x r).getD i 0 = (r.rows.map (rowShare m x i)).sum := by
  have rows : ∀ j ∈ r.rows, ((kept j (m.rowEntries j)).map fun e => e.2 * factor x i j e.1).sum
      = rowShare m x i j := by
    intro j member
    have place := RowRange.mem_rows.mp member
    exact sum_kept sound (by omega) _
  rw [← List.map_congr_left rows]
  refine Eq.trans ?_ (sum_weight_updates x i r.first (r.last - r.first) m.rowEntries)
  rw [Array.getD_eq_getD_getElem?, rangeShare, getElem?_foldl_addCell]
  simp [inside, addRow_onRow]

/-- However the shares of all parts are grouped, their sum is the product. -/
theorem sumsTo_shares (sound : m.Sound) (size : x.size = m.nRows)
    (tile : RowRange.Tile 0 ranges m.nRows) {z : Array α}
    (sums : SumsTo (Array.replicate m.nRows 0) (ranges.map (rangeShare m x)) z) :
    z = m.symmetricProduct x := by
  have sized : ∀ y ∈ ranges.map (rangeShare m x), y.size = m.nRows := by
    intro y member
    obtain ⟨r, -, rfl⟩ := List.mem_map.mp member
    exact (size_rangeShare r).trans size
  obtain ⟨length, places⟩ := sums.getD_eq sized
  have length' : (m.symmetricProduct x).size = m.nRows := by simp [Csr.symmetricProduct]
  refine Array.ext (length.trans length'.symm) ?_
  intro i inside inside'
  have bound : i < m.nRows := length ▸ inside
  have each : ∀ r ∈ ranges, (rangeShare m x r).getD i 0 = (r.rows.map (rowShare m x i)).sum :=
    fun r member => getD_rangeShare sound (tile.order r member).2 (size ▸ bound)
  calc z[i] = z.getD i 0 := by simp [inside]
    _ = (ranges.map fun r => (rangeShare m x r).getD i 0).sum := by
      rw [places, List.map_map]
      rfl
    _ = ((ranges.flatMap RowRange.rows).map (rowShare m x i)).sum := by
      rw [List.map_congr_left each, List.map_flatMap, List.flatMap_def, List.sum_flatten,
        List.map_map]
      rfl
    _ = ∑ j ∈ Finset.range m.nRows, rowShare m x i j := by
      rw [tile.flatMap_rows_eq_range]
      rfl
    _ = (m.symmetricProduct x)[i] := by
      rw [sum_rowShare bound]
      simp [Csr.symmetricProduct]

theorem multiplySymmetricParts_of_partsRead (sound : m.Sound) (square : m.nRows = m.nCols)
    (size : x.size = m.nRows) (tile : RowRange.Tile 0 ranges m.nRows)
    (read : m.SymmetricPartsRead ranges parts) :
    multiplySymmetricParts parts x = .ok (m.symmetricProduct x) := by
  have grouped := sumsTo_sumByHalves (Array.replicate m.nRows 0) (ranges.map (rangeShare m x))
  rw [multiplySymmetricParts_eq_shares, mapM_share_eq square size tile read, size]
  exact congrArg Except.ok (sumsTo_shares sound size tile grouped)

end Shares

/-- The product of a vector with an accepted square matrix that is encoded symmetrically, with any
number of threads and however the shares of the parts are grouped when they are added up. Each value
below the diagonal counts for its cell and for the opposite one; what the matrix stores above the
diagonal does not count. For a symmetric matrix this is its product with the vector. -/
theorem multiplySymmetricParts_eq_product {α : Type} [CommRing α] [Stored α] {s : Settings}
    {m : Csr α} {x : Array α} (accepted : m.Accepted) (square : m.nRows = m.nCols)
    (room : m.HasSymmetricRoom s) (narrow : s.mode = .full → m.nCols ≤ fullColumnLimit)
    (size : x.size = m.nRows) :
    ∃ parts shares, (m.encodeSymmetric s).1 = .ok parts ∧
      parts.mapM (EncodedSymmetric.share x) = .ok shares ∧
      (∀ z, SumsTo (Array.replicate m.nRows 0) shares z → z = m.symmetricProduct x) ∧
      multiplySymmetricParts parts x = .ok (m.symmetricProduct x) ∧
      ((∀ i < m.nRows, ∀ j < m.nRows, m.valueAt i j = m.valueAt j i) →
        m.symmetricProduct x = m.product x) ∧
      ∀ (s' : Settings) (m' : Csr α) (parts' : List (EncodedSymmetric α)), m'.Accepted →
        m'.nRows = m'.nCols → m'.nRows = m.nRows →
        (∀ i < m.nRows, ∀ j ≤ i, m'.valueAt i j = m.valueAt i j) →
        (m'.encodeSymmetric s').1 = .ok parts' →
        multiplySymmetricParts parts' x = .ok (m.symmetricProduct x) := by
  have sound := (Csr.sound_of_make accepted.made).1
  obtain ⟨ranges, parts, tile, encoded, read⟩ :=
    Csr.exists_encodeSymmetric accepted square narrow room
  refine ⟨parts, _, encoded, mapM_share_eq square size tile read,
    fun z => sumsTo_shares sound size tile,
    multiplySymmetricParts_of_partsRead sound square size tile read,
    Csr.symmetricProduct_eq_product square, ?_⟩
  intro s' m' parts' accepted' square' rows same encoded'
  obtain ⟨ranges', tile', read'⟩ := Csr.symmetricPartsRead_of_encode accepted' square' encoded'
  have sound' := (Csr.sound_of_make accepted'.made).1
  rw [multiplySymmetricParts_of_partsRead sound' square' (size.trans rows.symm) tile' read',
    Csr.symmetricProduct_congr rows same]

/-- Two parts of a matrix without a value at its middle cell; the one in its corner does not count. -/
theorem multiplySymmetricParts_ignores_corner :
    let _stored : Stored Int := ⟨8⟩
    let m : Csr Int := ⟨3, 3, #[0, 2, 3, 5], #[0, 2, 0, 1, 2], #[1, 700, 2, 3, 4]⟩
    let m' : Csr Int := ⟨3, 3, #[0, 1, 2, 4], #[0, 0, 1, 2], #[1, 2, 3, 4]⟩
    (∃ parts, (m.encodeSymmetric { threads := 2 }).1 = .ok parts ∧
      multiplySymmetricParts parts #[1, 10, 100] = .ok #[21, 302, 430]) ∧
    ∀ parts', (m'.encodeSymmetric { mode := .full }).1 = .ok parts' →
      multiplySymmetricParts parts' #[1, 10, 100] = .ok #[21, 302, 430] := by
  intro _stored m m'
  have accepted : m.Accepted := ⟨by decide, rfl⟩
  have accepted' : m'.Accepted := ⟨by decide, rfl⟩
  have room : m.HasSymmetricRoom { threads := 2 } :=
    Csr.hasSymmetricRoom_of_small accepted rfl rfl (by decide) (by decide) (by decide)
  obtain ⟨parts, shares, encoded, -, -, product, -, others⟩ :=
    multiplySymmetricParts_eq_product (x := #[1, 10, 100]) accepted rfl room (by decide) rfl
  have whole : m.symmetricProduct #[1, 10, 100] = #[21, 302, 430] := by decide +kernel
  have same : ∀ i < 3, ∀ j ≤ i, m'.valueAt i j = m.valueAt i j := by decide +kernel
  rw [whole] at product others
  exact ⟨⟨parts, encoded, product⟩, fun parts' => others _ m' parts' accepted' rfl rfl same⟩

end SparseStream
