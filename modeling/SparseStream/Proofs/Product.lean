import SparseStream.Proofs.Room

/-! The product of encoded partitions with a vector. Patterns spread their values over later rows,
yet each row is summed in storage order, and rows of different partitions never mix. Nothing is
assumed of the numbers: sums are never regrouped. -/
namespace SparseStream

/-- Adds the products of a row's values with a vector to a sum, in the order of the row. -/
def addRow [Zero α] [Add α] [Mul α] (x : Array α) (row : List (Nat × α)) (sum : α) : α :=
  row.foldl (fun sum (c, v) => sum + v * x.getD c 0) sum

/-- The product of a row with a vector, summed from zero on in the order of the row. -/
def dot [Zero α] [Add α] [Mul α] (x : Array α) (row : List (Nat × α)) : α := addRow x row 0

theorem onRow_shift (first i : Nat) (placed : List (Triplet α)) :
    onRow (first + i) (placed.map fun ((r, c), v) => ((first + r, c), v)) = onRow i placed := by
  simp [onRow, List.filterMap_map]

section Cells

variable [Zero α] [Add α] [Mul α]

/-- Adds the product of one value with its place in the vector to its row. -/
def addCell (x y : Array α) (t : Triplet α) : Array α := addAt y t.1.1 (t.2 * x.getD t.1.2 0)

theorem size_foldl_addCell (x : Array α) (ts : List (Triplet α)) (y : Array α) :
    (ts.foldl (addCell x) y).size = y.size := by
  induction ts generalizing y with
  | nil => rfl
  | cons t ts ih => rw [List.foldl_cons, ih, addCell, addAt, Array.size_modify]

/-- However the cells come, each place of the sum sees only those on its row, in their order. -/
theorem getElem?_foldl_addCell (x : Array α) (ts : List (Triplet α)) (y : Array α) (i : Nat) :
    (ts.foldl (addCell x) y)[i]? = y[i]?.map (addRow x (onRow i ts)) := by
  induction ts generalizing y with
  | nil =>
    have same : addRow x (onRow i []) = id := rfl
    rw [List.foldl_nil, same, Option.map_id, id]
  | cons t ts ih =>
    rw [List.foldl_cons, ih, addCell, addAt, Array.getElem?_modify, onRow_cons]
    by_cases here : t.1.1 = i
    · rw [if_pos here, if_pos here, Option.map_map]
      rfl
    · rw [if_neg here, if_neg here]

end Cells

namespace Encoded

theorem exists_walk {m : Encoded α} {ts : List (Triplet α)} (read : m.triplets = .ok ts) :
    ∃ placed, m.walk = (placed, none) ∧
      (placed.map fun ((r, c), v) => ((m.rowStart + r, c), v)) = ts := by
  unfold triplets at read
  split at read
  · contradiction
  · next placed walk => exact ⟨placed, walk, Except.ok.inj read⟩

variable [Zero α] [Add α] [Mul α] {m : Encoded α} {x : Array α}

/-- A partition that can be read is multiplied row by row. -/
theorem multiply_eq {ts : List (Triplet α)} (read : m.triplets = .ok ts) (size : x.size = m.nCols) :
    m.multiply x
      = .ok ((List.range' m.rowStart m.nRows).map fun i => dot x (onRow i ts)).toArray := by
  obtain ⟨placed, walk, rfl⟩ := exists_walk read
  rw [multiply, if_neg (not_not_intro size), walk]
  refine congrArg Except.ok (Array.ext_getElem? fun i => ?_)
  refine (getElem?_foldl_addCell x placed _ i).trans ?_
  by_cases inside : i < m.nRows
  · simp [inside, onRow_shift, dot]
  · simp [inside]

/-- A partition that is read back as rows of a matrix is multiplied as these. -/
theorem ReadsAs.multiply_eq {first nCols n : Nat} {row : Nat → List (Nat × α)}
    (reads : m.ReadsAs first nCols n row) (size : x.size = nCols) :
    m.multiply x = .ok ((List.range' first n).map fun i => dot x (row i)).toArray := by
  rw [Encoded.multiply_eq reads.triplets (size.trans reads.nCols.symm), reads.rowStart, reads.nRows]
  have rows : ∀ i ∈ List.range' first n,
      dot x (onRow i ((List.range' first n).flatMap fun i => placeRow i (row i)))
        = dot x (row i) := by
    intro i member
    rw [onRow_flatMap_placeRow List.nodup_range', if_pos member]
  rw [List.map_congr_left rows]

theorem size_eq_of_multiply {y : Array α} (product : m.multiply x = .ok y) : x.size = m.nCols := by
  unfold multiply at product
  split at product
  · contradiction
  · next same => exact not_not.mp same

theorem size_of_multiply {y : Array α} (product : m.multiply x = .ok y) : y.size = m.nRows := by
  unfold multiply at product
  split at product
  · contradiction
  split at product
  · contradiction
  · cases product
    exact (size_foldl_addCell x _ _).trans Array.size_replicate

end Encoded

theorem exists_of_mem_left {R : β → γ → Prop} {xs : List β} {ys : List γ}
    (each : List.Forall₂ R xs ys) {x : β} (member : x ∈ xs) : ∃ y ∈ ys, R x y := by
  induction each with
  | nil => cases member
  | @cons x' y' xs ys related each ih =>
    rcases List.mem_cons.mp member with rfl | later
    · exact ⟨y', List.mem_cons_self .., related⟩
    · obtain ⟨y, found, same⟩ := ih later
      exact ⟨y, List.mem_cons_of_mem _ found, same⟩

/-- Pieces put one behind the other are found again from the starts of their parts on. -/
theorem joined_of_checkStarts {R : Encoded α → Array β → Prop} {parts : List (Encoded α)}
    {pieces : List (Array β)} {start : Nat} {front : Array β}
    (sized : ∀ p y, R p y → y.size = p.nRows) (each : List.Forall₂ R parts pieces)
    (starts : checkStarts start parts = .ok ()) (before : front.size = start) :
    (pieces.foldl (· ++ ·) front).size = start + total (parts.map Encoded.nRows) ∧
      (∀ i < start, (pieces.foldl (· ++ ·) front)[i]? = front[i]?) ∧
      List.Forall₂ (fun p y => R p y ∧ ∀ i < p.nRows,
        (pieces.foldl (· ++ ·) front)[p.rowStart + i]? = y[i]?) parts pieces := by
  -- the front takes in each piece, so it is any array that ends where the parts left over start
  induction each generalizing start front with
  | nil => exact ⟨before, fun _ _ => rfl, .nil⟩
  | @cons p y parts pieces related each ih =>
    rw [checkStarts] at starts
    split at starts
    · contradiction
    · next here =>
      have here := not_not.mp here
      have size := sized p y related
      have longer : (front ++ y).size = start + p.nRows := by
        rw [Array.size_append, before, size]
      obtain ⟨whole, kept, found⟩ := ih starts longer
      rw [List.foldl_cons]
      refine ⟨?_, ?_, .cons ⟨related, ?_⟩ found⟩
      · rw [whole, List.map_cons, total_cons, Nat.add_assoc]
      · intro i inside
        rw [kept i (by omega), Array.getElem?_append_left (by omega)]
      · intro i inside
        rw [here, kept _ (by omega), Array.getElem?_append_right (by omega), before,
          Nat.add_sub_cancel_left]

theorem foldl_append_toArray (rows : List (List β)) :
    (rows.map List.toArray).foldl (· ++ ·) #[] = rows.flatten.toArray := by
  suffices behind : ∀ front : Array β,
      (rows.map List.toArray).foldl (· ++ ·) front = front ++ rows.flatten.toArray by
    rw [behind, Array.empty_append]
  induction rows with
  | nil => simp
  | cons row rows ih =>
    intro front
    rw [List.map_cons, List.foldl_cons, ih]
    simp

theorem multiplyParts_eq_ok_iff [Zero α] [Add α] [Mul α] {parts : List (Encoded α)}
    {x y : Array α} :
    multiplyParts parts x = .ok y ↔ checkStarts 0 parts = .ok () ∧
      ∃ pieces, parts.mapM (Encoded.multiply · x) = .ok pieces ∧
        pieces.foldl (· ++ ·) #[] = y := by
  unfold multiplyParts
  cases checkStarts 0 parts with
  | error e => exact ⟨nofun, fun both => nomatch both.1⟩
  | ok u =>
    constructor
    · intro product
      obtain ⟨_, -, rest⟩ := bind_eq_ok.mp product
      obtain ⟨pieces, all, same⟩ := bind_eq_ok.mp rest
      exact ⟨rfl, pieces, all, Except.ok.inj same⟩
    · rintro ⟨-, pieces, all, rfl⟩
      exact bind_eq_ok.mpr ⟨u, rfl, bind_eq_ok.mpr ⟨pieces, all, rfl⟩⟩

/-- The parts of a matrix, each read back as its rows, give the product of the matrix. -/
theorem multiplyParts_of_partsRead [Zero α] [Add α] [Mul α] {m : Csr α} {ranges : List RowRange}
    {parts : List (Encoded α)} {x : Array α} (tile : RowRange.Tile 0 ranges m.nRows)
    (read : m.PartsRead ranges parts) (size : x.size = m.nCols) :
    multiplyParts parts x
      = .ok ((List.range m.nRows).map fun i => dot x (m.rowEntries i)).toArray := by
  have starts := (Csr.checkStarts_of_partsRead tile read).1
  refine multiplyParts_eq_ok_iff.mpr ⟨starts, (ranges.map fun r =>
    r.rows.map fun i => dot x (m.rowEntries i)).map List.toArray, ?_, ?_⟩
  · rw [List.map_map, mapM_eq_ok_iff, List.forall₂_map_right_iff]
    exact (read.imp fun _ _ reads => reads.multiply_eq size).flip
  · rw [foldl_append_toArray, ← tile.flatMap_rows_eq_range, List.map_flatMap, List.flatMap_def]

/-- An encoded partition, and the accepted one that it was made from. -/
structure Partition.EncodedAs [Stored α] (p : Partition α) (m : Encoded α) : Prop where
  accepted : p.Accepted
  rows : p.nRows < wordLimit
  encoded : ∃ s limit, (p.encode s limit).1 = .ok m

namespace Partition.EncodedAs

variable [Stored α] {p : Partition α} {m : Encoded α}

theorem shape (made : p.EncodedAs m) :
    m.rowStart = p.rowStart ∧ m.nRows = p.nRows ∧ m.nCols = p.nCols := by
  obtain ⟨s, limit, encoded⟩ := made.encoded
  exact shape_of_encodeWith made.accepted.sound encoded

/-- What was encoded from an accepted partition is multiplied row by row. -/
theorem multiply_eq [Zero α] [Add α] [Mul α] (made : p.EncodedAs m) :
    ∃ ts, p.entries? = some ts ∧ ∀ x : Array α, x.size = m.nCols → m.multiply x
      = .ok ((List.range' p.rowStart p.nRows).map fun i => dot x (onRow i ts)).toArray := by
  obtain ⟨s, limit, encoded⟩ := made.encoded
  obtain ⟨start, rows, -⟩ := made.shape
  obtain ⟨ts, found, read⟩ := triplets_of_encodeWith made.accepted.sound made.rows encoded
  refine ⟨ts, found, ?_⟩
  intro x size
  rw [Encoded.multiply_eq read size, start, rows]

theorem map_nRows {ps : List (Partition α)} {parts : List (Encoded α)}
    (made : List.Forall₂ EncodedAs ps parts) : parts.map Encoded.nRows = ps.map nRows := by
  induction made with
  | nil => rfl
  | cons encoded made ih => rw [List.map_cons, List.map_cons, ih, encoded.shape.2.1]

end Partition.EncodedAs

section Parts

variable [Zero α] [Add α] [Mul α] [Stored α]

/-- A vector is multiplied exactly when the parts follow each other from the first row on and are
as wide as the vector is long. -/
theorem exists_multiplyParts_iff {ps : List (Partition α)} {parts : List (Encoded α)} {x : Array α}
    (made : List.Forall₂ Partition.EncodedAs ps parts) :
    (∃ y, multiplyParts parts x = .ok y) ↔ Consecutive parts ∧ ∀ m ∈ parts, m.nCols = x.size := by
  simp only [multiplyParts_eq_ok_iff, consecutive_iff]
  constructor
  · rintro ⟨y, starts, pieces, all, -⟩
    refine ⟨starts, ?_⟩
    intro m member
    obtain ⟨piece, -, product⟩ := exists_of_mem_left (mapM_eq_ok_iff.mp all) member
    exact (Encoded.size_eq_of_multiply product).symm
  · rintro ⟨starts, wide⟩
    have each : ∀ m ∈ parts, ∃ y, m.multiply x = .ok y ∧ True := by
      intro m member
      obtain ⟨p, -, encoded⟩ := exists_of_mem_left made.flip member
      obtain ⟨ts, -, product⟩ := Partition.EncodedAs.multiply_eq encoded
      exact ⟨_, product x (wide m member).symm, trivial⟩
    obtain ⟨pieces, all, -⟩ := exists_mapM_eq_ok each
    exact ⟨_, starts, pieces, all, rfl⟩

/-- The rows of each partition stand in the product from its first row on. -/
theorem rows_of_multiplyParts {ps : List (Partition α)} {parts : List (Encoded α)} {x y : Array α}
    (made : List.Forall₂ Partition.EncodedAs ps parts) (product : multiplyParts parts x = .ok y) :
    y.size = total (ps.map Partition.nRows) ∧
      ∀ p ∈ ps, ∃ ts, p.entries? = some ts ∧ ∀ i < p.nRows,
        y[p.rowStart + i]? = some (dot x (onRow (p.rowStart + i) ts)) := by
  obtain ⟨starts, pieces, all, rfl⟩ := multiplyParts_eq_ok_iff.mp product
  have sized : ∀ (m : Encoded α) (y : Array α), m.multiply x = .ok y → y.size = m.nRows :=
    fun _ _ => Encoded.size_of_multiply
  obtain ⟨size, -, found⟩ :=
    joined_of_checkStarts sized (mapM_eq_ok_iff.mp all) starts Array.size_empty
  refine ⟨by rw [size, Nat.zero_add, Partition.EncodedAs.map_nRows made], ?_⟩
  intro p member
  obtain ⟨m, inParts, encoded⟩ := exists_of_mem_left made member
  obtain ⟨z, -, product, same⟩ := exists_of_mem_left found inParts
  obtain ⟨start, rows, -⟩ := encoded.shape
  obtain ⟨ts, entries, multiplied⟩ := encoded.multiply_eq
  refine ⟨ts, entries, ?_⟩
  intro i inside
  rw [multiplied x (Encoded.size_eq_of_multiply product)] at product
  cases product
  rw [← start, same i (rows ▸ inside)]
  simp [inside, start]

end Parts

/-- The product of a vector with encoded partitions. It is there exactly when the parts start at the
first row, follow each other without a gap, and are all as wide as the vector is long. It has one
place for each row, and there the sum of what the partition has on this row, from zero on in storage
order. For the parts of an accepted matrix this is the order of the columns. -/
theorem multiplyParts_sums_rows [Zero α] [Add α] [Mul α] [Stored α] :
    (∀ (ps : List (Partition α)) (parts : List (Encoded α)) (x : Array α),
      List.Forall₂ Partition.EncodedAs ps parts →
      ((∃ y, multiplyParts parts x = .ok y) ↔
        Consecutive parts ∧ ∀ m ∈ parts, m.nCols = x.size) ∧
      ∀ y, multiplyParts parts x = .ok y → y.size = total (ps.map Partition.nRows) ∧
        ∀ p ∈ ps, ∃ ts, p.entries? = some ts ∧ ∀ i < p.nRows,
          y[p.rowStart + i]? = some (dot x (onRow (p.rowStart + i) ts))) ∧
    (∀ (s : Settings) (m : Csr α) (parts : List (Encoded α)) (x : Array α), m.Accepted →
      m.nRows < wordLimit → (m.encode s).1 = .ok parts → x.size = m.nCols →
      multiplyParts parts x
        = .ok ((List.range m.nRows).map fun i => dot x (m.rowEntries i)).toArray) := by
  constructor
  · intro ps parts x made
    exact ⟨exists_multiplyParts_iff made, fun y => rows_of_multiplyParts made⟩
  · intro s m parts x accepted rows encoded size
    obtain ⟨ranges, tile, read⟩ := Csr.partsRead_of_encode accepted rows encoded
    exact multiplyParts_of_partsRead tile read size

/-- A column of two cells stands before the plain value on the second row, and a matrix is multiplied
in two parts. -/
theorem multiplyParts_sums_column_first :
    let p : Partition Int32 :=
      ⟨0, 4, 3, [[.pattern 3 ⟨.simple .vertical 1, 2⟩ [5, 6]], [.plain 1 7]], 0⟩
    let m : Csr Int32 := ⟨3, 4, #[0, 2, 2, 3], #[0, 3, 1], #[5, 6, 7]⟩
    (∃ part y, p.EncodedAs part ∧ multiplyParts [part] #[1, 2, 3, 4] = .ok y ∧ y.size = 2 ∧
      y[1]? = some (dot #[1, 2, 3, 4] [(3, 6), (1, 7)])) ∧
    ∃ parts, (m.encode { mode := .full, threads := 2 }).1 = .ok parts ∧
      multiplyParts parts #[1, 2, 3, 4] = .ok #[29, 0, 14] := by
  intro p m
  constructor
  · have column : (⟨.simple .vertical 1, 2⟩ : Pattern).Admitted :=
      .line (by decide : 1 < strideLimit) (by decide : 2 < wordLimit)
        (rfl : Pattern.line .vertical 1 2 = _)
    have made : Partition.ofRows 0 4 p.rows = .ok p := rfl
    have accepted : p.Accepted := .rows (by decide) (by simp [p, Element.Admitted, column]) made
    have succeeds : (p.encode {} allocationLimit).1.isOk = true := by decide +kernel
    cases encoded : (p.encode {} allocationLimit).1 with
    | error failure =>
      rw [encoded] at succeeds
      contradiction
    | ok part =>
      have same : p.EncodedAs part := ⟨accepted, by decide, _, _, encoded⟩
      obtain ⟨start, -, cols⟩ := same.shape
      obtain ⟨multiplies, sums⟩ :=
        multiplyParts_sums_rows.1 [p] [part] #[1, 2, 3, 4] (.cons same .nil)
      have chain : Consecutive [part] := ⟨by simpa using start, .singleton _⟩
      obtain ⟨y, product⟩ := multiplies.mpr ⟨chain, by simpa using cols⟩
      obtain ⟨size, rows⟩ := sums y product
      obtain ⟨ts, entries, row⟩ := rows p (List.mem_singleton_self p)
      have found : p.entries? = some [((0, 3), 5), ((1, 3), 6), ((1, 1), 7)] := rfl
      cases found.symm.trans entries
      exact ⟨part, y, same, product, size, row 1 (by decide)⟩
  · have accepted : m.Accepted := ⟨by decide, rfl⟩
    have room : m.HasRoom { mode := .full, threads := 2 } :=
      Csr.hasRoom_of_small accepted rfl (by decide) (by decide)
    obtain ⟨ranges, parts, -, -, encoded, -⟩ :=
      Csr.exists_encode accepted (by decide) (by decide) room
    have product := multiplyParts_sums_rows.2 _ m parts #[1, 2, 3, 4] accepted (by decide) encoded rfl
    exact ⟨parts, encoded, product.trans (by decide +kernel)⟩

end SparseStream
