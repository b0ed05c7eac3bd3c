import SparseStream.Proofs.CsrParts

/-! Which arrays make a matrix. Rows are checked while the pointers to them are still in doubt, and
still no check reaches outside of an array. What passes is what fits together, and the rows of a
matrix that passed are its entries, one row after the other. -/
namespace SparseStream

/-- The sum of two words, which must be a word itself. -/
def addWords (a b : Nat) : Except Failure Nat :=
  if a + b < wordLimit then .ok (a + b) else .error .outOfBounds

/-- A stretch of an array, which must lie inside of it. -/
def slice (xs : Array β) (first last : Nat) : Except Failure (Array β) :=
  if first ≤ last ∧ last ≤ xs.size then .ok (xs.extract first last) else .error .outOfBounds

/-- What lies between two places of an array. -/
theorem mem_extract {xs : Array β} {first last : Nat} {x : β} :
    x ∈ (xs.extract first last).toList ↔ ∃ k, first ≤ k ∧ k < last ∧ xs[k]? = some x := by
  simp only [List.mem_iff_getElem?, Array.getElem?_toList, Array.getElem?_extract]
  constructor
  · rintro ⟨i, found⟩
    split at found
    · exact ⟨first + i, by omega, by omega, found⟩
    · contradiction
  · rintro ⟨k, low, high, found⟩
    have inside := (Array.getElem?_eq_some_iff.mp found).1
    refine ⟨k - first, ?_⟩
    rw [if_pos (by omega), Nat.add_sub_cancel' low]
    exact found

theorem pairwise_extract {xs : Array β} {first last : Nat} {R : β → β → Prop} :
    (xs.extract first last).toList.Pairwise R ↔
      ∀ j k x y, first ≤ j → j < k → k < last → xs[j]? = some x → xs[k]? = some y → R x y := by
  rw [List.pairwise_iff_getElem]
  simp only [Array.length_toList, Array.size_extract, Array.getElem_toList, Array.getElem_extract]
  constructor
  · intro ordered j k x y low before high foundX foundY
    obtain ⟨insideX, rfl⟩ := Array.getElem?_eq_some_iff.mp foundX
    obtain ⟨insideY, rfl⟩ := Array.getElem?_eq_some_iff.mp foundY
    have pair := ordered (j - first) (k - first) (by omega) (by omega) (by omega)
    have low' := Nat.le_trans low (Nat.le_of_lt before)
    simpa only [Nat.add_sub_cancel' low, Nat.add_sub_cancel' low'] using pair
  · intro ordered j k insideJ insideK before
    exact ordered (first + j) (first + k) _ _ (by omega) (by omega) (by omega)
      (Array.getElem?_eq_getElem _) (Array.getElem?_eq_getElem _)

/-- Checks that agree one by one agree along a list. -/
theorem forM_lift {xs : List β} {f : β → Except Failure Unit} {g : β → Except Error Unit}
    (same : ∀ x ∈ xs, f x = (g x : Except Error Unit)) :
    xs.forM f = (xs.forM g : Except Error Unit) := by
  induction xs with
  | nil => rfl
  | cons x xs ih =>
    rw [List.forall_mem_cons] at same
    have later := ih same.2
    simp only [List.forM_eq_forM] at later ⊢
    rw [List.forM_cons, List.forM_cons, same.1, later]
    cases g x <;> rfl

namespace Csr

/-- The check of a row with each access guarded. -/
def checkRowGuarded (nCols : Nat) (rowPtr cols : Array Nat) (i : Nat) : Except Failure Unit := do
  let next ← addWords i 1
  let first ← access rowPtr[i]?
  let last ← access rowPtr[next]?
  if last < first ∨ cols.size < last then throw (.error (.matrix (.rowPointerOrder i)))
  let row ← slice cols first last
  match row.toList.find? (nCols ≤ ·) with
  | some col => throw (.error (.matrix (.columnBound col nCols)))
  | none =>
    if increasing row.toList then return () else throw (.error (.matrix (.columnOrder i)))

/-- The check of all arrays with each access guarded. -/
def makeGuarded (nRows nCols : Nat) (rowPtr cols : Array Nat) (values : Array α) :
    Except Failure (Csr α) := do
  let pointers ← addWords nRows 1
  if rowPtr.size ≠ pointers then
    throw (.error (.matrix (.rowPointerCount rowPtr.size pointers)))
  if cols.size ≠ values.size then
    throw (.error (.matrix (.columnCount cols.size values.size)))
  let stop ← access rowPtr[nRows]?
  if stop ≠ cols.size then throw (.error (.matrix .rowPointerEnds))
  let start ← access rowPtr[0]?
  if start ≠ 0 then throw (.error (.matrix .rowPointerEnds))
  (List.range nRows).forM (checkRowGuarded nCols rowPtr cols)
  return ⟨nRows, nCols, rowPtr, cols, values⟩

variable {nRows nCols i : Nat} {rowPtr cols : Array Nat} {values : Array α}

theorem access_getElem? {xs : Array Nat} {i : Nat} (inside : i < xs.size) :
    access xs[i]? = .ok (xs.getD i 0) := by
  simp [access, inside]

theorem checkRowGuarded_eq (inside : i + 1 < rowPtr.size) (word : rowPtr.size ≤ wordLimit) :
    checkRowGuarded nCols rowPtr cols i
      = (checkRow nCols rowPtr cols i : Except Error Unit) := by
  have next : addWords i 1 = .ok (i + 1) := if_pos (by omega)
  simp only [checkRowGuarded, checkRow, next, bind, Except.bind, access_getElem? inside,
    access_getElem? (Nat.lt_of_succ_lt inside)]
  generalize rowPtr.getD i 0 = first
  generalize rowPtr.getD (i + 1) 0 = last
  by_cases order : last < first ∨ cols.size < last
  · rw [if_pos order, if_pos order]
    rfl
  · have bounds : slice cols first last = .ok (cols.extract first last) := if_pos (by omega)
    rw [if_neg order, if_neg order]
    simp only [bounds]
    cases (cols.extract first last).toList.find? (nCols ≤ ·) with
    | some col => rfl
    | none =>
      by_cases ordered : increasing (cols.extract first last).toList
      · simp only [if_pos ordered]
        rfl
      · simp only [if_neg ordered]
        rfl

/-- The guards change nothing, as long as the count of rows has a word behind it. -/
theorem makeGuarded_eq (few : nRows + 1 < wordLimit) :
    makeGuarded nRows nCols rowPtr cols values
      = (make nRows nCols rowPtr cols values : Except Error (Csr α)) := by
  have next : addWords nRows 1 = .ok (nRows + 1) := if_pos few
  simp only [makeGuarded, make, next, bind, Except.bind]
  by_cases pointers : rowPtr.size = nRows + 1
  · have rows : (List.range nRows).forM (checkRowGuarded nCols rowPtr cols)
        = ((List.range nRows).forM (checkRow nCols rowPtr cols) : Except Error Unit) := by
      apply forM_lift
      intro i member
      have inside := List.mem_range.mp member
      exact checkRowGuarded_eq (by omega) (by omega)
    simp only [pointers, ne_eq, not_true, if_false, rows,
      access_getElem? (show nRows < rowPtr.size by omega),
      access_getElem? (show 0 < rowPtr.size by omega)]
    by_cases counts : cols.size = values.size
    · rw [if_neg (not_not_intro counts), if_neg (not_not_intro counts)]
      by_cases stop : rowPtr.getD nRows 0 = cols.size
      · by_cases start : rowPtr.getD 0 0 = 0
        · simp only [stop, start, not_true, or_self, if_false]
          cases (List.range nRows).forM (checkRow nCols rowPtr cols) <;> rfl
        · simp only [stop, start, not_true, not_false_eq_true, false_or, if_false, if_true]
          rfl
      · simp only [stop, not_false_eq_true, true_or, if_true]
        rfl
    · rw [if_pos counts, if_pos counts]
      rfl
  · rw [if_pos pointers, if_pos pointers]
    rfl

/-- Arrays that fit together: the pointers run in order from the first entry to behind the last,
each entry has a column and a value, and between two neighbouring pointers the columns are in range
and increase. -/
structure ArraysFit (nRows nCols : Nat) (rowPtr cols : Array Nat) (values : Array α) : Prop where
  pointers : rowPtr.size = nRows + 1
  start : rowPtr[0]? = some 0
  order : rowPtr.toList.Pairwise (· ≤ ·)
  stop : rowPtr[nRows]? = some cols.size
  values : cols.size = values.size
  inside : ∀ i first last, rowPtr[i]? = some first → rowPtr[i + 1]? = some last →
    ∀ k col, first ≤ k → k < last → cols[k]? = some col → col < nCols
  increase : ∀ i first last, rowPtr[i]? = some first → rowPtr[i + 1]? = some last →
    ∀ j k col next, first ≤ j → j < k → k < last → cols[j]? = some col → cols[k]? = some next →
      col < next

theorem pointer_of_getElem? {m : Csr α} {first : Nat} (found : m.rowPtr[i]? = some first) :
    m.pointer i = first := by
  rw [pointer, Array.getD_eq_getD_getElem?, found, Option.getD_some]

/-- What passes fits together. -/
theorem arraysFit_of_make {m : Csr α} (made : make nRows nCols rowPtr cols values = .ok m) :
    ArraysFit nRows nCols rowPtr cols values := by
  obtain ⟨sound, -⟩ := sound_of_make made
  obtain ⟨start, stop⟩ := ends_of_make made
  obtain ⟨pointers, counts, -, -, rfl⟩ := make_eq_ok_iff.mp made
  have row : ∀ {i last}, rowPtr[i + 1]? = some last → i < nRows := by
    intro i last found
    have inside := (Array.getElem?_eq_some_iff.mp found).1
    omega
  refine ⟨pointers, ?_, ?_, ?_, counts, ?_, ?_⟩
  · exact (getElem?_pointer sound (Nat.zero_le _)).trans (congrArg some start)
  · rw [List.pairwise_iff_getElem]
    intro i j insideI insideJ before
    rw [Array.length_toList] at insideI insideJ
    have forward := pointer_le sound before.le (by dsimp only; omega)
    rwa [pointer_of_getElem? (Array.getElem?_eq_getElem insideI),
      pointer_of_getElem? (Array.getElem?_eq_getElem insideJ)] at forward
  · exact (getElem?_pointer sound (Nat.le_refl _)).trans (congrArg some stop)
  · intro i first last foundFirst foundLast k col low high found
    apply sound.inside i (row foundLast) col
    rw [rowCols, pointer_of_getElem? foundFirst, pointer_of_getElem? foundLast]
    exact mem_extract.mpr ⟨k, low, high, found⟩
  · intro i first last foundFirst foundLast
    have ordered := sound.ordered i (row foundLast)
    rw [rowCols, pointer_of_getElem? foundFirst, pointer_of_getElem? foundLast] at ordered
    exact pairwise_extract.mp ordered

/-- What fits together passes: the last pointer is behind all entries, so each of them lies
inside. -/
theorem make_of_arraysFit (fit : ArraysFit nRows nCols rowPtr cols values) :
    make nRows nCols rowPtr cols values = .ok ⟨nRows, nCols, rowPtr, cols, values⟩ := by
  let m : Csr α := ⟨nRows, nCols, rowPtr, cols, values⟩
  have found : ∀ i ≤ nRows, rowPtr[i]? = some (m.pointer i) := by
    intro i bound
    have inside : i < rowPtr.size := by rw [fit.pointers]; omega
    simp [m, pointer, inside]
  have forward : ∀ i j, i ≤ j → j ≤ nRows → m.pointer i ≤ m.pointer j := by
    intro i j le bound
    obtain ⟨insideI, valueI⟩ := Array.getElem?_eq_some_iff.mp (found i (le.trans bound))
    obtain ⟨insideJ, valueJ⟩ := Array.getElem?_eq_some_iff.mp (found j bound)
    rcases le.eq_or_lt with rfl | before
    · exact Nat.le_refl _
    · have pair := List.pairwise_iff_getElem.mp fit.order i j (by simpa) (by simpa) before
      rwa [Array.getElem_toList, Array.getElem_toList, valueI, valueJ] at pair
  have stop : m.pointer nRows = cols.size := pointer_of_getElem? fit.stop
  refine make_eq_ok_iff.mpr
    ⟨fit.pointers, fit.values, ⟨stop, pointer_of_getElem? (m := m) fit.start⟩,
    ?_, rfl⟩
  intro i bound
  refine checkRow_eq_ok_iff.mpr ⟨⟨forward i (i + 1) (by omega) bound, ?_⟩, ?_, ?_⟩
  · exact stop ▸ forward (i + 1) nRows bound (Nat.le_refl _)
  · intro col member
    obtain ⟨k, low, high, stored⟩ := mem_extract.mp member
    exact fit.inside i _ _ (found i bound.le) (found (i + 1) bound) k col low high stored
  · exact pairwise_extract.mpr (fit.increase i _ _ (found i bound.le) (found (i + 1) bound))

/-- The rows of an accepted matrix are the pairs of its columns and values, in order. -/
theorem flatten_rows {m : Csr α} (sound : m.Sound) (start : m.pointer 0 = 0)
    (stop : m.pointer m.nRows = m.cols.size) :
    ((List.range m.nRows).map m.rowEntries).flatten = (m.cols.zip m.values).toList := by
  have size : m.pointer m.nRows = (m.cols.zip m.values).size := by
    rw [stop, Array.size_zip, ← sound.values, Nat.min_self]
  have cut : ∀ i, (m.rowEntries i).map id
      = ((m.cols.zip m.values).extract (m.pointer i) (m.pointer (i + 1))).toList := by
    intro i
    simp only [List.map_id, rowEntries, Array.zip, Array.extract_zipWith]
  have rows := flatten_rowEntries sound start size cut
  rw [List.map_id] at rows
  rw [← rows]

theorem matrix_of_checkRow {error : Error}
    (refused : checkRow nCols rowPtr cols i = .error error) : ∃ fault, error = .matrix fault := by
  simp only [checkRow] at refused
  split at refused
  · cases refused
    exact ⟨_, rfl⟩
  split at refused
  · cases refused
    exact ⟨_, rfl⟩
  split at refused
  · contradiction
  · cases refused
    exact ⟨_, rfl⟩

/-- What is refused is refused as a matrix. -/
theorem matrix_of_make {error : Error}
    (refused : make nRows nCols rowPtr cols values = .error error) :
    ∃ fault, error = .matrix fault := by
  unfold make at refused
  split at refused
  · cases refused
    exact ⟨_, rfl⟩
  split at refused
  · cases refused
    exact ⟨_, rfl⟩
  split at refused
  · cases refused
    exact ⟨_, rfl⟩
  · obtain ⟨i, -, failed⟩ := exists_mem_of_forM_eq_error (error_of_bind_ok refused)
    exact matrix_of_checkRow failed

/-- Checking arrays never reaches outside of them, and accepts them exactly when they fit together;
otherwise an error names the place. What was accepted hands out each of its rows, with as many
entries as the row counts, and these rows together are all columns and values in order. -/
theorem make_iff_arraysFit (nCols : Nat) (rowPtr cols : Array Nat) (values : Array α)
    (few : nRows + 1 < wordLimit) :
    makeGuarded nRows nCols rowPtr cols values
      = (make nRows nCols rowPtr cols values : Except Error (Csr α)) ∧
    makeGuarded nRows nCols rowPtr cols values ≠ .error .outOfBounds ∧
    ((∃ m, make nRows nCols rowPtr cols values = .ok m) ↔
      ArraysFit nRows nCols rowPtr cols values) ∧
    (∀ error, make nRows nCols rowPtr cols values = .error error →
      ∃ fault, error = .matrix fault) ∧
    ∀ m, make nRows nCols rowPtr cols values = .ok m →
      m = ⟨nRows, nCols, rowPtr, cols, values⟩ ∧
      ∃ rows, m.rows? = some rows ∧ rows.length = nRows ∧
        (∀ i < nRows, ∃ row, rows[i]? = some row ∧ m.row? i = some row ∧
          m.rowCount? i = some row.length) ∧
        rows.flatten = (cols.zip values).toList := by
  have same : makeGuarded nRows nCols rowPtr cols values
      = (make nRows nCols rowPtr cols values : Except Error (Csr α)) := makeGuarded_eq few
  refine ⟨same, ?_, ?_, fun _ => matrix_of_make, ?_⟩
  · rw [same]
    cases make nRows nCols rowPtr cols values <;> exact nofun
  · constructor
    · rintro ⟨m, made⟩
      exact arraysFit_of_make made
    · exact fun fit => ⟨_, make_of_arraysFit fit⟩
  · intro m made
    obtain ⟨sound, -⟩ := sound_of_make made
    obtain ⟨start, stop⟩ := ends_of_make made
    obtain ⟨-, -, -, -, rfl⟩ := make_eq_ok_iff.mp made
    refine ⟨rfl, _, rowsBetween?_eq sound (Nat.le_refl _), by simp, ?_, ?_⟩
    · intro i bound
      refine ⟨_, ?_, row?_eq sound bound, ?_⟩
      · simp [bound]
      · rw [length_rowEntries sound bound]
        exact rowCount?_eq sound bound
    · rw [Nat.sub_zero, ← List.range_eq_range']
      exact flatten_rows sound start stop

/-- A matrix with an empty row. Pointers that turn back are refused, and so is one that points
behind all entries, although the last pointer of both is right. -/
theorem make_iff_arraysFit_empty_row :
    let cols : Array Nat := #[0, 4, 1]
    let values : Array Int32 := #[5, 6, 7]
    (∃ m, make 3 5 #[0, 2, 2, 3] cols values = .ok m ∧
      ∃ rows, m.rows? = some rows ∧ rows.flatten = [(0, 5), (4, 6), (1, 7)]) ∧
    ArraysFit 3 5 #[0, 2, 2, 3] cols values ∧
    ¬ArraysFit 3 5 #[0, 3, 2, 3] cols values ∧
    makeGuarded 3 5 #[0, 9, 2, 3] cols values = .error (.error (.matrix (.rowPointerOrder 0))) := by
  intro cols values
  have few : 3 + 1 < wordLimit := by decide
  obtain ⟨-, -, fits, -, rows⟩ := make_iff_arraysFit 5 #[0, 2, 2, 3] cols values few
  obtain ⟨-, -, turned, -⟩ := make_iff_arraysFit 5 #[0, 3, 2, 3] cols values few
  obtain ⟨same, -⟩ := make_iff_arraysFit 5 #[0, 9, 2, 3] cols values few
  have made : make 3 5 #[0, 2, 2, 3] cols values = .ok ⟨3, 5, #[0, 2, 2, 3], cols, values⟩ := rfl
  obtain ⟨-, all, found, -, -, flat⟩ := rows _ made
  have pairs : (cols.zip values).toList = [(0, 5), (4, 6), (1, 7)] := by simp [cols, values]
  refine ⟨⟨_, made, all, found, flat.trans pairs⟩, fits.mp ⟨_, made⟩, ?_, same.trans rfl⟩
  intro fit
  obtain ⟨m, accepted⟩ := turned.mpr fit
  cases accepted

/-- The bound on the rows is needed: the count of pointers would be no word. -/
example : makeGuarded (wordLimit - 1) 1 #[] #[] (#[] : Array Int32) = .error .outOfBounds := rfl

end Csr
end SparseStream
