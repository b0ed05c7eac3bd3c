import SparseStream.Proofs.Accepted

/-! Rows of a matrix with compressed rows. An accepted matrix hands out all the rows that it is
asked for, with their columns in order. -/
namespace SparseStream

theorem increasing_iff_pairwise {xs : List Nat} :
    increasing xs = true ↔ xs.Pairwise (· < ·) := by
  induction xs with
  | nil => simp [increasing]
  | cons a xs ih =>
    cases xs with
    | nil => simp [increasing]
    | cons b rest =>
      rw [increasing, Bool.and_eq_true, decide_eq_true_eq, ih, List.pairwise_cons (a := a)]
      constructor
      · rintro ⟨first, later⟩
        refine ⟨?_, later⟩
        intro c member
        rcases List.mem_cons.mp member with rfl | inRest
        · exact first
        · exact Nat.lt_trans first ((List.pairwise_cons.mp later).1 c inRest)
      · rintro ⟨before, later⟩
        exact ⟨before b (List.mem_cons_self ..), later⟩

namespace Csr

/-- Where row `i` starts in the arrays. -/
def pointer (m : Csr α) (i : Nat) : Nat := m.rowPtr.getD i 0

/-- The columns of row `i`. -/
def rowCols (m : Csr α) (i : Nat) : List Nat :=
  (m.cols.extract (m.pointer i) (m.pointer (i + 1))).toList

/-- The entries of row `i`. -/
def rowEntries (m : Csr α) (i : Nat) : List (Nat × α) :=
  ((m.cols.extract (m.pointer i) (m.pointer (i + 1))).zip
    (m.values.extract (m.pointer i) (m.pointer (i + 1)))).toList

/-- What the arrays of an accepted matrix satisfy. -/
structure Sound (m : Csr α) : Prop where
  pointers : m.rowPtr.size = m.nRows + 1
  values : m.cols.size = m.values.size
  bounds : ∀ i < m.nRows, m.pointer i ≤ m.pointer (i + 1) ∧ m.pointer (i + 1) ≤ m.cols.size
  inside : ∀ i < m.nRows, ∀ col ∈ m.rowCols i, col < m.nCols
  ordered : ∀ i < m.nRows, (m.rowCols i).Pairwise (· < ·)

/-- A row passes exactly when its bounds are in order and inside, and its columns in range and
increasing. -/
theorem checkRow_eq_ok_iff {nCols i : Nat} {rowPtr cols : Array Nat} :
    checkRow nCols rowPtr cols i = .ok () ↔
      (rowPtr.getD i 0 ≤ rowPtr.getD (i + 1) 0 ∧ rowPtr.getD (i + 1) 0 ≤ cols.size) ∧
      (∀ col ∈ (cols.extract (rowPtr.getD i 0) (rowPtr.getD (i + 1) 0)).toList, col < nCols) ∧
      (cols.extract (rowPtr.getD i 0) (rowPtr.getD (i + 1) 0)).toList.Pairwise (· < ·) := by
  rw [← increasing_iff_pairwise, checkRow]
  generalize rowPtr.getD i 0 = first
  generalize rowPtr.getD (i + 1) 0 = last
  dsimp only
  generalize (cols.extract first last).toList = row
  by_cases order : last < first ∨ cols.size < last
  · rw [if_pos order]
    simp only [reduceCtorEq, false_iff]
    omega
  · have bounds : first ≤ last ∧ last ≤ cols.size := by omega
    rw [if_neg order]
    cases outside : row.find? (nCols ≤ ·) with
    | some col =>
      have member := List.mem_of_find?_eq_some outside
      have above : nCols ≤ col := by simpa using List.find?_some outside
      simp only [reduceCtorEq, false_iff]
      rintro ⟨-, inside, -⟩
      exact Nat.not_lt_of_le above (inside col member)
    | none =>
      have inside : ∀ col ∈ row, col < nCols := by simpa using outside
      by_cases ordered : increasing row
      · rw [if_pos ordered]
        exact ⟨fun _ => ⟨bounds, inside, ordered⟩, fun _ => rfl⟩
      · simp [ordered]

/-- The arrays are taken as they are, if the counts and ends fit and each row passes. -/
theorem make_eq_ok_iff {nRows nCols : Nat} {rowPtr cols : Array Nat} {values : Array α}
    {m : Csr α} :
    make nRows nCols rowPtr cols values = .ok m ↔
      rowPtr.size = nRows + 1 ∧ cols.size = values.size ∧
      (rowPtr.getD nRows 0 = cols.size ∧ rowPtr.getD 0 0 = 0) ∧
      (∀ i < nRows, checkRow nCols rowPtr cols i = .ok ()) ∧
      m = ⟨nRows, nCols, rowPtr, cols, values⟩ := by
  unfold make
  by_cases pointers : rowPtr.size = nRows + 1
  · rw [if_neg (not_not_intro pointers)]
    by_cases counts : cols.size = values.size
    · rw [if_neg (not_not_intro counts)]
      by_cases ends : rowPtr.getD nRows 0 ≠ cols.size ∨ rowPtr.getD 0 0 ≠ 0
      · rw [if_pos ends]
        simp only [reduceCtorEq, false_iff]
        rintro ⟨-, -, ends', -⟩
        omega
      · have ends' : rowPtr.getD nRows 0 = cols.size ∧ rowPtr.getD 0 0 = 0 := by omega
        rw [if_neg ends]
        simp only [pointers, counts, ends', true_and, bind_eq_ok, pure, Except.pure,
          Except.ok.injEq, ← List.mem_range, ← forM_eq_ok_iff]
        constructor
        · rintro ⟨_, checked, rfl⟩
          exact ⟨checked, rfl⟩
        · rintro ⟨checked, rfl⟩
          exact ⟨(), checked, rfl⟩
    · simp [counts]
  · simp [pointers]

theorem sound_of_make {nRows nCols : Nat} {rowPtr cols : Array Nat} {values : Array α} {m : Csr α}
    (made : make nRows nCols rowPtr cols values = .ok m) : m.Sound ∧ m.nCols = nCols := by
  obtain ⟨pointers, values, -, checked, rfl⟩ := make_eq_ok_iff.mp made
  have row := fun i bound => checkRow_eq_ok_iff.mp (checked i bound)
  refine ⟨⟨pointers, values, ?_, ?_, ?_⟩, rfl⟩
  · intro i bound
    exact (row i bound).1
  · intro i bound
    exact (row i bound).2.1
  · intro i bound
    exact (row i bound).2.2

/-- The pointers of an accepted matrix run from the first entry to behind the last. -/
theorem ends_of_make {nRows nCols : Nat} {rowPtr cols : Array Nat} {values : Array α} {m : Csr α}
    (made : make nRows nCols rowPtr cols values = .ok m) :
    m.pointer 0 = 0 ∧ m.pointer m.nRows = m.cols.size := by
  obtain ⟨-, -, ends, -, rfl⟩ := make_eq_ok_iff.mp made
  exact ends.symm

theorem pointer_le {m : Csr α} (sound : m.Sound) {i j : Nat} (le : i ≤ j) (bound : j ≤ m.nRows) :
    m.pointer i ≤ m.pointer j := by
  induction j with
  | zero => simp [Nat.le_zero.mp le]
  | succ j ih =>
    rcases Nat.lt_or_ge j i with above | below
    · have same : i = j + 1 := by omega
      exact same ▸ Nat.le_refl _
    · exact Nat.le_trans (ih below (by omega)) (sound.bounds j (by omega)).1

theorem getElem?_pointer {m : Csr α} (sound : m.Sound) {i : Nat} (bound : i ≤ m.nRows) :
    m.rowPtr[i]? = some (m.pointer i) := by
  have inside : i < m.rowPtr.size := by rw [sound.pointers]; omega
  simp [pointer, inside]

theorem map_fst_rowEntries {m : Csr α} (sound : m.Sound) (i : Nat) :
    (m.rowEntries i).map Prod.fst = m.rowCols i := by
  rw [rowEntries, rowCols, Array.toList_zip, List.map_fst_zip]
  simp [sound.values]

theorem length_rowEntries {m : Csr α} (sound : m.Sound) {i : Nat} (bound : i < m.nRows) :
    (m.rowEntries i).length = m.pointer (i + 1) - m.pointer i := by
  have inside := (sound.bounds i bound).2
  have values := sound.values
  simp [rowEntries]
  omega

end Csr

namespace Partition

theorem map_col_plainRow (row : List (Nat × α)) :
    (plainRow row).map Element.col = row.map Prod.fst := by
  simp [plainRow, Element.col]

theorem total_count_plainRow (row : List (Nat × α)) :
    total ((plainRow row).map Element.count) = row.length := by
  induction row with
  | nil => rfl
  | cons entry row ih =>
    have first : total ((plainRow (entry :: row)).map Element.count)
        = 1 + total ((plainRow row).map Element.count) := rfl
    rw [first, ih, List.length_cons, Nat.add_comm]

/-- Plain elements of a row are sound as soon as their columns lie inside. -/
theorem sound_of_mem_plainRow {nRows nCols i : Nat} {row : List (Nat × α)} {x : Element α}
    (place : i < nRows) (inside : ∀ col ∈ row.map Prod.fst, col < nCols)
    (member : x ∈ plainRow row) : x.Sound nRows nCols i := by
  obtain ⟨⟨col, value⟩, inRow, rfl⟩ := List.mem_map.mp member
  refine ⟨trivial, rfl, [(i, col)], rfl, ?_⟩
  simpa using ⟨place, inside col (List.mem_map_of_mem inRow)⟩

theorem rowWithin?_eq {m : Csr α} (sound : m.Sound) {first last i : Nat} (low : first ≤ i)
    (high : i < last) (bound : last ≤ m.nRows) :
    rowWithin? m.rowPtr (m.pointer first)
      ((m.cols.extract (m.pointer first) (m.pointer last)).zip
        (m.values.extract (m.pointer first) (m.pointer last))) i
      = some (plainRow (m.rowEntries i)) := by
  have before := Csr.pointer_le sound low (by omega)
  have within := (sound.bounds i (by omega)).1
  have after := Csr.pointer_le sound (show i + 1 ≤ last from high) bound
  have inside : m.pointer last ≤ m.cols.size := by
    have end' := (sound.bounds (last - 1) (by omega)).2
    rwa [Nat.sub_add_cancel (by omega : 1 ≤ last)] at end'
  have values := sound.values
  rw [rowWithin?, Csr.getElem?_pointer sound (by omega), Csr.getElem?_pointer sound (by omega)]
  simp only [Option.bind_eq_bind, Option.bind_some]
  generalize m.pointer first = s at *
  generalize m.pointer last = t at *
  have size : ((m.cols.extract s t).zip (m.values.extract s t)).size = t - s := by
    simp
    omega
  have part : ((m.cols.extract s t).zip (m.values.extract s t)).extract (m.pointer i - s)
      (m.pointer (i + 1) - s) = (m.cols.extract (m.pointer i) (m.pointer (i + 1))).zip
        (m.values.extract (m.pointer i) (m.pointer (i + 1))) := by
    have low : s + (m.pointer i - s) = m.pointer i := by omega
    have high : min (s + (m.pointer (i + 1) - s)) t = m.pointer (i + 1) := by omega
    simp only [Array.zip, Array.extract_zipWith, Array.extract_extract, low, high]
  rw [if_pos ⟨before, within, by omega⟩, part, Csr.rowEntries]

theorem takeWhile_isSome_map (f : α → β) (xs : List α) :
    (xs.map fun x => some (f x)).takeWhile Option.isSome = xs.map fun x => some (f x) := by
  induction xs with
  | nil => rfl
  | cons x xs ih => simp only [List.map_cons, List.takeWhile_cons, Option.isSome_some, ite_true, ih]

/-- Every row of a stretch of an accepted matrix can be read. -/
theorem ofCsr_eq {m : Csr α} {first last : Nat} {p : Partition α} (sound : m.Sound)
    (made : ofCsr m first last = .ok p) :
    first ≤ last ∧ last ≤ m.nRows ∧
      p = ⟨first, m.nCols, m.pointer last - m.pointer first,
        (List.range' first (last - first)).map fun i => plainRow (m.rowEntries i), 0⟩ := by
  unfold ofCsr at made
  obtain ⟨outside, made⟩ := refuse_eq_ok.mp made
  have order : first ≤ last ∧ last ≤ m.nRows := by omega
  refine ⟨order.1, order.2, ?_⟩
  have start := Csr.getElem?_pointer sound (Nat.le_trans order.1 order.2)
  have stop := Csr.getElem?_pointer sound order.2
  simp only [start, stop, access, Option.elim_some, bind, Except.bind, pure,
    Except.pure] at made
  split at made
  · contradiction
  have rows : (List.range' first (last - first)).map (rowWithin? m.rowPtr (m.pointer first)
      ((m.cols.extract (m.pointer first) (m.pointer last)).zip
        (m.values.extract (m.pointer first) (m.pointer last))))
      = (List.range' first (last - first)).map fun i => some (plainRow (m.rowEntries i)) := by
    apply List.map_congr_left
    intro i member
    have place := List.mem_range'_1.mp member
    exact rowWithin?_eq sound place.1 (by omega) order.2
  rw [rows, takeWhile_isSome_map, Nat.sub_self] at made
  simpa [List.filterMap_map] using made.symm

/-- Entries of neighbouring rows lie side by side. -/
theorem total_count_rows {m : Csr α} (sound : m.Sound) {first n : Nat}
    (bound : first + n ≤ m.nRows) :
    total (((List.range' first n).map fun i => plainRow (m.rowEntries i)).flatten.map Element.count)
      = m.pointer (first + n) - m.pointer first := by
  induction n generalizing first with
  | zero => simp
  | succ n ih =>
    have step := (sound.bounds first (by omega)).1
    have later := Csr.pointer_le sound (show first + 1 ≤ first + 1 + n by omega) (by omega)
    rw [List.range'_succ, List.map_cons, List.flatten_cons, List.map_append, total_append,
      total_count_plainRow, ih (by omega), Csr.length_rowEntries sound (by omega)]
    have place : first + (n + 1) = first + 1 + n := by omega
    rw [place]
    omega

theorem sound_of_ofCsr {m : Csr α} {first last : Nat} {p : Partition α} (sound : m.Sound)
    (word : m.nCols < wordLimit) (made : ofCsr m first last = .ok p) : p.Sound := by
  obtain ⟨order, bound, rfl⟩ := ofCsr_eq sound made
  refine ⟨rfl, ?_, word, ?_, ?_⟩
  · have entries := @total_count_rows _ _ sound first (last - first) (by omega)
    rwa [Nat.add_sub_cancel' order] at entries
  · intro row member
    obtain ⟨i, inRange, rfl⟩ := List.mem_map.mp member
    have place := List.mem_range'_1.mp inRange
    rw [map_col_plainRow, Csr.map_fst_rowEntries sound]
    exact sound.ordered i (by omega)
  · intro i row found x member
    have place : i < last - first := by simpa using (List.getElem?_eq_some_iff.mp found).1
    simp [place] at found
    subst found
    refine sound_of_mem_plainRow (by simpa [nRows] using place) ?_ member
    rw [Csr.map_fst_rowEntries sound]
    exact sound.inside (first + i) (by omega)

end Partition
/-- A matrix that passes its own constructor. -/
structure Csr.Accepted (m : Csr α) : Prop where
  word : m.nCols < wordLimit
  made : Csr.make m.nRows m.nCols m.rowPtr m.cols m.values = .ok m

/-- A partition as its constructors make it: from rows of elements, or from rows of a matrix. -/
inductive Partition.Accepted (p : Partition α) : Prop
  | rows {rowStart nCols : Nat} {rows : List (List (Element α))} : nCols < wordLimit →
      (∀ row ∈ rows, ∀ x ∈ row, x.Admitted) → Partition.ofRows rowStart nCols rows = .ok p →
      Accepted p
  | csr {m : Csr α} {first last : Nat} : m.Accepted → Partition.ofCsr m first last = .ok p →
      Accepted p

/-- A symmetric partition as its constructors make it: from an accepted lower triangle and a
diagonal, or from rows of a square matrix. -/
inductive SymmetricPartition.Accepted [Zero α] (p : SymmetricPartition α) : Prop
  | make {lower : Partition α} {diagonal : List α} : lower.Accepted →
      SymmetricPartition.make lower diagonal = .ok p → Accepted p
  | csr {m : Csr α} {first last : Nat} : m.Accepted →
      SymmetricPartition.ofCsr m first last = .ok p → Accepted p

theorem Partition.Accepted.sound {p : Partition α} (accepted : p.Accepted) : p.Sound := by
  cases accepted with
  | rows word admitted made => exact sound_of_ofRows word admitted made
  | csr matrix made =>
    exact sound_of_ofCsr (Csr.sound_of_make matrix.made).1 matrix.word made

theorem lift_eq_ok_iff {x : Except Error β} {b : β} :
    (monadLift x : Except Failure β) = .ok b ↔ x = .ok b := by
  cases x with
  | error error => constructor <;> intro made <;> cases made
  | ok c => constructor <;> intro made <;> cases made <;> rfl

theorem exists_error_of_lift {x : Except Error β} {failure : Failure}
    (failed : (monadLift x : Except Failure β) = .error failure) :
    ∃ error, x = .error error ∧ failure = .error error := by
  cases x with
  | error error =>
    cases failed
    exact ⟨error, rfl, rfl⟩
  | ok b => cases failed

theorem admitted_of_mem_plainRow {row : List (Nat × α)} {x : Element α}
    (member : x ∈ Partition.plainRow row) : x.Admitted := by
  obtain ⟨entry, -, rfl⟩ := List.mem_map.mp member
  trivial

namespace SymmetricPartition

variable {p : SymmetricPartition α}

/-- A diagonal with a value for each row is put beside its lower triangle. -/
theorem of_make_eq_ok {lower : Partition α} {diagonal : List α}
    (made : make lower diagonal = .ok p) :
    diagonal.length = lower.nRows ∧ p = ⟨lower, diagonal⟩ := by
  unfold make at made
  simp only [refuse_eq_ok, ne_eq, Decidable.not_not, bind_eq_ok, pure, Except.pure,
    Except.ok.injEq] at made
  obtain ⟨count, _, -, _, -, same⟩ := made
  exact ⟨count, same.symm⟩

/-- Only a square matrix is split. What comes out below the diagonal passes as a partition. -/
theorem of_ofCsr_eq_ok [Zero α] {m : Csr α} {first last : Nat} (made : ofCsr m first last = .ok p) :
    m.nRows = m.nCols ∧ first ≤ last ∧ last ≤ m.nRows ∧
      ∃ rows : List (List (Nat × α)),
        Partition.ofRows first m.nCols (rows.map Partition.plainRow) = .ok p.lower := by
  unfold ofCsr at made
  simp only [refuse_eq_ok, ne_eq, Decidable.not_not, bind_eq_ok, lift_eq_ok_iff, pure, Except.pure,
    Except.ok.injEq] at made
  obtain ⟨square, inside, rows, -, lower, built, rfl⟩ := made
  rw [not_or, Nat.not_lt, Nat.not_lt] at inside
  refine ⟨square, inside.2, inside.1, (rows.zipIdx first).map fun r => below r.2 r.1, ?_⟩
  rw [List.map_map]
  exact built

/-- The lower triangle of a symmetric partition is an accepted partition, however it was made. -/
theorem Accepted.lower [Zero α] (accepted : p.Accepted) : p.lower.Accepted := by
  cases accepted with
  | make below made =>
    obtain ⟨-, rfl⟩ := of_make_eq_ok made
    exact below
  | csr matrix made =>
    obtain ⟨-, -, -, rows, built⟩ := of_ofCsr_eq_ok made
    refine .rows matrix.word ?_ built
    intro row member x inRow
    obtain ⟨_, -, rfl⟩ := List.mem_map.mp member
    exact admitted_of_mem_plainRow inRow

end SymmetricPartition
end SparseStream
