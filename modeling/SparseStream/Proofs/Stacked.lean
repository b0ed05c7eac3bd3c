import SparseStream.Proofs.Entries

/-! Rows stacked into arrays. Rows whose columns increase and lie inside make an accepted matrix,
which hands out these rows, and every accepted matrix is the stack of its rows. -/
namespace SparseStream

theorem foldl_offsets (counts : List Nat) (sum : Nat) (sums : Array Nat) :
    (counts.foldl (fun (sum, sums) n => (sum + n, sums.push (sum + n))) (sum, sums)).2.toList
      = sums.toList ++ (List.range counts.length).map fun i => sum + total (counts.take (i + 1)) := by
  induction counts generalizing sum sums with
  | nil => simp
  | cons n counts ih =>
    rw [List.foldl_cons, ih, List.length_cons, List.range_succ_eq_map]
    simp [Nat.add_assoc]

/-- Each offset is the sum of the counts before it. -/
theorem toList_offsets (counts : List Nat) :
    (offsets counts).toList = (List.range (counts.length + 1)).map fun i => total (counts.take i) := by
  rw [offsets, foldl_offsets, List.range_succ_eq_map]
  simp

theorem size_offsets (counts : List Nat) : (offsets counts).size = counts.length + 1 := by
  rw [← Array.length_toList, toList_offsets, List.length_map, List.length_range]

theorem getD_offsets {counts : List Nat} {i : Nat} (bound : i ≤ counts.length) :
    (offsets counts).getD i 0 = total (counts.take i) := by
  have place : i < counts.length + 1 := by omega
  rw [Array.getD_eq_getD_getElem?, ← Array.getElem?_toList, toList_offsets]
  simp [place]

theorem getElem?_foldl_count (ts : List (Triplet α)) (counts : Array Nat) (i : Nat) :
    (ts.foldl (fun (counts : Array Nat) t => counts.modify t.1.1 (· + 1)) counts)[i]?
      = counts[i]?.map (· + (onRow i ts).length) := by
  induction ts generalizing counts with
  | nil => simp
  | cons t ts ih =>
    rw [List.foldl_cons, ih, Array.getElem?_modify, onRow_cons]
    by_cases same : t.1.1 = i
    · simp only [if_pos same, Option.map_map, List.length_cons, Function.comp_def, Nat.add_assoc,
        Nat.add_comm 1]
    · simp only [if_neg same]

/-- Counting is counting row by row. -/
theorem rowCounts_eq (n : Nat) (ts : List (Triplet α)) :
    rowCounts n ts = (List.range n).map fun i => (onRow i ts).length := by
  apply List.ext_getElem?
  intro i
  rw [rowCounts, Array.getElem?_toList, getElem?_foldl_count, List.getElem?_map,
    Array.getElem?_replicate]
  by_cases bound : i < n
  · simp [bound]
  · simp [bound]

theorem length_flatten_eq_total (rows : List (List β)) :
    rows.flatten.length = total (rows.map List.length) := by
  induction rows with
  | nil => rfl
  | cons row rows ih => rw [List.flatten_cons, List.length_append, ih, List.map_cons, total_cons]

namespace Csr

/-- Rows of entries, one after the other in arrays. -/
def stack (nCols : Nat) (rows : List (List (Nat × α))) : Csr α :=
  ⟨rows.length, nCols, offsets (rows.map List.length), (rows.flatten.map Prod.fst).toArray,
    (rows.flatten.map Prod.snd).toArray⟩

variable {k : Nat} {rows : List (List (Nat × α))}

theorem pointer_stack {i : Nat} (bound : i ≤ rows.length) :
    (stack k rows).pointer i = (rows.take i).flatten.length := by
  rw [length_flatten_eq_total, List.map_take]
  exact getD_offsets (by rwa [List.length_map])

theorem pointer_stack_succ {i : Nat} (bound : i < rows.length) :
    (stack k rows).pointer (i + 1) = (stack k rows).pointer i + rows[i].length := by
  rw [pointer_stack bound, pointer_stack (Nat.le_of_lt bound), List.take_succ_eq_append_getElem bound,
    List.flatten_append, List.length_append]
  simp

/-- Between two pointers lies a row. -/
theorem extract_stack (f : Nat × α → β) {i : Nat} (bound : i < rows.length) :
    ((rows.flatten.map f).toArray.extract ((stack k rows).pointer i)
      ((stack k rows).pointer (i + 1))).toList = rows[i].map f := by
  have cut : rows.flatten = (rows.take i).flatten ++ (rows[i] ++ (rows.drop (i + 1)).flatten) := by
    rw [← List.flatten_cons, ← List.drop_eq_getElem_cons bound, ← List.flatten_append,
      List.take_append_drop]
  rw [Array.toList_extract, List.extract_eq_take_drop, pointer_stack_succ bound,
    Nat.add_sub_cancel_left, pointer_stack (Nat.le_of_lt bound)]
  simp only [← List.map_drop, ← List.map_take]
  rw [cut, List.drop_left, List.take_left]

theorem rowEntries_stack {i : Nat} (bound : i < rows.length) :
    (stack k rows).rowEntries i = rows[i] := by
  have cols := @extract_stack _ k rows _ Prod.fst i bound
  have values := @extract_stack _ k rows _ Prod.snd i bound
  rw [rowEntries, Array.toList_zip]
  exact (congrArg₂ List.zip cols values).trans (List.zip_of_prod rfl rfl).symm

theorem size_cols_stack : (stack k rows).cols.size = rows.flatten.length := by
  simp only [stack, List.size_toArray, List.length_map]

theorem size_values_stack : (stack k rows).values.size = rows.flatten.length := by
  simp only [stack, List.size_toArray, List.length_map]

theorem checkRow_stack {i : Nat} (bound : i < rows.length)
    (ordered : (rows[i].map Prod.fst).Pairwise (· < ·)) (inside : ∀ e ∈ rows[i], e.1 < k) :
    checkRow k (stack k rows).rowPtr (stack k rows).cols i = .ok () := by
  have row : ((stack k rows).cols.extract ((stack k rows).rowPtr.getD i 0)
    ((stack k rows).rowPtr.getD (i + 1) 0)).toList = rows[i].map Prod.fst := extract_stack _ bound
  have step : (stack k rows).rowPtr.getD (i + 1) 0
      = (stack k rows).rowPtr.getD i 0 + rows[i].length := pointer_stack_succ bound
  have next : (stack k rows).rowPtr.getD (i + 1) 0 = (rows.take (i + 1)).flatten.length :=
    pointer_stack bound
  have parts : rows.flatten.length
      = (rows.take (i + 1)).flatten.length + (rows.drop (i + 1)).flatten.length := by
    rw [← List.length_append, ← List.flatten_append, List.take_append_drop]
  rw [checkRow_eq_ok_iff, row, size_cols_stack]
  refine ⟨⟨by omega, by omega⟩, ?_, ordered⟩
  intro col inRow
  obtain ⟨e, member, rfl⟩ := List.mem_map.mp inRow
  exact inside e member

/-- Rows whose columns increase and lie inside are accepted. -/
theorem make_stack (ordered : ∀ row ∈ rows, (row.map Prod.fst).Pairwise (· < ·))
    (inside : ∀ row ∈ rows, ∀ e ∈ row, e.1 < k) :
    make rows.length k (stack k rows).rowPtr (stack k rows).cols (stack k rows).values
      = .ok (stack k rows) := by
  have pointers : (stack k rows).rowPtr.size = rows.length + 1 := by simp [stack, size_offsets]
  have values : (stack k rows).cols.size = (stack k rows).values.size :=
    size_cols_stack.trans size_values_stack.symm
  have first : (stack k rows).rowPtr.getD 0 0 = _ := pointer_stack (Nat.zero_le _)
  have last : (stack k rows).rowPtr.getD rows.length 0 = _ := pointer_stack (Nat.le_refl _)
  refine make_eq_ok_iff.mpr ⟨pointers, values, by simp [first, last, size_cols_stack], ?_, rfl⟩
  intro i bound
  have row := List.getElem_mem bound
  exact checkRow_stack bound (ordered _ row) (inside _ row)

theorem map_snd_rowEntries {m : Csr α} (sound : m.Sound) (i : Nat) :
    (m.rowEntries i).map Prod.snd
      = (m.values.extract (m.pointer i) (m.pointer (i + 1))).toList := by
  rw [rowEntries, Array.toList_zip, List.map_snd_zip]
  simp [sound.values]

/-- The stretches of an array between the pointers join up. -/
theorem flatMap_extract {m : Csr α} (sound : m.Sound) (start : m.pointer 0 = 0) (xs : Array β)
    {n : Nat} (bound : n ≤ m.nRows) :
    (List.range n).flatMap (fun i => (xs.extract (m.pointer i) (m.pointer (i + 1))).toList)
      = xs.toList.take (m.pointer n) := by
  induction n with
  | zero => simp [start]
  | succ n ih =>
    have step := (sound.bounds n bound).1
    rw [List.range_succ, List.flatMap_append, ih (by omega), List.flatMap_singleton,
      Array.toList_extract, List.extract_eq_take_drop, ← List.take_add,
      Nat.add_sub_cancel' step]

theorem total_take_lengths {m : Csr α} (sound : m.Sound) (start : m.pointer 0 = 0) {i : Nat}
    (bound : i ≤ m.nRows) :
    total (((List.range m.nRows).map fun i => (m.rowEntries i).length).take i) = m.pointer i := by
  induction i with
  | zero => exact start.symm
  | succ i ih =>
    have place : i < ((List.range m.nRows).map fun i => (m.rowEntries i).length).length := by
      rw [List.length_map, List.length_range]
      exact bound
    have step := (sound.bounds i bound).1
    have length := length_rowEntries sound bound
    rw [List.take_succ_eq_append_getElem place, total_append, ih (Nat.le_of_lt bound)]
    simp only [List.getElem_map, List.getElem_range, total_cons, total_nil, length]
    omega

theorem offsets_lengths {m : Csr α} (sound : m.Sound) (start : m.pointer 0 = 0) :
    offsets ((List.range m.nRows).map fun i => (m.rowEntries i).length) = m.rowPtr := by
  apply Array.ext'
  apply List.ext_getElem?
  intro i
  rw [toList_offsets, List.length_map, List.length_range]
  by_cases bound : i ≤ m.nRows
  · have place : i < m.nRows + 1 := by omega
    have found := getElem?_pointer sound bound
    rw [← Array.getElem?_toList] at found
    rw [found, ← total_take_lengths sound start bound]
    simp [place]
  · have behind : m.rowPtr.toList.length ≤ i := by
      rw [Array.length_toList, sound.pointers]
      omega
    rw [List.getElem?_eq_none behind, List.getElem?_eq_none (by simp; omega)]

/-- The rows together hold an array that each of them has its stretch of. -/
theorem flatten_rowEntries {m : Csr α} {f : Nat × α → β} {xs : Array β} (sound : m.Sound)
    (start : m.pointer 0 = 0) (stop : m.pointer m.nRows = xs.size)
    (rows : ∀ i, (m.rowEntries i).map f
      = (xs.extract (m.pointer i) (m.pointer (i + 1))).toList) :
    (((List.range m.nRows).map m.rowEntries).flatten.map f).toArray = xs := by
  have all := flatMap_extract sound start xs (Nat.le_refl m.nRows)
  rw [stop, ← Array.length_toList, List.take_length] at all
  apply Array.ext'
  rw [← List.flatMap_def, List.map_flatMap]
  simp only [rows]
  exact all

/-- An accepted matrix is the stack of its rows. -/
theorem stack_rowEntries {m : Csr α} (sound : m.Sound) (start : m.pointer 0 = 0)
    (stop : m.pointer m.nRows = m.cols.size) :
    stack m.nCols ((List.range m.nRows).map m.rowEntries) = m := by
  have cols := flatten_rowEntries sound start stop (map_fst_rowEntries sound)
  have values := flatten_rowEntries sound start (stop.trans sound.values) (map_snd_rowEntries sound)
  rw [stack, cols, values, List.length_map, List.length_range, List.map_map]
  exact congrArg (Csr.mk m.nRows m.nCols · m.cols m.values) (offsets_lengths sound start)

end Csr
end SparseStream
