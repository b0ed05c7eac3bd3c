import SparseStream.Proofs.CsrParts

/-! When memory suffices. A matrix whose arrays take fewer bytes than a signed word counts can be
encoded with any number of threads. -/
namespace SparseStream

theorem Tracked.fst_allocate_eq_ok_iff {n size : Nat} :
    (allocate allocationLimit n size).1 = .ok () ↔ n * size < signedLimit := by
  have limits : signedLimit = allocationLimit + 1 ∧ signedLimit < wordLimit := by decide
  simp only [allocate, Nat.min_self, ite_eq_right_iff, reduceCtorEq, imp_false]
  omega

theorem total_map_le {xs : List β} {f g : β → Nat} (each : ∀ x ∈ xs, f x ≤ g x) :
    total (xs.map f) ≤ total (xs.map g) := by
  induction xs with
  | nil => exact Nat.le_refl _
  | cons x xs ih =>
    rw [List.forall_mem_cons] at each
    exact Nat.add_le_add each.1 (ih each.2)

namespace Partition

theorem hasRoom_of_count_le [Stored α] {s : Settings} {p : Partition α} {n : Nat}
    (few : p.count ≤ n) (stream : n * s.factor < signedLimit)
    (values : n * Stored.bytes α < signedLimit) : p.HasRoom s allocationLimit := by
  have bytes := Nat.mul_le_mul_right s.factor few
  have smallest : minReserve < signedLimit := by decide
  constructor
  · rw [Tracked.fst_allocate_eq_ok_iff, reserved]
    omega
  · rw [Tracked.fst_allocate_eq_ok_iff]
    exact Nat.lt_of_le_of_lt (Nat.mul_le_mul_right _ few) values

theorem count_plainRows {first nCols n : Nat} {row : Nat → List (Nat × α)} :
    (plainRows first nCols n row).count
      = total ((List.range' first n).map fun i => (row i).length) := by
  unfold plainRows
  dsimp only
  induction List.range' first n with
  | nil => rfl
  | cons i rows ih =>
    rw [List.map_cons, List.flatten_cons, List.map_append, total_append, total_count_plainRow, ih,
      List.map_cons, total_cons]

end Partition

/-- The pointers and the columns of a matrix are arrays in memory. -/
structure Csr.InMemory (m : Csr α) : Prop where
  pointers : reserve m.rowPtr.size wordBytes = .ok ()
  columns : reserve m.cols.size wordBytes = .ok ()

namespace Csr

theorem InMemory.nRows_lt {m : Csr α} (memory : m.InMemory) (accepted : m.Accepted) :
    m.nRows < wordLimit := by
  have bytes := reserve_eq_ok_iff.mp memory.pointers
  have pointers := (sound_of_make accepted.made).1.pointers
  have limits : signedLimit < wordLimit := by decide
  rw [pointers, wordBytes] at bytes
  omega

theorem InMemory.small {m : Csr α} (memory : m.InMemory) : m.cols.size < signedLimit := by
  have bytes := reserve_eq_ok_iff.mp memory.columns
  rw [wordBytes] at bytes
  omega

theorem count_plainRows_le {m : Csr α} (accepted : m.Accepted) {first last : Nat}
    (order : first ≤ last) (bound : last ≤ m.nRows) :
    (Partition.plainRows first m.nCols (last - first) m.rowEntries).count ≤ m.count := by
  have sound := (sound_of_make accepted.made).1
  have rows := @Partition.total_count_rows _ _ sound first (last - first) (by omega)
  have stop := pointer_le sound bound (Nat.le_refl _)
  rw [Nat.add_sub_cancel' order] at rows
  rw [(ends_of_make accepted.made).2] at stop
  refine Nat.le_trans (Nat.le_of_eq rows) ?_
  rw [count, ← sound.values]
  omega

/-- A matrix can be encoded when its entries, and what is set aside for each of them, take fewer
bytes than a signed word counts. -/
theorem hasRoom_of_small [Stored α] {s : Settings} {m : Csr α} (accepted : m.Accepted)
    (ranges : reserve s.threads RowRange.bytes = .ok ()) (stream : m.count * s.factor < signedLimit)
    (values : m.count * Stored.bytes α < signedLimit) : m.HasRoom s := by
  refine ⟨ranges, ?_⟩
  intro r member p made
  obtain ⟨order, bound⟩ := order_of_mem_ranges (sound_of_make accepted.made).1 member
  rw [Partition.ofCsr_eq_plainRows accepted order bound] at made
  cases made
  exact Partition.hasRoom_of_count_le (count_plainRows_le accepted order bound) stream values

/-- What suffices for all entries suffices for those below the diagonal; the diagonal itself takes
one value for each row. -/
theorem hasSymmetricRoom_of_small [Zero α] [Stored α] {s : Settings} {m : Csr α}
    (accepted : m.Accepted) (square : m.nRows = m.nCols)
    (ranges : reserve s.threads RowRange.bytes = .ok ()) (stream : m.count * s.factor < signedLimit)
    (values : m.count * Stored.bytes α < signedLimit)
    (diagonal : m.nRows * Stored.bytes α < signedLimit) : m.HasSymmetricRoom s := by
  refine ⟨ranges, ?_⟩
  intro r member p made
  obtain ⟨order, bound⟩ := order_of_mem_ranges (sound_of_make accepted.made).1 member
  rw [SymmetricPartition.ofCsr_eq_plainRows accepted square order bound] at made
  cases made
  constructor
  · rw [Tracked.fst_allocate_eq_ok_iff, List.length_map, List.length_range']
    exact Nat.lt_of_le_of_lt (Nat.mul_le_mul_right _ (by omega)) diagonal
  · apply Partition.hasRoom_of_count_le (n := m.count) _ stream values
    apply Nat.le_trans _ (count_plainRows_le accepted order bound)
    rw [Partition.count_plainRows, Partition.count_plainRows]
    exact total_map_le fun i _ => List.length_filter_le ..

end Csr
end SparseStream
