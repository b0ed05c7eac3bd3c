import SparseStream.Proofs.Collected
import SparseStream.Proofs.Room

/-! Encoding a matrix in parts and putting the parts together again. No entry is lost, doubled or
moved, however many parts there are and in whatever order they come. -/
namespace SparseStream

/-- An accepted matrix is encoded, with any number of threads, in consecutive parts that together
hold the entries of the matrix in row-major order. The parts, taken in any order, are put together
to the very arrays that stand for the matrix in the library. -/
theorem encode_reassembles [Add α] [Stored α] {lib : MatrixLibrary α} {s : Settings} {m : Csr α}
    (sums : lib.Sums) (keeps : lib.Keeps) (accepted : m.Accepted) (memory : m.InMemory)
    (room : m.HasRoom s) (narrow : s.mode = .full → m.nCols ≤ fullColumnLimit) :
    ∃ parts c, (m.encode s).1 = .ok parts ∧ parts.length = max s.threads 1 ∧
      Consecutive parts ∧ (∀ p ∈ parts.getLast?, p.rowStart + p.nRows = m.nRows) ∧
      (∃ tss, parts.mapM Encoded.triplets = .ok tss ∧ tss.flatten = m.entries) ∧
      lib.adopt m = .ok c ∧
      ∀ shuffled, shuffled.Perm parts → lib.ofParts shuffled m.nRows m.nCols = .ok c := by
  obtain ⟨ranges, parts, count, tile, encoded, read⟩ :=
    Csr.exists_encode accepted (memory.nRows_lt accepted) narrow room
  have sound := (Csr.sound_of_make accepted.made).1
  obtain ⟨first, last⟩ := Csr.ends_of_make accepted.made
  obtain ⟨starts, ends⟩ := Csr.checkStarts_of_partsRead tile read
  obtain ⟨tss, each, whole⟩ := Csr.exists_mapM_triplets tile read
  refine ⟨parts, m.compressed, encoded, read.length_eq.symm.trans count, consecutive_iff.mp starts,
    ends, ⟨tss, each, whole⟩, keeps m accepted memory.small, ?_⟩
  intro shuffled perm
  have assembled := sums.assemble_eq_of_perm perm each (.of_eq whole) (Csr.inOrder_entries sound)
    (Csr.inside_of_mem_entries sound) accepted.word (sound.pointers ▸ memory.pointers)
  rwa [Csr.ofEntries_entries sound first last] at assembled

/-- Three parts of a matrix with a stored zero; the second part starts with an empty row. -/
theorem encode_reassembles_three_parts :
    let m : Csr Int32 := ⟨4, 6, #[0, 3, 3, 4, 6], #[0, 1, 5, 2, 0, 4], #[5, 0, 7, 1, 3, 4]⟩
    (m.ranges 3).1 = [⟨0, 1, 3⟩, ⟨1, 3, 1⟩, ⟨3, 4, 2⟩] ∧
    ∃ parts c, (m.encode { threads := 3 }).1 = .ok parts ∧ parts.length = 3 ∧
      Consecutive parts ∧ MatrixLibrary.plain.adopt m = .ok c ∧
      MatrixLibrary.plain.ofParts parts.reverse 4 6 = .ok c := by
  intro m
  have accepted : m.Accepted := ⟨by decide, rfl⟩
  have room : m.HasRoom { threads := 3 } :=
    Csr.hasRoom_of_small accepted rfl (by decide) (by decide)
  obtain ⟨parts, c, encoded, count, chain, -, -, whole, any⟩ :=
    encode_reassembles MatrixLibrary.sums_plain MatrixLibrary.keeps_plain accepted ⟨rfl, rfl⟩ room
      (by decide)
  exact ⟨by cbv, parts, c, encoded, count, chain, whole, any _ parts.reverse_perm⟩

end SparseStream
