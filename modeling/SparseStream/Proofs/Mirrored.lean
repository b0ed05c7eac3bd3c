import SparseStream.Proofs.LowerTriangle
import SparseStream.Proofs.Reassembly

/-! Putting symmetric partitions together again. The entries below the diagonal are mirrored, and no
two of the entries that this makes meet on one cell. -/
namespace SparseStream

open SymmetricPartition

/-- The entries of a matrix below the diagonal, the same entries mirrored, and those on the diagonal
that are not zero. -/
inductive Csr.Mirrored [Zero α] [BEq α] (m : Csr α) : Triplet α → Prop
  | below {r c : Nat} {v : α} : c < r → ((r, c), v) ∈ m.entries → Mirrored m ((r, c), v)
  | above {r c : Nat} {v : α} : c < r → ((r, c), v) ∈ m.entries → Mirrored m ((c, r), v)
  | diagonal {i : Nat} {v : α} : ((i, i), v) ∈ m.entries → (v == 0) = false →
    Mirrored m ((i, i), v)

namespace MatrixLibrary

variable [Zero α] [BEq α]

/-- The entries that one entry stands for tell its cell. -/
theorem cell_of_mem_reflect {t u : Triplet α} (lower : u.1.2 ≤ u.1.1) (member : t ∈ reflect u) :
    u.1 = (max t.1.1 t.1.2, min t.1.1 t.1.2) := by
  obtain ⟨⟨r, c⟩, v⟩ := u
  unfold reflect at member
  dsimp only at lower member
  split at member
  · split at member
    · cases member
    · obtain rfl := List.mem_singleton.mp member
      simp [*]
  · simp only [List.mem_cons, List.not_mem_nil, or_false] at member
    rcases member with rfl | rfl <;> simp [lower]

theorem mem_reflect_of_lt {t : Triplet α} {r c : Nat} {v : α} (before : c < r) :
    t ∈ reflect ((r, c), v) ↔ t = ((r, c), v) ∨ t = ((c, r), v) := by
  simp [reflect, Nat.ne_of_gt before]

theorem mem_reflect_diagonal {t : Triplet α} {i : Nat} {v : α} :
    t ∈ reflect ((i, i), v) ↔ (v == 0) = false ∧ t = ((i, i), v) := by
  cases value : v == 0 <;> simp [reflect, value]

theorem nodup_reflect (u : Triplet α) : ((reflect u).map Prod.fst).Nodup := by
  obtain ⟨⟨r, c⟩, v⟩ := u
  unfold reflect
  dsimp only
  split
  · split <;> simp
  · next other => simp [other]

/-- Mirroring entries on distinct cells, none above the diagonal, gives entries on distinct
cells. -/
theorem nodup_flatMap_reflect {ts : List (Triplet α)} (lower : ∀ t ∈ ts, t.1.2 ≤ t.1.1)
    (distinct : (ts.map Prod.fst).Nodup) : ((ts.flatMap reflect).map Prod.fst).Nodup := by
  rw [List.nodup_iff_pairwise_ne, List.pairwise_map] at distinct
  rw [List.map_flatMap, List.nodup_flatMap]
  refine ⟨fun u _ => nodup_reflect u, distinct.imp_of_mem ?_⟩
  -- a cell that two entries stand for would tell the same cell for both of them
  intro t u first second apart cell inFirst inSecond
  obtain ⟨t', member, rfl⟩ := List.mem_map.mp inFirst
  obtain ⟨u', member', same⟩ := List.mem_map.mp inSecond
  apply apart
  rw [cell_of_mem_reflect (lower t first) member, cell_of_mem_reflect (lower u second) member', same]

end MatrixLibrary

namespace Csr

open MatrixLibrary

variable [Zero α] [BEq α] {m : Csr α}

theorem mem_reflect_keptEntries (sound : m.Sound) (zero : ((0 : α) == 0) = true) {t : Triplet α} :
    t ∈ m.keptEntries.flatMap reflect ↔ m.Mirrored t := by
  rw [List.mem_flatMap]
  constructor
  · rintro ⟨⟨⟨r, c⟩, v⟩, member, reflected⟩
    obtain ⟨bound, inRow⟩ := mem_keptEntries.mp member
    rcases mem_kept.mp inRow with ⟨stored, before⟩ | onDiagonal
    · have entry : ((r, c), v) ∈ m.entries := mem_entries.mpr ⟨bound, stored⟩
      rcases (mem_reflect_of_lt before).mp reflected with rfl | rfl
      · exact .below before entry
      · exact .above before entry
    · cases onDiagonal
      obtain ⟨nonzero, rfl⟩ := mem_reflect_diagonal.mp reflected
      by_cases stored : ∃ v, (r, v) ∈ m.rowEntries r
      · obtain ⟨v, stored⟩ := stored
        rw [onDiagonal_of_mem (ordered_rowEntries sound bound) stored] at nonzero ⊢
        exact .diagonal (mem_entries.mpr ⟨bound, stored⟩) nonzero
      · rw [onDiagonal_of_absent (not_exists.mp stored), zero] at nonzero
        contradiction
  · intro mirrored
    cases mirrored with
    | @below r c v before entry =>
      obtain ⟨bound, stored⟩ := mem_entries.mp entry
      have member := mem_keptEntries.mpr ⟨bound, mem_kept.mpr (.inl ⟨stored, before⟩)⟩
      exact ⟨_, member, (mem_reflect_of_lt before).mpr (.inl rfl)⟩
    | @above r c v before entry =>
      obtain ⟨bound, stored⟩ := mem_entries.mp entry
      have member := mem_keptEntries.mpr ⟨bound, mem_kept.mpr (.inl ⟨stored, before⟩)⟩
      exact ⟨_, member, (mem_reflect_of_lt before).mpr (.inr rfl)⟩
    | @diagonal i v entry nonzero =>
      obtain ⟨bound, stored⟩ := mem_entries.mp entry
      have value := onDiagonal_of_mem (ordered_rowEntries sound bound) stored
      have member := mem_keptEntries.mpr ⟨bound, mem_kept.mpr (.inr rfl)⟩
      rw [value] at member
      exact ⟨_, member, mem_reflect_diagonal.mpr ⟨nonzero, rfl⟩⟩

/-- What is kept of a matrix, mirrored and in row-major order. -/
theorem exists_mirrored (sound : m.Sound) (zero : ((0 : α) == 0) = true) :
    ∃ us, (m.keptEntries.flatMap reflect).Perm us ∧ InOrder us ∧ ∀ t, t ∈ us ↔ m.Mirrored t := by
  have distinct : ((m.keptEntries.flatMap reflect).map Prod.fst).Nodup := by
    apply nodup_flatMap_reflect _ (inOrder_keptEntries sound).nodup
    rintro ⟨⟨r, c⟩, v⟩ member
    exact col_le_of_mem_kept (mem_keptEntries.mp member).2
  obtain ⟨us, sorted, ordered⟩ := exists_inOrder distinct
  exact ⟨us, sorted, ordered, fun t =>
    sorted.symm.mem_iff.trans (mem_reflect_keptEntries sound zero)⟩

theorem exists_mapM_mirrored {ranges : List RowRange} {parts : List (EncodedSymmetric α)}
    (tile : RowRange.Tile 0 ranges m.nRows) (read : m.SymmetricPartsRead ranges parts) :
    ∃ tss, (parts.mapM fun p => return (← p.triplets).flatMap reflect) = .ok tss ∧
      tss.flatten.Perm (m.keptEntries.flatMap reflect) := by
  obtain ⟨tss, each, all⟩ := exists_mapM_symmetricTriplets tile read
  have regroup : tss.flatten.flatMap reflect = (tss.map (List.flatMap reflect)).flatten := by
    rw [← List.flatMap_id, List.flatMap_assoc, ← List.flatMap_def]
    rfl
  refine ⟨tss.map (List.flatMap reflect), ?_, regroup ▸ all.flatMap_right _⟩
  rw [mapM_eq_ok_iff, List.forall₂_map_right_iff]
  refine List.Forall₂.imp (fun p ts triplets => ?_) (mapM_eq_ok_iff.mp each)
  exact bind_eq_ok.mpr ⟨ts, triplets, rfl⟩

theorem inside_of_mirrored (sound : m.Sound) (square : m.nRows = m.nCols) {t : Triplet α}
    (mirrored : m.Mirrored t) : t.1.1 < m.nRows ∧ t.1.2 < m.nRows := by
  cases mirrored with
  | below _ stored =>
    have inside := inside_of_mem_entries sound _ stored
    exact ⟨inside.1, square ▸ inside.2⟩
  | above _ stored =>
    have inside := inside_of_mem_entries sound _ stored
    exact ⟨square ▸ inside.2, inside.1⟩
  | diagonal stored _ =>
    have inside := inside_of_mem_entries sound _ stored
    exact ⟨inside.1, inside.1⟩

/-- A symmetric matrix without zeros on the diagonal is its own mirror image. -/
theorem mirrored_iff_of_symmetric
    (symmetric : ∀ r c v, ((r, c), v) ∈ m.entries → ((c, r), v) ∈ m.entries)
    (nonzero : ∀ i v, ((i, i), v) ∈ m.entries → (v == 0) = false) {t : Triplet α} :
    m.Mirrored t ↔ t ∈ m.entries := by
  constructor
  · intro mirrored
    cases mirrored with
    | below _ stored => exact stored
    | above _ stored => exact symmetric _ _ _ stored
    | diagonal stored _ => exact stored
  · obtain ⟨⟨r, c⟩, v⟩ := t
    intro stored
    rcases Nat.lt_trichotomy c r with below | rfl | above
    · exact .below below stored
    · exact .diagonal stored (nonzero _ _ stored)
    · exact .above above (symmetric _ _ _ stored)

end Csr

/-- An accepted square matrix is encoded symmetrically with any number of threads, and the parts,
taken in any order, are put together to a matrix that has the entries below the diagonal, their
mirror images, and the diagonal without its zeros. These are the arrays of the matrix itself when it
is symmetric and stores no zero on its diagonal, also where the library has taken it over. -/
theorem encodeSymmetric_reassembles [Zero α] [Add α] [BEq α] [Stored α] {lib : MatrixLibrary α}
    {s : Settings} {m : Csr α} (sums : lib.Sums) (zero : ((0 : α) == 0) = true)
    (accepted : m.Accepted) (square : m.nRows = m.nCols) (memory : m.InMemory)
    (room : m.HasSymmetricRoom s) (narrow : s.mode = .full → m.nCols ≤ fullColumnLimit) :
    ∃ parts full, (m.encodeSymmetric s).1 = .ok parts ∧
      full.Accepted ∧ full.nRows = m.nRows ∧ full.nCols = m.nRows ∧
      (∀ t, t ∈ full.compressed.entries ↔ m.Mirrored t) ∧
      (∀ shuffled, shuffled.Perm parts →
        lib.ofSymmetricParts shuffled m.nRows = .ok full.compressed) ∧
      ((∀ r c v, ((r, c), v) ∈ m.entries → ((c, r), v) ∈ m.entries) →
        (∀ i v, ((i, i), v) ∈ m.entries → (v == 0) = false) →
        full = m ∧ (lib.Keeps → lib.adopt m = .ok full.compressed)) := by
  have sound := (Csr.sound_of_make accepted.made).1
  obtain ⟨first, last⟩ := Csr.ends_of_make accepted.made
  obtain ⟨ranges, parts, tile, encoded, read⟩ :=
    Csr.exists_encodeSymmetric accepted square narrow room
  obtain ⟨tss, each, all⟩ := Csr.exists_mapM_mirrored tile read
  obtain ⟨us, sorted, ordered, mirrored⟩ := Csr.exists_mirrored sound zero
  have inside : ∀ t ∈ us, t.1.1 < m.nRows ∧ t.1.2 < m.nRows := fun t member =>
    Csr.inside_of_mirrored sound square ((mirrored t).mp member)
  have full := Csr.accepted_ofEntries (square ▸ accepted.word) ordered inside
  have entries := @Csr.entries_ofEntries _ m.nRows m.nRows us ordered fun t member =>
    (inside t member).1
  have start := (Csr.ends_of_make full.made).1
  refine ⟨parts, _, encoded, full, Csr.nRows_ofEntries, rfl, ?_, ?_, ?_⟩
  · rwa [Compressed.entries_compressed start, entries]
  · intro shuffled perm
    exact sums.assemble_eq_of_perm perm each (all.trans sorted) ordered inside
      (square ▸ accepted.word) (sound.pointers ▸ memory.pointers)
  · intro symmetric nonzero
    have own : us = m.entries := ordered.eq_of_mem_iff (Csr.inOrder_entries sound) fun t =>
      (mirrored t).trans (Csr.mirrored_iff_of_symmetric symmetric nonzero)
    have same : Csr.ofEntries m.nRows m.nRows us = m := by
      rw [own]
      nth_rewrite 2 [square]
      exact Csr.ofEntries_entries sound first last
    rw [same]
    exact ⟨rfl, fun keeps => keeps m accepted memory.small⟩

/-- Two parts of a symmetric matrix that stores no value at its first diagonal cell. -/
theorem encodeSymmetric_reassembles_two_parts :
    let m : Csr Int32 := ⟨3, 3, #[0, 1, 3, 4], #[1, 0, 1, 2], #[5, 5, 7, 9]⟩
    ∃ parts c, (m.encodeSymmetric { mode := .full, threads := 2 }).1 = .ok parts ∧
      MatrixLibrary.plain.ofSymmetricParts parts.reverse 3 = .ok c ∧
      MatrixLibrary.plain.adopt m = .ok c := by
  intro m
  have accepted : m.Accepted := ⟨by decide, rfl⟩
  have room : m.HasSymmetricRoom { mode := .full, threads := 2 } :=
    Csr.hasSymmetricRoom_of_small accepted rfl rfl (by decide) (by decide) (by decide)
  obtain ⟨parts, full, encoded, -, -, -, -, any, own⟩ :=
    encodeSymmetric_reassembles MatrixLibrary.sums_plain rfl accepted rfl ⟨rfl, rfl⟩ room (by decide)
  have entries : m.entries = [((0, 1), 5), ((1, 0), 5), ((1, 1), 7), ((2, 2), 9)] := by decide +kernel
  have symmetric : ∀ t ∈ m.entries, ((t.1.2, t.1.1), t.2) ∈ m.entries := by
    rw [entries]
    decide
  have nonzero : ∀ t ∈ m.entries, (t.2 == 0) = false := by
    rw [entries]
    decide
  obtain ⟨-, adopted⟩ :=
    own (fun _ _ _ member => symmetric _ member) fun _ _ member => nonzero _ member
  exact ⟨parts, _, encoded, any _ parts.reverse_perm, adopted MatrixLibrary.keeps_plain⟩

end SparseStream
