import Mathlib.Data.List.Perm.Basic
import SparseStream.Proofs.PlainRows
import SparseStream.Proofs.Ranges
import SparseStream.Proofs.Stacked

/-! A matrix encoded part by part. With room in memory every part of an accepted matrix is encoded,
and the parts, one after the other, are read back as the rows of the matrix. -/
namespace SparseStream

/-- Each of a list of steps succeeds exactly when all of them do. -/
theorem mapM_eq_ok_iff {xs : List β} {ys : List γ} {f : β → Except ε γ} :
    xs.mapM f = .ok ys ↔ List.Forall₂ (fun x y => f x = .ok y) xs ys := by
  induction xs generalizing ys with
  | nil =>
    cases ys with
    | nil => exact ⟨fun _ => .nil, fun _ => rfl⟩
    | cons y ys => exact ⟨nofun, nofun⟩
  | cons x xs ih =>
    simp only [List.mapM_cons, bind_eq_ok]
    constructor
    · rintro ⟨y, first, rest, more, made⟩
      cases made
      exact .cons first (ih.mp more)
    · intro each
      cases each with
      | cons first more => exact ⟨_, first, _, ih.mpr more, rfl⟩

theorem exists_mapM_eq_ok {xs : List β} {f : β → Except ε γ} {R : β → γ → Prop}
    (each : ∀ x ∈ xs, ∃ y, f x = .ok y ∧ R x y) :
    ∃ ys, xs.mapM f = .ok ys ∧ List.Forall₂ R xs ys := by
  induction xs with
  | nil => exact ⟨[], rfl, .nil⟩
  | cons x xs ih =>
    rw [List.forall_mem_cons] at each
    obtain ⟨⟨y, found, related⟩, later⟩ := each
    obtain ⟨ys, all, rest⟩ := ih later
    refine ⟨y :: ys, ?_, .cons related rest⟩
    rw [mapM_eq_ok_iff] at all ⊢
    exact .cons found all

/-- Steps taken in another order give their results in that order. -/
theorem mapM_perm {xs xs' : List β} {ys : List γ} {f : β → Except ε γ} (perm : xs'.Perm xs)
    (all : xs.mapM f = .ok ys) : ∃ ys', xs'.mapM f = .ok ys' ∧ ys'.Perm ys := by
  obtain ⟨ys', each, shuffled⟩ := List.perm_comp_forall₂ perm (mapM_eq_ok_iff.mp all)
  exact ⟨ys', mapM_eq_ok_iff.mpr each, shuffled⟩

namespace Csr

theorem rowsFit {m : Csr α} (accepted : m.Accepted) {first last : Nat} (order : first ≤ last)
    (bound : last ≤ m.nRows) : Partition.RowsFit first m.nCols (last - first) m.rowEntries := by
  have sound := (sound_of_make accepted.made).1
  refine ⟨accepted.word, ?_, ?_⟩
  · intro i _ high
    exact ordered_rowEntries sound (by omega)
  · intro i _ high e member
    exact col_lt_of_mem_rowEntries sound (by omega) member

theorem row?_eq {m : Csr α} (sound : m.Sound) {i : Nat} (bound : i < m.nRows) :
    m.row? i = some (m.rowEntries i) := by
  obtain ⟨order, inside⟩ := sound.bounds i bound
  have values := sound.values ▸ inside
  rw [row?, getElem?_pointer sound (Nat.le_of_lt bound), getElem?_pointer sound bound]
  exact if_pos ⟨order, inside, values⟩

theorem rowsBetween?_eq {m : Csr α} (sound : m.Sound) {first last : Nat} (bound : last ≤ m.nRows) :
    m.rowsBetween? first last = some ((List.range' first (last - first)).map m.rowEntries) := by
  have pointers : ¬(first < last ∧ m.rowPtr.size ≤ last) := by
    rw [sound.pointers]
    omega
  rw [rowsBetween?, if_neg pointers, mapM_eq_some_iff, List.map_map]
  apply List.map_congr_left
  intro i member
  have place := List.mem_range'_1.mp member
  exact row?_eq sound (by omega)

end Csr

namespace Partition

/-- Rows of an accepted matrix make a partition. -/
theorem ofCsr_eq_plainRows {m : Csr α} (accepted : m.Accepted) {first last : Nat}
    (order : first ≤ last) (bound : last ≤ m.nRows) :
    ofCsr m first last = .ok (plainRows first m.nCols (last - first) m.rowEntries) := by
  have sound := (Csr.sound_of_make accepted.made).1
  have start := Csr.getElem?_pointer sound (Nat.le_trans order bound)
  have stop := Csr.getElem?_pointer sound bound
  have inside : ¬(m.nRows < last ∨ last < first) := by omega
  have within : m.pointer last ≤ m.cols.size :=
    (Csr.ends_of_make accepted.made).2 ▸ Csr.pointer_le sound bound (Nat.le_refl _)
  have held : ¬(m.pointer last < m.pointer first ∨ m.cols.size < m.pointer last ∨
      m.values.size < m.pointer last) := by
    have forward := Csr.pointer_le sound order bound
    have values := sound.values
    omega
  have count := @total_count_rows _ _ sound first (last - first) (by omega)
  rw [Nat.add_sub_cancel' order] at count
  have made : ∃ p, ofCsr m first last = .ok p := by
    simp only [ofCsr, if_neg inside, start, stop, access, Option.elim_some, bind, Except.bind, pure,
      Except.pure, if_neg held]
    exact ⟨_, rfl⟩
  obtain ⟨p, made⟩ := made
  obtain ⟨-, -, rfl⟩ := ofCsr_eq sound made
  rw [made, plainRows, count]

end Partition

namespace SymmetricPartition

theorem rowsFit_below {first nCols n : Nat} {row : Nat → List (Nat × α)}
    (fit : Partition.RowsFit first nCols n row) :
    Partition.RowsFit first nCols n fun i => below i (row i) := by
  refine ⟨fit.word, ?_, ?_⟩
  · intro i low high
    exact (fit.ordered i low high).sublist (List.filter_sublist.map _)
  · intro i low high e member
    exact fit.inside i low high e (List.mem_of_mem_filter member)

/-- Rows of an accepted square matrix make a symmetric partition. -/
theorem ofCsr_eq_plainRows [Zero α] {m : Csr α} (accepted : m.Accepted) (square : m.nRows = m.nCols)
    {first last : Nat} (order : first ≤ last) (bound : last ≤ m.nRows) :
    ofCsr m first last = .ok ⟨.plainRows first m.nCols (last - first) fun i =>
      below i (m.rowEntries i), (List.range' first (last - first)).map fun i =>
        onDiagonal i (m.rowEntries i)⟩ := by
  have sound := (Csr.sound_of_make accepted.made).1
  have made : Partition.ofRows first m.nCols ((List.range' first (last - first)).map fun i =>
      Partition.plainRow (below i (m.rowEntries i))) = _ :=
    Partition.ofRows_plainRows (rowsFit_below (Csr.rowsFit accepted order bound))
  have inside : ¬(m.nRows < last ∨ last < first) := by omega
  simp only [ofCsr, if_neg (not_not_intro square), if_neg inside, Csr.rowsBetween?_eq sound bound,
    access, Option.elim_some, bind, Except.bind, pure, Except.pure, zipIdx_map_range', List.map_map,
    Function.comp_def, made]
  rfl

/-- With room in memory, encoding a symmetric partition is encoding its lower triangle. -/
theorem fst_encode [Stored α] {s : Settings} {limit : Nat} {p : SymmetricPartition α}
    (room : p.HasRoom s limit) :
    (p.encode s limit).1 = (p.lower.encodeWith s limit true).1 >>= fun lower =>
      .ok ⟨p.diagonal.toArray, lower⟩ := by
  rw [fst_encode_eq_map, room.diagonal]
  cases (p.lower.encodeWith s limit true).1 <;> rfl

end SymmetricPartition

/-- What an encoded symmetric partition is read back as: the entries of `n` rows before the
diagonal, and the diagonal. -/
structure EncodedSymmetric.ReadsAs [Zero α] (m : EncodedSymmetric α) (first nCols n : Nat)
    (row : Nat → List (Nat × α)) : Prop where
  lower : m.lower.ReadsAs first nCols n fun i => SymmetricPartition.below i (row i)
  diagonal : m.diagonal.toList
    = (List.range' first n).map fun i => SymmetricPartition.onDiagonal i (row i)

namespace Csr

/-- Every request for memory that encoding a matrix makes is met: the one for the list of ranges,
and those for the partition of each range. -/
structure HasRoom [Stored α] (s : Settings) (m : Csr α) : Prop where
  ranges : reserve s.threads RowRange.bytes = .ok ()
  parts : ∀ r ∈ (m.ranges s.threads).1, ∀ p, Partition.ofCsr m r.first r.last = .ok p →
    p.HasRoom s allocationLimit

/-- Every request for memory that encoding a symmetric matrix makes is met. -/
structure HasSymmetricRoom [Zero α] [Stored α] (s : Settings) (m : Csr α) : Prop where
  ranges : reserve s.threads RowRange.bytes = .ok ()
  parts : ∀ r ∈ (m.ranges s.threads).1, ∀ p, SymmetricPartition.ofCsr m r.first r.last = .ok p →
    p.HasRoom s allocationLimit

/-- Encodes the rows of a range. -/
def encodeRange [Stored α] (s : Settings) (m : Csr α) (r : RowRange) :
    Except Failure (Encoded α) := do
  let p ← Partition.ofCsr m r.first r.last
  (p.encode s allocationLimit).1

def encodeSymmetricRange [Zero α] [Stored α] (s : Settings) (m : Csr α) (r : RowRange) :
    Except Failure (EncodedSymmetric α) := do
  let p ← SymmetricPartition.ofCsr m r.first r.last
  (p.encode s allocationLimit).1

theorem fst_encode [Stored α] (s : Settings) (m : Csr α) :
    (m.encode s).1 = (m.cutRows s.threads).1 >>= List.mapM (m.encodeRange s) := by
  simp only [encode, Tracked.fst_bind]
  congr
  funext ranges
  change (List.mapM (m.encodeRange s) ranges >>= _) = _
  cases List.mapM (m.encodeRange s) ranges <;> rfl

theorem fst_encodeSymmetric [Zero α] [Stored α] (s : Settings) (m : Csr α) :
    (m.encodeSymmetric s).1
      = (m.cutRows s.threads).1 >>= List.mapM (m.encodeSymmetricRange s) := by
  simp only [encodeSymmetric, Tracked.fst_bind]
  congr
  funext ranges
  change (List.mapM (m.encodeSymmetricRange s) ranges >>= _) = _
  cases List.mapM (m.encodeSymmetricRange s) ranges <;> rfl

/-- What succeeds for each range of rows gives a part for each of the ranges. -/
theorem exists_eachRange {m : Csr α} (sound : m.Sound) {n : Nat}
    (room : reserve n RowRange.bytes = .ok ()) {f : RowRange → Except Failure β}
    {R : RowRange → β → Prop}
    (each : ∀ r ∈ (m.ranges n).1, r.first ≤ r.last → r.last ≤ m.nRows → ∃ b, f r = .ok b ∧ R r b) :
    ∃ ranges parts, ranges.length = max n 1 ∧ RowRange.Tile 0 ranges m.nRows ∧
      (m.cutRows n).1 >>= List.mapM f = .ok parts ∧ List.Forall₂ R ranges parts := by
  obtain ⟨ranges, found, length, tile⟩ := ranges_tile sound n
  have every : ∀ r ∈ ranges, ∃ b, f r = .ok b ∧ R r b := by
    intro r member
    obtain ⟨order, bound⟩ := tile.order r member
    exact each r (found ▸ member) order bound
  obtain ⟨parts, all, related⟩ := exists_mapM_eq_ok every
  refine ⟨ranges, parts, length, tile, ?_, related⟩
  rw [fst_cutRows found room]
  exact all

/-- Where parts came about, there is a range for each of them. -/
theorem ranges_of_eachRange {m : Csr α} (sound : m.Sound) {n : Nat}
    {f : RowRange → Except Failure β} {R : RowRange → β → Prop} {parts : List β}
    (each : ∀ r b, r.first ≤ r.last → r.last ≤ m.nRows → f r = .ok b → R r b)
    (made : (m.cutRows n).1 >>= List.mapM f = .ok parts) :
    ∃ ranges, RowRange.Tile 0 ranges m.nRows ∧ List.Forall₂ R ranges parts := by
  obtain ⟨ranges, found, -, tile⟩ := ranges_tile sound n
  obtain ⟨cut, ran, all⟩ := bind_eq_ok.mp made
  have same : cut = ranges := by
    unfold cutRows at ran
    rw [found] at ran
    split at ran
    · contradiction
    · exact (Except.ok.inj ran).symm
  subst same
  refine ⟨cut, tile, ?_⟩
  have related := mapM_eq_ok_iff.mp all
  rw [List.forall₂_iff_get] at related ⊢
  refine ⟨related.1, ?_⟩
  intro i inside inside'
  obtain ⟨order, bound⟩ := tile.order _ (List.get_mem cut ⟨i, inside⟩)
  exact each _ _ order bound (related.2 i inside inside')

/-- Parts that are read back as the rows of their ranges. -/
def PartsRead (m : Csr α) : List RowRange → List (Encoded α) → Prop :=
  List.Forall₂ fun r p => p.ReadsAs r.first m.nCols (r.last - r.first) m.rowEntries

def SymmetricPartsRead [Zero α] (m : Csr α) : List RowRange → List (EncodedSymmetric α) → Prop :=
  List.Forall₂ fun r p => p.ReadsAs r.first m.nCols (r.last - r.first) m.rowEntries

/-- With room in memory, a matrix whose columns fit the column mode is encoded in as many parts as
there are threads, at least in one. -/
theorem exists_encode [Stored α] {s : Settings} {m : Csr α} (accepted : m.Accepted)
    (rows : m.nRows < wordLimit) (narrow : s.mode = .full → m.nCols ≤ fullColumnLimit)
    (room : m.HasRoom s) :
    ∃ ranges parts, ranges.length = max s.threads 1 ∧ RowRange.Tile 0 ranges m.nRows ∧
      (m.encode s).1 = .ok parts ∧ m.PartsRead ranges parts := by
  rw [fst_encode]
  apply exists_eachRange (sound_of_make accepted.made).1 room.ranges
  intro r member order bound
  have made := Partition.ofCsr_eq_plainRows accepted order bound
  rw [encodeRange, made]
  exact Partition.encodeWith_plainRows (rowsFit accepted order bound) (by omega) narrow
    (room.parts r member _ made)

/-- The parts of an encoded matrix are read back as its rows. -/
theorem partsRead_of_encode [Stored α] {s : Settings} {m : Csr α} {parts : List (Encoded α)}
    (accepted : m.Accepted) (rows : m.nRows < wordLimit) (encoded : (m.encode s).1 = .ok parts) :
    ∃ ranges, RowRange.Tile 0 ranges m.nRows ∧ m.PartsRead ranges parts := by
  rw [fst_encode] at encoded
  apply ranges_of_eachRange (sound_of_make accepted.made).1 _ encoded
  intro r p order bound ran
  rw [encodeRange, Partition.ofCsr_eq_plainRows accepted order bound] at ran
  exact Partition.readsAs_of_encodeWith (rowsFit accepted order bound) (by omega) ran

theorem readsAs_of_encodeSymmetricRange [Zero α] [Stored α] {s : Settings} {m : Csr α}
    {r : RowRange} {p : EncodedSymmetric α} (accepted : m.Accepted) (square : m.nRows = m.nCols)
    (order : r.first ≤ r.last) (bound : r.last ≤ m.nRows)
    (ran : m.encodeSymmetricRange s r = .ok p) :
    p.ReadsAs r.first m.nCols (r.last - r.first) m.rowEntries := by
  have rows : m.nRows < wordLimit := square ▸ accepted.word
  have fit := SymmetricPartition.rowsFit_below (rowsFit accepted order bound)
  rw [encodeSymmetricRange, SymmetricPartition.ofCsr_eq_plainRows accepted square order bound] at ran
  change (SymmetricPartition.encode s allocationLimit _).1 = _ at ran
  obtain ⟨lower, encoded, rfl⟩ := SymmetricPartition.exists_below_of_encode ran
  exact ⟨Partition.readsAs_of_encodeWith fit (by omega) encoded, rfl⟩

/-- The parts of a symmetrically encoded matrix are read back as its lower triangle and its
diagonal. -/
theorem symmetricPartsRead_of_encode [Zero α] [Stored α] {s : Settings} {m : Csr α}
    {parts : List (EncodedSymmetric α)} (accepted : m.Accepted) (square : m.nRows = m.nCols)
    (encoded : (m.encodeSymmetric s).1 = .ok parts) :
    ∃ ranges, RowRange.Tile 0 ranges m.nRows ∧ m.SymmetricPartsRead ranges parts := by
  rw [fst_encodeSymmetric] at encoded
  apply ranges_of_eachRange (sound_of_make accepted.made).1 _ encoded
  intro r p order bound ran
  exact readsAs_of_encodeSymmetricRange accepted square order bound ran

/-- With room in memory, a square matrix whose columns fit the column mode is encoded by its lower
triangle and its diagonal. -/
theorem exists_encodeSymmetric [Zero α] [Stored α] {s : Settings} {m : Csr α}
    (accepted : m.Accepted) (square : m.nRows = m.nCols)
    (narrow : s.mode = .full → m.nCols ≤ fullColumnLimit) (room : m.HasSymmetricRoom s) :
    ∃ ranges parts, RowRange.Tile 0 ranges m.nRows ∧ (m.encodeSymmetric s).1 = .ok parts ∧
      m.SymmetricPartsRead ranges parts := by
  have rows : m.nRows < wordLimit := square ▸ accepted.word
  have each : ∀ r ∈ (m.ranges s.threads).1, r.first ≤ r.last → r.last ≤ m.nRows →
      ∃ p, m.encodeSymmetricRange s r = .ok p ∧
        p.ReadsAs r.first m.nCols (r.last - r.first) m.rowEntries := by
    intro r member order bound
    have made := SymmetricPartition.ofCsr_eq_plainRows accepted square order bound
    have within := room.parts r member _ made
    have fit := SymmetricPartition.rowsFit_below (rowsFit accepted order bound)
    obtain ⟨lower, ran, -⟩ := Partition.encodeWith_plainRows fit (by omega) narrow within.lower
    obtain ⟨p, encoded⟩ : ∃ p, m.encodeSymmetricRange s r = .ok p := by
      rw [encodeSymmetricRange, made]
      exact ⟨_, (SymmetricPartition.fst_encode within).trans (bind_eq_ok.mpr ⟨lower, ran, rfl⟩)⟩
    exact ⟨p, encoded, readsAs_of_encodeSymmetricRange accepted square order bound encoded⟩
  obtain ⟨ranges, parts, -, tile, encoded, read⟩ :=
    exists_eachRange (sound_of_make accepted.made).1 room.ranges each
  exact ⟨ranges, parts, tile, fst_encodeSymmetric s m ▸ encoded, read⟩

end Csr

/-- Parts that start at the first row and follow each other without a gap. -/
structure Consecutive (parts : List (Encoded α)) : Prop where
  start : ∀ p ∈ parts.head?, p.rowStart = 0
  chain : parts.IsChain fun p q => q.rowStart = p.rowStart + p.nRows

theorem checkStarts_eq_ok_iff {start : Nat} {parts : List (Encoded α)} :
    checkStarts start parts = .ok () ↔ (∀ p ∈ parts.head?, p.rowStart = start) ∧
      parts.IsChain fun p q => q.rowStart = p.rowStart + p.nRows := by
  induction parts generalizing start with
  | nil => simp [checkStarts]
  | cons p parts ih =>
    rw [checkStarts]
    by_cases here : p.rowStart = start
    · subst here
      simp [ih, List.isChain_cons]
    · simp [here]

theorem consecutive_iff {parts : List (Encoded α)} :
    checkStarts 0 parts = .ok () ↔ Consecutive parts :=
  checkStarts_eq_ok_iff.trans ⟨fun h => ⟨h.1, h.2⟩, fun h => ⟨h.start, h.chain⟩⟩

namespace Csr

/-- Parts that are read back as the rows of ranges start and end where these do. -/
theorem checkStarts_of_partsRead {m : Csr α} {start stop : Nat} {ranges : List RowRange}
    {parts : List (Encoded α)} (tile : RowRange.Tile start ranges stop)
    (read : m.PartsRead ranges parts) :
    checkStarts start parts = .ok () ∧ ∀ p ∈ parts.getLast?, p.rowStart + p.nRows = stop := by
  induction tile generalizing parts with
  | nil =>
    cases read
    exact ⟨rfl, by simp⟩
  | @cons first last count stop rest order tile ih =>
    cases read with
    | @cons _ p _ parts reads more =>
      obtain ⟨starts, ends⟩ := ih more
      have place : p.rowStart + p.nRows = last := by
        rw [reads.rowStart, reads.nRows]
        exact Nat.add_sub_cancel' order
      constructor
      · rw [checkStarts, if_neg (not_not_intro reads.rowStart), ← starts, ← place, reads.rowStart]
      · intro q member
        cases parts with
        | nil =>
          cases more
          cases tile
          cases member
          exact place
        | cons p' parts => exact ends q (by rwa [List.getLast?_cons_cons] at member)

/-- The entries of all parts, part by part, are the entries of the matrix. -/
theorem exists_mapM_triplets {m : Csr α} {ranges : List RowRange} {parts : List (Encoded α)}
    (tile : RowRange.Tile 0 ranges m.nRows) (read : m.PartsRead ranges parts) :
    ∃ tss, parts.mapM Encoded.triplets = .ok tss ∧ tss.flatten = m.entries := by
  refine ⟨ranges.map fun r => r.rows.flatMap fun i => placeRow i (m.rowEntries i), ?_, ?_⟩
  · rw [mapM_eq_ok_iff, List.forall₂_map_right_iff]
    exact (read.imp fun _ _ reads => reads.triplets).flip
  · rw [← List.flatMap_def, ← List.flatMap_assoc, tile.flatMap_rows_eq_range, entries]

end Csr
end SparseStream
