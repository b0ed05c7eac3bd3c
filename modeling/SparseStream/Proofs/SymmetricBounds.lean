import SparseStream.Proofs.SymmetricProduct

/-! Which places of its vectors a symmetric partition reaches. What lies below the diagonal never
leaves them. The diagonal may: a partition is accepted with rows that have no column of their own,
as long as nothing of these rows lies below the diagonal. -/
namespace SparseStream

namespace SymmetricPartition

/-- Each row has a column for its diagonal. -/
def InSquare (p : SymmetricPartition α) : Prop :=
  ∀ i < p.lower.nRows, p.lower.rowStart + i < p.lower.nCols

instance (p : SymmetricPartition α) : Decidable p.InSquare :=
  inferInstanceAs (Decidable (∀ i < p.lower.nRows, p.lower.rowStart + i < p.lower.nCols))

/-- What a partition adds to a product, in order: its diagonal, and each entry below it with the
mirror image. -/
def updates? (p : SymmetricPartition α) : Option (List (Triplet α)) :=
  p.lower.entries?.map fun ts =>
    ((p.diagonal.zipIdx p.lower.rowStart).map fun (d, i) => ((i, i), d)) ++ ts.flatMap mirror

/-- Rows of a matrix come with their columns, for only a square one is split. -/
theorem inSquare_of_ofCsr [Zero α] {m : Csr α} {first last : Nat} {p : SymmetricPartition α}
    (accepted : m.Accepted) (made : ofCsr m first last = .ok p) : p.InSquare := by
  obtain ⟨square, order, bound, -⟩ := of_ofCsr_eq_ok made
  rw [ofCsr_eq_plainRows accepted square order bound] at made
  cases made
  intro i inside
  rw [Partition.nRows_plainRows] at inside
  calc first + i < last := by omega
    _ ≤ m.nCols := square ▸ bound

theorem Accepted.length_diagonal [Zero α] {p : SymmetricPartition α} (accepted : p.Accepted) :
    p.diagonal.length = p.lower.nRows := by
  cases accepted with
  | make _ made =>
    obtain ⟨count, rfl⟩ := of_make_eq_ok made
    exact count
  | csr matrix made =>
    obtain ⟨square, order, bound, -⟩ := of_ofCsr_eq_ok made
    rw [ofCsr_eq_plainRows matrix square order bound] at made
    cases made
    rw [Partition.nRows_plainRows, List.length_map, List.length_range']

end SymmetricPartition

namespace Encoded

variable {m : Encoded α}

theorem within_of_mem_inside {es : List (Cell × α)} {e : Cell × α}
    (member : e ∈ (m.inside es).1) : e.1.1 < m.nRows ∧ e.1.2 < m.nCols := by
  induction es with
  | nil => cases member
  | cons first es ih =>
    obtain ⟨⟨r, c⟩, v⟩ := first
    rw [inside] at member
    split at member
    · cases member
    · next within =>
      rw [not_or, Nat.not_le, Nat.not_le] at within
      rcases List.mem_cons.mp member with rfl | later
      · exact within
      · exact ih later

theorem within_of_mem_walkUnit {start : Nat} {u : StreamUnit} {e : Cell × α}
    (member : e ∈ (m.walkUnit start u).1) : e.1.1 < m.nRows ∧ e.1.2 < m.nCols := by
  unfold walkUnit at member
  split at member
  · cases member
  split at member
  · cases member
  · exact within_of_mem_inside member

theorem within_of_mem_walkFrom {stop : Option Corruption} {start : Nat} {us : List StreamUnit}
    {e : Cell × α} (member : e ∈ (m.walkFrom stop start us).1) :
    e.1.1 < m.nRows ∧ e.1.2 < m.nCols := by
  induction us generalizing start with
  | nil =>
    unfold walkFrom at member
    repeat' split at member
    all_goals cases member
  | cons u us ih =>
    rw [walkFrom] at member
    split at member
    · next ended => exact within_of_mem_walkUnit (ended ▸ member)
    · next walked =>
      rcases List.mem_append.mp member with early | late
      · have unit : e ∈ (m.walkUnit start u).1 := by
          rw [walked]
          exact early
        exact within_of_mem_walkUnit unit
      · exact ih late

/-- Whatever the stream and its table hold, a walk places values inside of the partition only. -/
theorem within_of_mem_walk {e : Cell × α} (member : e ∈ m.walk.1) :
    e.1.1 < m.nRows ∧ e.1.2 < m.nCols :=
  within_of_mem_walkFrom member

end Encoded

namespace EncodedSymmetric

variable [Zero α] [Add α] [Mul α] {x y : Array α}

theorem addDiagonal_eq_of_forall {r : Nat} {ds : List α} (inside : ∀ i < ds.length, r + i < y.size) :
    addDiagonal x r ds y
      = (((ds.zipIdx r).map fun (d, i) => ((i, i), d)).foldl (addCell x) y, none) := by
  cases ds with
  | nil => rfl
  | cons d ds => exact addDiagonal_eq (inside ds.length (Nat.lt_succ_self _))

/-- A diagonal that reaches past the end of the vector ends there. -/
theorem addDiagonal_outOfBounds {r i : Nat} {ds : List α} (row : i < ds.length)
    (outside : y.size ≤ r + i) : (addDiagonal x r ds y).2 = some .outOfBounds := by
  induction ds generalizing r i y with
  | nil => exact absurd row (Nat.not_lt_zero i)
  | cons d ds ih =>
    rw [addDiagonal]
    split
    · rfl
    · next here =>
      -- this row has a place, so the one without is behind it
      cases i with
      | zero => exact absurd outside here
      | succ i =>
        have size : (addAt y r (d * x.getD r 0)).size = y.size := Array.size_modify
        exact ih (Nat.lt_of_succ_lt_succ row) (by omega)

variable {m : EncodedSymmetric α} {placed ts : List (Cell × α)}

/-- A part that can be read to its end adds its share as long as each of its rows has a place in the
vectors. -/
theorem multiplyAdd_inside (walk : m.lower.walk = (placed, none))
    (shifted : (placed.map fun ((r, c), v) => ((m.lower.rowStart + r, c), v)) = ts)
    (diagonal : m.diagonal.size = m.lower.nRows)
    (rows : ∀ i < m.lower.nRows, m.lower.rowStart + i < m.lower.nCols)
    (xs : x.size = m.lower.nCols) (ys : y.size = m.lower.nCols) :
    let us := ((m.diagonal.toList.zipIdx m.lower.rowStart).map fun (d, i) => ((i, i), d)) ++
      ts.flatMap mirror
    m.multiplyAdd x y = (us.foldl (addCell x) y, none) ∧
      ∀ t ∈ us, t.1.1 < y.size ∧ t.1.2 < x.size := by
  intro us
  have below : ∀ t ∈ ts, t.1.1 < m.lower.nCols ∧ t.1.2 < m.lower.nCols := by
    subst shifted
    rw [List.forall_mem_map]
    intro e member
    have within := Encoded.within_of_mem_walk (walk.symm ▸ member : e ∈ m.lower.walk.1)
    exact ⟨rows e.1.1 within.1, within.2⟩
  constructor
  · have sizes : ¬(x.size ≠ m.lower.nCols ∨ y.size ≠ m.lower.nCols) := by simp [xs, ys]
    have places : ∀ i < m.diagonal.toList.length, m.lower.rowStart + i < y.size := by
      rw [Array.length_toList, diagonal, ys]
      exact rows
    simp only [multiplyAdd, if_neg sizes, addDiagonal_eq_of_forall places, walk]
    rw [addReflected_eq shifted fun t member => by
        rw [size_foldl_addCell, ys]
        exact (below t member).1, ← List.foldl_append]
  · rw [xs, ys]
    intro t member
    rcases List.mem_append.mp member with onDiagonal | mirrored
    · obtain ⟨⟨d, i⟩, inDiagonal, rfl⟩ := List.mem_map.mp onDiagonal
      have place := List.mem_zipIdx inDiagonal
      rw [Array.length_toList, diagonal] at place
      have bound := rows (i - m.lower.rowStart) (by omega)
      exact ⟨by simp only; omega, by simp only; omega⟩
    · obtain ⟨e, stored, pair⟩ := List.mem_flatMap.mp mirrored
      have within := below e stored
      rcases List.mem_cons.mp pair with rfl | opposite
      · exact within
      · obtain rfl := List.mem_singleton.mp opposite
        exact within.symm

theorem multiplyAdd_outOfBounds {i : Nat} (diagonal : m.diagonal.size = m.lower.nRows)
    (row : i < m.lower.nRows) (outside : m.lower.nCols ≤ m.lower.rowStart + i)
    (xs : x.size = m.lower.nCols) (ys : y.size = m.lower.nCols) :
    (m.multiplyAdd x y).2 = some .outOfBounds := by
  have sizes : ¬(x.size ≠ m.lower.nCols ∨ y.size ≠ m.lower.nCols) := by simp [xs, ys]
  have length : i < m.diagonal.toList.length := by rwa [Array.length_toList, diagonal]
  have ended : (addDiagonal x m.lower.rowStart m.diagonal.toList y).2 = some .outOfBounds :=
    addDiagonal_outOfBounds length (ys.symm ▸ outside)
  simp only [multiplyAdd, if_neg sizes]
  rcases added : addDiagonal x m.lower.rowStart m.diagonal.toList y with ⟨z, failure⟩
  rw [added] at ended
  simp only at ended
  subst ended
  rfl

end EncodedSymmetric

open SymmetricPartition

/-- How adding the share of an accepted symmetric partition ends. Vectors of another length than the
rows have columns are refused and stay as they are. With vectors of that length it succeeds, and
touches no place outside of them, if each row has a column for its diagonal; otherwise it runs past
their end. Rows of a matrix always have these columns. -/
theorem multiplyAdd_outcome [Zero α] [Add α] [Mul α] [Stored α] (s : Settings) (limit : Nat) :
    (∀ (p : SymmetricPartition α) (m : EncodedSymmetric α), p.Accepted →
      p.lower.rowStart + p.lower.nRows < wordLimit → (p.encode s limit).1 = .ok m →
      ∃ ts, p.updates? = some ts ∧ ∀ x y : Array α,
        (x.size ≠ p.lower.nCols ∨ y.size ≠ p.lower.nCols → m.multiplyAdd x y
          = (y, some (.error (.matrix (.vectorLengths x.size y.size p.lower.nCols))))) ∧
        (x.size = p.lower.nCols → y.size = p.lower.nCols → p.InSquare →
          m.multiplyAdd x y = (ts.foldl (addCell x) y, none) ∧
            ∀ t ∈ ts, t.1.1 < y.size ∧ t.1.2 < x.size) ∧
        (x.size = p.lower.nCols → y.size = p.lower.nCols → ¬p.InSquare →
          (m.multiplyAdd x y).2 = some .outOfBounds)) ∧
    (∀ (m : Csr α) (first last : Nat) (p : SymmetricPartition α), m.Accepted →
      SymmetricPartition.ofCsr m first last = .ok p → p.InSquare) := by
  constructor
  · intro p m accepted rows encoded
    obtain ⟨lower, below, rfl⟩ := exists_below_of_encode encoded
    obtain ⟨start, count, width⟩ := Partition.shape_of_encodeWith accepted.lower.sound below
    obtain ⟨ts, found, read⟩ :=
      Partition.triplets_of_encodeWith accepted.lower.sound (by omega) below
    obtain ⟨placed, walk, shifted⟩ := Encoded.exists_walk read
    have diagonal : p.diagonal.toArray.size = lower.nRows :=
      List.size_toArray.trans (accepted.length_diagonal.trans count.symm)
    refine ⟨_, by rw [updates?, found, Option.map_some], ?_⟩
    simp only [InSquare, ← start, ← count, ← width]
    intro x y
    refine ⟨?_, ?_, ?_⟩
    · intro other
      rw [EncodedSymmetric.multiplyAdd, if_pos other]
    · intro xs ys rows
      exact EncodedSymmetric.multiplyAdd_inside (m := ⟨_, lower⟩) walk shifted diagonal rows xs ys
    · intro xs ys outside
      simp only [not_forall, Nat.not_lt] at outside
      obtain ⟨i, row, past⟩ := outside
      exact EncodedSymmetric.multiplyAdd_outOfBounds (m := ⟨_, lower⟩) diagonal row past xs ys
  · intro m first last p
    exact inSquare_of_ofCsr

/-- A column below the diagonal is added to vectors of three places, and the last two rows of a
matrix have their columns. -/
theorem multiplyAdd_outcome_column :
    let column : Pattern := ⟨.simple .vertical 1, 2⟩
    let p : SymmetricPartition Int32 :=
      ⟨⟨1, 3, 3, [[.pattern 0 column [4, 5]], [.plain 1 6]], 0⟩, [1, 2]⟩
    let m : Csr Int32 := ⟨3, 3, #[0, 1, 2, 4], #[0, 1, 0, 2], #[1, 2, 3, 4]⟩
    (∃ encoded ts, (p.encode {} allocationLimit).1 = .ok encoded ∧ p.updates? = some ts ∧
      encoded.multiplyAdd #[1, 2, 3] #[0, 0, 0] = (ts.foldl (addCell #[1, 2, 3]) #[0, 0, 0], none)) ∧
    ∀ q, SymmetricPartition.ofCsr m 1 3 = .ok q → q.InSquare := by
  intro column p m
  have admitted : column.Admitted :=
    .line (by decide : 1 < strideLimit) (by decide : 2 < wordLimit)
      (rfl : Pattern.line .vertical 1 2 = _)
  have madeBelow : Partition.ofRows 1 3 p.lower.rows = .ok p.lower := rfl
  have below : p.lower.Accepted :=
    .rows (by decide) (by simp [p, Element.Admitted, admitted]) madeBelow
  have accepted : p.Accepted := .make below (rfl : SymmetricPartition.make p.lower [1, 2] = .ok p)
  have square : p.InSquare := by decide
  constructor
  · obtain ⟨e, encoded⟩ := exists_ok_of_isOk
      (by decide +kernel : (p.encode {} allocationLimit).1.isOk = true)
    obtain ⟨ts, found, adds⟩ :=
      (multiplyAdd_outcome {} allocationLimit).1 p e accepted (by decide) encoded
    exact ⟨e, ts, encoded, found, ((adds #[1, 2, 3] #[0, 0, 0]).2.1 rfl rfl square).1⟩
  · have matrix : m.Accepted := ⟨by decide, rfl⟩
    exact fun q => (multiplyAdd_outcome {} allocationLimit).2 m 1 3 q matrix

/-- Two rows without entries and with one column: an accepted partition whose second diagonal value
has no place in vectors of one number. -/
theorem multiplyAdd_runs_past_vector :
    let lower : Partition Int32 := ⟨0, 1, 0, [[], []], 0⟩
    let p : SymmetricPartition Int32 := ⟨lower, [1, 2]⟩
    Partition.ofRows 0 1 lower.rows = .ok lower ∧ SymmetricPartition.make lower [1, 2] = .ok p ∧
      ((p.encode {} allocationLimit).1.map fun m => (m.multiplyAdd #[1] #[10]).2)
        = .ok (some .outOfBounds) := by
  refine ⟨rfl, rfl, ?_⟩
  decide +kernel

end SparseStream
