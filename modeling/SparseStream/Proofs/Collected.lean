import SparseStream.Proofs.CellSums
import SparseStream.Proofs.CsrParts

/-! What is assumed of a library that builds compressed matrices, and that the plain one keeps to
it. From the assumptions follows which matrix is built of entries on distinct cells, whether they are
handed over as one list or read part by part. -/
namespace SparseStream.MatrixLibrary

variable {lib : MatrixLibrary α} {n k : Nat} {ts us : List (Triplet α)}

/-- Triplets inside of a shape are collected, sorted by row and column, and summed where they have
the same cell. Nothing is said of the order in which such triplets come to stand. -/
def Sums [Add α] (lib : MatrixLibrary α) : Prop :=
  ∀ (nRows nCols : Nat) (ts : List (Triplet α)), nCols < wordLimit →
    reserve (nRows + 1) wordBytes = .ok () → (∀ t ∈ ts, Csr.InShape nRows nCols t.1) →
    ∃ (us : List (Triplet α)) (m : Csr α), us.Perm ts ∧ m.Gathers nRows nCols us ∧
      lib.ofTriplets nRows nCols ts = .ok m.compressed

/-- The arrays of an accepted matrix are kept, unless its places need all 64 bits. -/
def Keeps (lib : MatrixLibrary α) : Prop :=
  ∀ m : Csr α, m.Accepted → m.cols.size < signedLimit → lib.adopt m = .ok m.compressed

/-- Entries on distinct cells inside of the shape are put together to the matrix that has them. -/
theorem Sums.ofTriplets_eq [Add α] (sums : lib.Sums) (perm : ts.Perm us) (ordered : InOrder us)
    (inside : ∀ t ∈ us, Csr.InShape n k t.1) (word : k < wordLimit)
    (room : reserve (n + 1) wordBytes = .ok ()) :
    lib.ofTriplets n k ts = .ok (Csr.ofEntries n k us).compressed := by
  obtain ⟨vs, m, shuffled, gathers, built⟩ :=
    sums n k ts word room fun t member => inside t (perm.subset member)
  have gathered : gather vs = us := gather_of_perm (shuffled.trans perm) ordered
  have entries : m.entries = us := by
    refine gathers.ordered.eq_of_mem_iff ordered fun ⟨c, v⟩ => ?_
    rw [gathers.sums, ← (summed_gather vs).2, gathered]
  have same := Csr.ofEntries_entries gathers.sound gathers.start gathers.stop
  rw [entries, gathers.nRows, gathers.nCols] at same
  rw [same, built]

/-- Reading part by part is the same as handing over what all parts hold. -/
theorem assemble_eq {read : β → Except Failure (List (Triplet α))} {parts : List β}
    {tss : List (List (Triplet α))} (all : parts.mapM read = .ok tss) :
    lib.assemble n k read parts = lib.ofTriplets n k tss.flatten := by
  rw [assemble, ofTriplets]
  generalize lib.start n k = collected
  refine congrArg (· >>= lib.compress) ?_
  induction mapM_eq_ok_iff.mp all generalizing collected with
  | nil => rfl
  | @cons p ts parts tss here each ih =>
    have next := fun c => ih (mapM_eq_ok_iff.mpr each) c
    rw [List.foldlM_cons, here, List.flatten_cons, List.foldlM_append]
    exact congrArg _ (funext next)

/-- Parts may be put together in any order. -/
theorem Sums.assemble_eq_of_perm [Add α] {read : β → Except Failure (List (Triplet α))}
    {parts shuffled : List β} {tss : List (List (Triplet α))} (sums : lib.Sums)
    (perm : shuffled.Perm parts) (all : parts.mapM read = .ok tss) (same : tss.flatten.Perm us)
    (ordered : InOrder us) (inside : ∀ t ∈ us, Csr.InShape n k t.1) (word : k < wordLimit)
    (room : reserve (n + 1) wordBytes = .ok ()) :
    lib.assemble n k read shuffled = .ok (Csr.ofEntries n k us).compressed := by
  obtain ⟨tss', found, permuted⟩ := mapM_perm perm all
  rw [assemble_eq found]
  exact sums.ofTriplets_eq (permuted.flatten.trans same) ordered inside word room

theorem foldlM_add {c : Collected α} (inside : ∀ t ∈ ts, Csr.InShape c.nRows c.nCols t.1) :
    ts.foldlM Collected.add c = .ok { c with triplets := c.triplets ++ ts.toArray } := by
  induction ts generalizing c with
  | nil => simp [pure, Except.pure]
  | cons t ts ih =>
    obtain ⟨here, later⟩ := List.forall_mem_cons.mp inside
    have added : c.add t = .ok { c with triplets := c.triplets.push t } := by
      rw [Collected.add, if_neg]
      simp [here.1, here.2]
    have rest := @ih { c with triplets := c.triplets.push t } later
    have regroup : c.triplets.push t ++ ts.toArray = c.triplets ++ (t :: ts).toArray := by simp
    rw [regroup] at rest
    rw [List.foldlM_cons]
    exact bind_eq_ok.mpr ⟨_, added, rest⟩

/-- The plain library sums what it collected as pivots arrange it. -/
theorem sums_plain [Add α] : (plain : MatrixLibrary α).Sums := by
  intro nRows nCols ts _ room inside
  have sorted : (arrange ts).Perm ts := PivotSort.sort_perm _ ts
  have within : ∀ t ∈ arrange ts, Csr.InShape nRows nCols t.1 := fun t member =>
    inside t (sorted.subset member)
  refine ⟨arrange ts, Csr.ofEntries nRows nCols (gather (arrange ts)), sorted,
    Csr.gathers_ofEntries within, ?_⟩
  have collected := @foldlM_add _ ts { nRows, nCols } inside
  have arrays := @Csr.ofEntries_eq _ nRows nCols _ (summed_gather (arrange ts)).1 fun t member =>
    (Csr.inShape_of_mem_gather within t member).1
  rw [Array.empty_append] at collected
  refine bind_eq_ok.mpr ⟨_, collected, ?_⟩
  rw [arrays]
  exact bind_eq_ok.mpr ⟨(), room, rfl⟩

theorem keeps_plain [Add α] : (plain : MatrixLibrary α).Keeps := fun _ accepted small =>
  if_pos (Compressed.wellFormed_compressed accepted.made small)

end SparseStream.MatrixLibrary
