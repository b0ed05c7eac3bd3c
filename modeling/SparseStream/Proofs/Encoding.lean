import SparseStream.Proofs.CsrRows
import SparseStream.Proofs.Operations

/-! Encoding a partition as a run of operations. A sound partition is encoded into its layout, or
refused with the first refusal of its layout; the checks after the run never fail. -/
namespace SparseStream

namespace Operation

/-- The operation that takes a row of a partition. -/
def ofRow (symmetric : Bool) (rowStart : Nat) (row : List (Element α)) : Operation α :=
  if row.isEmpty then skip
  else if symmetric then symmetricRow row rowStart
  else .row row

@[simp] theorem elements_ofRow (symmetric : Bool) (rowStart : Nat) (row : List (Element α)) :
    (ofRow symmetric rowStart row).elements = row := by
  unfold ofRow
  cases row with
  | nil => rfl
  | cons x row => cases symmetric <;> rfl

theorem run_ofRow (e : Encoder α) (symmetric : Bool) (rowStart : Nat) (row : List (Element α)) :
    (ofRow symmetric rowStart row).run e = e.take symmetric rowStart row := by
  unfold ofRow Encoder.take
  cases row with
  | nil => rfl
  | cons x row => cases symmetric <;> rfl

theorem proper_ofRow {symmetric : Bool} {rowStart : Nat} {row : List (Element α)}
    (ordered : (row.map Element.col).Pairwise (· < ·)) : (ofRow symmetric rowStart row).Proper := by
  have behind : ∀ x ∈ row.dropWhile (·.col < rowStart), rowStart ≤ x.col := by
    induction row with
    | nil => simp
    | cons x row ih =>
      rw [List.map_cons, List.pairwise_cons] at ordered
      by_cases early : x.col < rowStart
      · simpa [early] using ih ordered.2
      · have late : rowStart ≤ x.col := Nat.le_of_not_lt early
        rw [List.dropWhile_cons_of_neg (by simpa using late), List.forall_mem_cons]
        refine ⟨late, fun y member => Nat.le_trans late (Nat.le_of_lt ?_)⟩
        exact ordered.1 y.col (List.mem_map_of_mem member)
  unfold ofRow
  cases row with
  | nil => trivial
  | cons x row =>
    cases symmetric with
    | false => exact List.cons_ne_nil _ _
    | true => exact ⟨List.cons_ne_nil _ _, behind⟩

end Operation

namespace Partition

def operations (symmetric : Bool) (p : Partition α) : List (Operation α) :=
  p.rows.map (Operation.ofRow symmetric p.rowStart)

/-- The layout of a partition. -/
def layout (symmetric : Bool) (p : Partition α) : List Placed :=
  Operation.layout 0 (p.operations symmetric)

/-- Each piece of the layout of a partition is cut from its row. -/
theorem cutFrom_of_mem_layout {symmetric : Bool} {p : Partition α} {x : Placed}
    (member : x ∈ p.layout symmetric) :
    ∃ row, p.rows[x.row]? = some row ∧ x.row < p.nRows ∧ Piece.CutFrom row x.piece := by
  obtain ⟨⟨op, i⟩, inOps, inPieces⟩ := List.mem_flatMap.mp member
  obtain ⟨piece, inOp, rfl⟩ := List.mem_map.mp inPieces
  have found := List.mem_zipIdx_iff_getElem?.mp inOps
  rw [operations, List.getElem?_map, Option.map_eq_some_iff] at found
  obtain ⟨row, found, rfl⟩ := found
  have cut := Operation.cutFrom_of_mem_pieces inOp
  rw [Operation.elements_ofRow] at cut
  have place := (List.getElem?_eq_some_iff.mp found).1
  exact ⟨row, found, Nat.lt_of_lt_of_le place (Nat.le_add_right _ _), cut⟩

theorem run_eq_runAll (mode : ColumnMode) (symmetric : Bool) (reserved : Nat) (p : Partition α) :
    Encoder.run mode symmetric reserved p
      = Operation.runAll { mode := mode, buffer := { reserved := reserved } }
        (p.operations symmetric) := by
  simp only [Encoder.run, Operation.runAll, operations, List.foldlM_map]
  congr
  funext e row
  exact (Operation.run_ofRow e symmetric p.rowStart row).symm

theorem run_outcome {p : Partition α} (sound : p.Sound) (mode : ColumnMode) (symmetric : Bool)
    (reserved : Nat) :
    Encoder.Outcome mode [] (p.layout symmetric)
      (Encoder.Rests mode (p.layout symmetric) p.rows.length
        (p.rows.flatten.flatMap Element.values))
      (Encoder.run mode symmetric reserved p) := by
  have proper : ∀ op ∈ p.operations symmetric, op.Proper := by
    intro op member
    obtain ⟨row, inRows, rfl⟩ := List.mem_map.mp member
    exact Operation.proper_ofRow (sound.ordered row inRows)
  have counted : ∀ op ∈ p.operations symmetric, ∀ x ∈ op.elements, x.Counted := by
    intro op member x inRow
    obtain ⟨row, inRows, rfl⟩ := List.mem_map.mp member
    rw [Operation.elements_ofRow] at inRow
    exact sound.counted x (List.mem_flatten_of_mem inRows inRow)
  have elements : (p.operations symmetric).flatMap Operation.elements = p.rows.flatten := by
    simp [operations, List.flatMap_map, List.flatMap_id']
  have outcome := Operation.runAll_outcome proper counted (Encoder.rests_new mode reserved #[])
  rw [elements, Nat.zero_add, List.nil_append, List.nil_append] at outcome
  have length : (p.operations symmetric).length = p.rows.length := List.length_map ..
  rw [length] at outcome
  rw [run_eq_runAll]
  exact outcome

end Partition

namespace Tracked

theorem fst_bind (x : Tracked β) (f : β → Tracked γ) :
    (x >>= f).1 = x.1 >>= fun b => (f b).1 := by
  rcases x with ⟨_ | b, progress⟩ <;> rfl

end Tracked

namespace Partition

/-- Bytes set aside for the stream of a partition. -/
def reserved (s : Settings) (p : Partition α) : Nat :=
  max (min (p.count * s.factor) (wordLimit - 1)) minReserve

/-- Both requests for memory are met: the one for the stream and the one for the values. -/
structure HasRoom [Stored α] (s : Settings) (limit : Nat) (p : Partition α) : Prop where
  stream : (Tracked.allocate limit (p.reserved s) 1).1 = .ok ()
  values : (Tracked.allocate limit p.count (Stored.bytes α)).1 = .ok ()

theorem length_values {elems : List (Element α)} (counted : ∀ x ∈ elems, x.Counted) :
    (elems.flatMap Element.values).length = total (elems.map Element.count) := by
  induction elems with
  | nil => rfl
  | cons x elems ih =>
    rw [List.forall_mem_cons] at counted
    rw [List.flatMap_cons, List.length_append, ih counted.2, counted.1, List.map_cons, total_cons]

/-- After its requests for memory, encoding a sound partition is a run of the encoder. -/
theorem fst_encodeWith [Stored α] {p : Partition α} (sound : p.Sound) (s : Settings) (limit : Nat)
    (symmetric : Bool) :
    (p.encodeWith s limit symmetric).1 = (do
      (Tracked.allocate limit (p.reserved s) 1).1
      (Tracked.allocate limit p.count (Stored.bytes α)).1
      match Encoder.run s.mode symmetric (p.reserved s) p with
      | .error stopped => .error (.error stopped.error)
      | .ok e => .ok (e.encoded p)) := by
  have outcome := run_outcome sound s.mode symmetric (p.reserved s)
  unfold encodeWith
  simp only [Tracked.fst_bind]
  cases ran : Encoder.run s.mode symmetric (p.reserved s) p with
  | error stopped =>
    simp only [reserved] at ran
    simp only [ran, Tracked.fst_bind, Tracked.note, Tracked.fail]
    rfl
  | ok e =>
    rw [ran] at outcome
    have count : e.values.size = p.count := by
      have taken := congrArg List.length outcome.2.taken
      rwa [Array.length_toList, length_values sound.counted, sound.count] at taken
    simp only [reserved] at ran
    simp only [ran, Tracked.fst_bind, Tracked.note, sound.readable, count]
    rw [if_neg (not_not_intro rfl), if_neg (not_not_intro rfl)]
    split <;> rfl

/-- Encoding that succeeded found room and ran the encoder over all rows. -/
theorem exists_run_of_encodeWith [Stored α] {s : Settings} {limit : Nat} {symmetric : Bool}
    {p : Partition α} {m : Encoded α} (sound : p.Sound)
    (encoded : (p.encodeWith s limit symmetric).1 = .ok m) :
    p.HasRoom s limit ∧
      ∃ e, Encoder.run s.mode symmetric (p.reserved s) p = .ok e ∧ m = e.encoded p := by
  rw [fst_encodeWith sound] at encoded
  simp only [bind_eq_ok] at encoded
  obtain ⟨_, stream, _, values, ran⟩ := encoded
  refine ⟨⟨stream, values⟩, ?_⟩
  split at ran
  · contradiction
  · next e found =>
    cases ran
    exact ⟨e, found, rfl⟩

end Partition

namespace SymmetricPartition

variable [Stored α] {s : Settings} {limit : Nat} {p : SymmetricPartition α}

/-- Once there is room for the diagonal, the lower triangle is encoded. -/
theorem fst_encode_eq_map (s : Settings) (limit : Nat) (p : SymmetricPartition α) :
    (p.encode s limit).1 = (Tracked.allocate limit p.diagonal.length (Stored.bytes α)).1 >>= fun _ =>
      (p.lower.encodeWith s limit true).1.map (EncodedSymmetric.mk p.diagonal.toArray) := by
  simp only [encode, Tracked.fst_bind]
  rfl

theorem exists_below_of_encode {m : EncodedSymmetric α} (encoded : (p.encode s limit).1 = .ok m) :
    ∃ lower, (p.lower.encodeWith s limit true).1 = .ok lower ∧ m = ⟨p.diagonal.toArray, lower⟩ := by
  simp only [encode, Tracked.fst_bind, bind_eq_ok] at encoded
  obtain ⟨_, -, lower, below, done⟩ := encoded
  cases done
  exact ⟨lower, below, rfl⟩

end SymmetricPartition
end SparseStream
