import SparseStream.Proofs.RoundTrip

/-! What an encoded partition consists of. Its stream, its table and its values are those of the
layout of the partition, whatever the encoder went through to write them. -/
namespace SparseStream

/-- The parts of an encoded partition, worked out from its layout. -/
structure Encoded.Holds (m : Encoded α) (mode : ColumnMode) (symmetric : Bool) (p : Partition α) :
    Prop where
  accepted : Layout.firstRefusal? mode [] (p.layout symmetric) = none
  sameMode : m.mode = mode
  ctl : m.ctl.toList = Layout.bytes mode (p.layout symmetric)
  table : m.table = Layout.table (p.layout symmetric)
  values : m.values.toList = p.rows.flatten.flatMap Element.values
  count : m.count = p.count
  few : (Layout.kinds (p.layout symmetric)).length ≤ Header.maxFlag

theorem Encoded.Holds.size_values {m : Encoded α} {mode : ColumnMode} {symmetric : Bool}
    {p : Partition α} (sound : p.Sound) (holds : m.Holds mode symmetric p) :
    m.values.size = p.count := by
  rw [← Array.length_toList, holds.values, Partition.length_values sound.counted, sound.count]

namespace Partition

variable [Stored α] {s : Settings} {limit : Nat} {symmetric : Bool} {p : Partition α}
  {m : Encoded α}

theorem holds_of_encodeWith (sound : p.Sound)
    (encoded : (p.encodeWith s limit symmetric).1 = .ok m) : m.Holds s.mode symmetric p := by
  obtain ⟨-, e, ran, rfl⟩ := exists_run_of_encodeWith sound encoded
  have outcome := run_outcome sound s.mode symmetric (p.reserved s)
  rw [ran] at outcome
  obtain ⟨accepted, rests⟩ := outcome
  exact
    { accepted
      sameMode := rests.sameMode
      ctl := rests.stream
      table := congrArg Registry.table rests.registry
      values := rests.taken
      count := rfl
      few := rests.few }

/-- An encoded partition is read back as the units of its layout. -/
theorem units_of_encodeWith (sound : p.Sound) (rows : p.nRows < wordLimit)
    (encoded : (p.encodeWith s limit symmetric).1 = .ok m) :
    m.units = (Layout.units s.mode (p.layout symmetric), none) := by
  obtain ⟨-, e, ran, rfl⟩ := exists_run_of_encodeWith sound encoded
  exact units_encoded sound rows ran

end Partition
end SparseStream
