import SparseStream.Encoded
import SparseStream.Memory
import SparseStream.Partition

/-!
Encoding whole partitions. Memory is asked for first: the stream gets a generous estimate, the
values exactly what they need. Whatever the outcome, the requests and events up to it are kept. What
the encoder asks for while it runs is met; had some of it been refused, the run would have come to
the same stream or to no stream.
-/
namespace SparseStream

structure Settings where
  mode : ColumnMode := .jump
  /-- Bytes of a stream to set aside for each entry. -/
  factor : Nat := 6
  threads : Nat := 1
  symmetric : Bool := false
  deriving DecidableEq, Repr

/-- The stream of a small partition still gets this many bytes. -/
def minReserve : Nat := 512

/-- What encoding did before it ended. -/
structure Progress where
  requests : List Nat := []
  events : List Event := []

instance : Append Progress := ⟨fun a b => ⟨a.requests ++ b.requests, a.events ++ b.events⟩⟩

/-- A computation that keeps its progress when it fails. -/
abbrev Tracked (α : Type) := Except Failure α × Progress

namespace Tracked

def andThen (x : Tracked α) (f : α → Tracked β) : Tracked β :=
  match x with
  | (.error failure, p) => (.error failure, p)
  | (.ok a, p) =>
    let (result, q) := f a
    (result, p ++ q)

instance : Monad Tracked where
  pure a := (.ok a, {})
  bind := andThen

def fail (failure : Failure) : Tracked α := (.error failure, {})

def note (events : List Event) : Tracked Unit := (.ok (), ⟨[], events⟩)

/-- Asks for room for `n` items of a size. -/
def allocate (limit n size : Nat) : Tracked Unit :=
  let bytes := min (n * size) (wordLimit - 1)
  let result :=
    if min limit allocationLimit < bytes then .error (.error (.allocation bytes)) else .ok ()
  (result, ⟨[bytes], []⟩)

end Tracked

namespace Encoder

/-- Takes a row of a partition. -/
def take (symmetric : Bool) (rowStart : Nat) (e : Encoder α) (row : List (Element α)) :
    Except (Stopped α) (Encoder α) :=
  if row.isEmpty then .ok e.skipRow
  else if symmetric then e.putSymmetricRow row rowStart
  else e.putRow row

/-- Encodes the rows of a partition from a new encoder on, whose requests are met. -/
def run (mode : ColumnMode) (symmetric : Bool) (reserved : Nat) (p : Partition α) :
    Except (Stopped α) (Encoder α) :=
  p.rows.foldlM (take symmetric p.rowStart) { mode := mode, buffer := { reserved := reserved } }

/-- What an encoder made of a partition. -/
def encoded (e : Encoder α) (p : Partition α) : Encoded α :=
  { ctl := e.buffer.bytes
    values := e.values
    count := p.count
    nRows := p.nRows
    nCols := p.nCols
    rowStart := p.rowStart
    mode := e.mode
    table := e.registry.table }

end Encoder

/-- The report on an encoded partition. -/
def Encoded.event [Stored α] (m : Encoded α) : Event :=
  .encoded m.rowStart (m.rowStart + m.nRows) m.count m.ctl.size m.table.entries.length m.bytes
    m.plainBytes

namespace Partition

def encodeWith [Stored α] (s : Settings) (limit : Nat) (symmetric : Bool) (p : Partition α) :
    Tracked (Encoded α) := do
  let reserved := max (min (p.count * s.factor) (wordLimit - 1)) minReserve
  Tracked.allocate limit reserved 1
  Tracked.allocate limit p.count (Stored.bytes α)
  match Encoder.run s.mode symmetric reserved p with
  | .error stopped => do
    Tracked.note stopped.left.events.toList
    Tracked.fail (.error stopped.error)
  | .ok e => do
    Tracked.note e.events.toList
    if p.unreadable ≠ 0 then Tracked.fail .outOfBounds
    else if e.values.size ≠ p.count then
      Tracked.fail (.error (.valueCount p.count e.values.size))
    else do
      if e.buffer.outgrown then
        Tracked.note [.outgrown p.rowStart reserved e.buffer.size]
      let m := e.encoded p
      Tracked.note [m.event, .table m.table]
      return m

/-- Encodes a partition; no request for memory beyond `limit` bytes is met. -/
def encode [Stored α] (s : Settings) (limit : Nat) (p : Partition α) : Tracked (Encoded α) :=
  p.encodeWith s limit false

end Partition

/-- Encodes the lower triangle, after setting the diagonal aside. -/
def SymmetricPartition.encode [Stored α] (s : Settings) (limit : Nat) (p : SymmetricPartition α) :
    Tracked (EncodedSymmetric α) := do
  Tracked.allocate limit p.diagonal.length (Stored.bytes α)
  let lower ← p.lower.encodeWith s limit true
  return ⟨p.diagonal.toArray, lower⟩

end SparseStream
