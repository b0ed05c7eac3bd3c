import Mathlib.Control.Monad.Basic
import SparseStream.Document
import SparseStream.Proofs.AnyStream
import SparseStream.Proofs.Numbers

/-! Tables from elsewhere. Reading a document checks the width of each number and nothing more, so a
table may hold any flags and any shapes. Whatever stream comes with it, the numbers of its units
stay within the machine's, and the one thing that ends a reader without an answer is a block with a
dimension of zero. -/
namespace SparseStream

/-- A block dimension takes one byte. -/
def Order.Narrow (o : Order) : Prop := ∀ d ∈ o.blockDim?, d < byteLimit 1

/-- Strides and other dimensions take four bytes. -/
def Shape.Narrow : Shape → Prop
  | .simple o n | .block o n => o.Narrow ∧ n < strideLimit

def Kind.Narrow : Kind → Prop
  | .run _ => True
  | .pattern s => s.Narrow

structure KindEntry.Narrow (e : KindEntry) : Prop where
  kind : e.kind.Narrow
  flag : e.flag < byteLimit 1
  units : e.units < wordLimit
  elements : e.elements < wordLimit

/-- Each number of a table fits its field. -/
def KindTable.Narrow (t : KindTable) : Prop := ∀ e ∈ t.entries, e.Narrow

namespace Json

theorem lt_of_natBelow? {limit n : Nat} {j : Json} (read : j.natBelow? limit = some n) :
    n < limit := by
  unfold natBelow? at read
  split at read
  · split at read
    · cases read
      assumption
    · contradiction
  · contradiction

theorem exists_mem_of_name? {names : List (String × α)} {j : Json} {a : α}
    (read : j.name? names = some a) : ∃ s, (s, a) ∈ names := by
  simp only [name?, Option.bind_eq_bind, Option.bind_eq_some_iff] at read
  obtain ⟨⟨name, payload⟩, -, read⟩ := read
  simp only at read
  split at read
  · obtain ⟨entry, found, rfl⟩ := Option.map_eq_some_iff.mp read
    exact ⟨entry.1, List.mem_of_find?_eq_some found⟩
  · obtain ⟨entry, found, rfl⟩ := Option.map_eq_some_iff.mp read
    exact ⟨entry.1, List.mem_of_find?_eq_some found⟩
  · contradiction

end Json

theorem Order.narrow_of_ofJson? {j : Json} {o : Order} (read : ofJson? j = some o) : o.Narrow := by
  have named : j.name? names = some o → o.Narrow := by
    intro read
    obtain ⟨s, member⟩ := Json.exists_mem_of_name? read
    simp only [names, List.mem_cons, Prod.mk.injEq, List.not_mem_nil, or_false] at member
    -- a bare name carries no dimension
    rcases member with ⟨-, rfl⟩ | ⟨-, rfl⟩ | ⟨-, rfl⟩ | ⟨-, rfl⟩ <;> simp [Narrow, blockDim?]
  unfold ofJson? at read
  split at read
  · next name v _ =>
    split at read
    · obtain ⟨r, below, rfl⟩ := Option.map_eq_some_iff.mp read
      simpa [Narrow, blockDim?] using Json.lt_of_natBelow? below
    split at read
    · obtain ⟨c, below, rfl⟩ := Option.map_eq_some_iff.mp read
      simpa [Narrow, blockDim?] using Json.lt_of_natBelow? below
    · exact named read
  · exact named read

theorem Shape.narrow_of_partsOfJson? {name : String} {j : Json} {o : Order} {n : Nat}
    (read : partsOfJson? name j = some (o, n)) : o.Narrow ∧ n < strideLimit := by
  simp only [partsOfJson?, Option.bind_eq_bind, Option.bind_eq_some_iff] at read
  obtain ⟨fields, -, read⟩ := read
  split at read
  · simp only [Option.bind_eq_some_iff] at read
    obtain ⟨order, named, n, below, done⟩ := read
    cases done
    exact ⟨Order.narrow_of_ofJson? named, Json.lt_of_natBelow? below⟩
  · contradiction

theorem Shape.narrow_of_ofJson? {j : Json} {s : Shape} (read : ofJson? j = some s) : s.Narrow := by
  simp only [ofJson?, Option.bind_eq_bind, Option.bind_eq_some_iff] at read
  obtain ⟨choice, -, read⟩ := read
  split at read
  · split at read
    · obtain ⟨⟨order, stride⟩, parts, rfl⟩ := Option.map_eq_some_iff.mp read
      exact narrow_of_partsOfJson? parts
    split at read
    · obtain ⟨⟨order, dim⟩, parts, rfl⟩ := Option.map_eq_some_iff.mp read
      exact narrow_of_partsOfJson? parts
    · contradiction
  · contradiction

theorem Kind.narrow_of_ofJson? {j : Json} {k : Kind} (read : ofJson? j = some k) : k.Narrow := by
  simp only [ofJson?, Option.bind_eq_bind, Option.bind_eq_some_iff] at read
  obtain ⟨choice, -, read⟩ := read
  split at read
  · split at read
    · obtain ⟨w, -, rfl⟩ := Option.map_eq_some_iff.mp read
      trivial
    split at read
    · obtain ⟨s, shape, rfl⟩ := Option.map_eq_some_iff.mp read
      exact Shape.narrow_of_ofJson? shape
    · contradiction
  · contradiction

theorem KindEntry.narrow_of_statsOfJson? {j : Json} {flag units elements : Nat}
    (read : statsOfJson? j = some (flag, units, elements)) :
    flag < byteLimit 1 ∧ units < wordLimit ∧ elements < wordLimit := by
  simp only [statsOfJson?, Option.bind_eq_bind, Option.bind_eq_some_iff] at read
  obtain ⟨fields, -, read⟩ := read
  split at read
  · simp only [Option.bind_eq_some_iff] at read
    obtain ⟨flag, byte, units, word, elements, word', done⟩ := read
    cases done
    exact ⟨Json.lt_of_natBelow? byte, Json.lt_of_natBelow? word, Json.lt_of_natBelow? word'⟩
  · contradiction

theorem KindEntry.narrow_of_ofJson? {j : Json} {e : KindEntry} (read : ofJson? j = some e) :
    e.Narrow := by
  simp only [ofJson?, Option.bind_eq_bind, Option.bind_eq_some_iff] at read
  obtain ⟨fields, -, read⟩ := read
  split at read
  · simp only [Option.bind_eq_some_iff] at read
    obtain ⟨kind, shaped, ⟨flag, units, elements⟩, counted, done⟩ := read
    cases done
    obtain ⟨byte, word, word'⟩ := narrow_of_statsOfJson? counted
    exact ⟨Kind.narrow_of_ofJson? shaped, byte, word, word'⟩
  · contradiction

theorem KindTable.narrow_of_ofJson? {j : Json} {t : KindTable} (read : ofJson? j = some t) :
    t.Narrow := by
  simp only [ofJson?, Option.bind_eq_bind, Option.bind_eq_some_iff] at read
  obtain ⟨fields, -, read⟩ := read
  split at read
  · simp only [KindEntry.listOfJson?, Option.bind_eq_bind, Option.bind_eq_some_iff] at read
    obtain ⟨entries, ⟨items, -, all⟩, done⟩ := read
    cases done
    intro e member
    have found : some e ∈ items.map KindEntry.ofJson? :=
      mapM_eq_some_iff.mp all ▸ List.mem_map_of_mem member
    obtain ⟨item, -, made⟩ := List.mem_map.mp found
    exact KindEntry.narrow_of_ofJson? made
  · contradiction

/-- The steps of a unit along a line never leave the signed words. -/
theorem Shape.Narrow.step_lt {order : Order} {stride i : Nat} (narrow : (simple order stride).Narrow)
    (inside : i ≤ Header.maxSize) : i * stride < signedLimit := by
  have bound : i * stride ≤ Header.maxSize * strideLimit :=
    Nat.mul_le_mul inside (Nat.le_of_lt narrow.2)
  exact Nat.lt_of_le_of_lt bound (by decide)

/-- What a reader makes of a table from a document and of any bytes. Steps along lines, numbers
taken from the bytes, and rows, columns and sizes of units stay within the machine's numbers. The
cells of a unit are as many as its size and lie in range, or an error says that its pattern leaves
the range. Only for a block with a dimension of zero there is neither. -/
theorem units_of_foreign_table {j : Json} {table : KindTable}
    (read : KindTable.ofJson? j = some table) (mode : ColumnMode) (bytes : List UInt8) :
    (∀ e ∈ table.entries, ∀ order stride, e.kind = .pattern (.simple order stride) →
      ∀ i ≤ Header.maxSize, i * stride < signedLimit) ∧
    (∀ stream n groups rest, Varint.decode stream = .ok (n, groups, rest) →
      n < wordLimit ∧ groups ≤ Varint.maxLength) ∧
    ∀ u ∈ (units table mode bytes).1,
      u.InWords ∧ u.CellsOutcome ∧ ∃ e ∈ table.entries, e.kind = u.kind := by
  have narrow := KindTable.narrow_of_ofJson? read
  refine ⟨?_, fun _ _ _ _ => Varint.lt_wordLimit_of_decode, ?_⟩
  · intro e member order stride line i inside
    have kind := (narrow e member).kind
    rw [line] at kind
    exact Shape.Narrow.step_lt kind inside
  · intro u member
    obtain ⟨words, known⟩ := inWords_of_mem_units member
    obtain ⟨e, inTable, -, kind⟩ := KindTable.mem_of_kind? known
    exact ⟨words, words.cellsOutcome, e, inTable, kind⟩

/-- An antidiagonal of two steps that starts in the first column is told apart, whatever the count of
units that its entry claims. -/
theorem units_of_antidiagonal_table :
    let shape : Shape := .simple .antiDiagonal 1
    let table : KindTable := ⟨[⟨.pattern shape, 1, 0, 7⟩]⟩
    KindTable.ofJson? table.toJson = some table ∧
      ∀ u ∈ (units table .full [1, 2, 0, 0, 0, 0]).1, u.InWords ∧ u.cells ≠ .error .outOfBounds := by
  intro shape table
  have read : KindTable.ofJson? table.toJson = some table := by decide +kernel
  refine ⟨read, ?_⟩
  intro u member
  obtain ⟨-, -, each⟩ := units_of_foreign_table read .full [1, 2, 0, 0, 0, 0]
  obtain ⟨words, outcome, e, inTable, kind⟩ := each u member
  refine ⟨words, fun panicked => ?_⟩
  obtain rfl := List.mem_singleton.mp inTable
  obtain ⟨other, same, d, empty⟩ := outcome.outOfBounds_iff.mp panicked
  rw [← kind, Kind.pattern.injEq] at same
  subst same
  rcases empty with empty | empty <;> contradiction

/-- A document with a block of no rows is read as a table, and the cells of a unit of this block are
a division by zero. -/
theorem units_of_empty_block_table :
    let table : KindTable := ⟨[⟨.pattern (.block (.blockRow 0) 1), 1, 1, 1⟩]⟩
    KindTable.ofJson? table.toJson = some table ∧
      (units table .jump [1, 1, 0]).1.map StreamUnit.cells = [.error .outOfBounds] := by
  intro table
  exact ⟨by decide +kernel, by decide +kernel⟩

end SparseStream
