import SparseStream.Proofs.Encoding

/-! The round trip of a partition. The cells of the units of a layout are the cells of the elements
that it was cut from, so walking an encoded partition gives its entries back in order. -/
namespace SparseStream

/-- The entries of an element of some row: its cells, each with its value. -/
def Element.entries? (row : Nat) (x : Element α) : Option (List (Cell × α)) :=
  (x.cells? row).map (·.zip x.values)

namespace Partition

/-- The elements of all rows in order, each with its row. -/
def numbered (p : Partition α) : List (Nat × Element α) :=
  p.rows.zipIdx.flatMap fun (row, i) => row.map (i, ·)

/-- The entries of a partition by their place in the whole matrix: row by row, element by element,
cell by cell. -/
def entries? (p : Partition α) : Option (List (Cell × α)) := do
  let parts ← p.numbered.mapM fun (i, x) => x.entries? i
  return parts.flatten.map fun ((r, c), v) => ((p.rowStart + r, c), v)

end Partition

namespace Piece

/-- The cells of a piece of some row. -/
def cells (row : Nat) : Piece → List Cell
  | run cols => cols.map (row, ·)
  | pattern col p => (p.cells? row col).getD []

theorem flatMap_cells_runs (row : Nat) (cols : List Nat) :
    (runs cols).flatMap (cells row) = cols.map (row, ·) := by
  induction cols using stretch_induction with
  | nil => rfl
  | short cols nonempty fits => simp [runs_of_short nonempty fits, cells]
  | long full held length nonempty ih =>
    rw [runs_append length nonempty, List.flatMap_cons, ih, cells, List.map_append]

/-- The cells of the pieces of a row are those of its elements, behind the columns held so far. -/
theorem flatMap_cells_ofRowAfter (i : Nat) (held : List Nat) (row : List (Element α)) :
    (ofRowAfter held row).flatMap (cells i)
      = held.map (i, ·) ++ row.flatMap fun x => (x.cells? i).getD [] := by
  induction row generalizing held with
  | nil => simp [ofRowAfter, flatMap_cells_runs]
  | cons x row ih =>
    cases x with
    | plain col value => simp [ofRowAfter, ih, Element.cells?]
    | pattern col p values => simp [ofRowAfter, ih, flatMap_cells_runs, cells, Element.cells?]

theorem flatMap_cells_ofRow (i : Nat) (row : List (Element α)) :
    (ofRow row).flatMap (cells i) = row.flatMap fun x => (x.cells? i).getD [] := by
  simp [ofRow, flatMap_cells_ofRowAfter]

theorem flatMap_cells_ofSymmetricRow (i : Nat) (row : List (Element α)) (rowStart : Nat) :
    (ofSymmetricRow row rowStart).flatMap (cells i)
      = row.flatMap fun x => (x.cells? i).getD [] := by
  rw [ofSymmetricRow, List.flatMap_append, flatMap_cells_ofRow, flatMap_cells_ofRow,
    ← List.flatMap_append, List.takeWhile_append_dropWhile]

end Piece

theorem Partition.flatMap_cells_layout (symmetric : Bool) (p : Partition α) :
    (p.layout symmetric).flatMap (fun x => x.piece.cells x.row)
      = p.numbered.flatMap fun (i, x) => (x.cells? i).getD [] := by
  have each : ∀ (row : List (Element α)) (i : Nat),
      (Operation.ofRow symmetric p.rowStart row).pieces.flatMap (Piece.cells i)
        = row.flatMap fun x => (x.cells? i).getD [] := by
    intro row i
    unfold Operation.ofRow
    cases row with
    | nil => rfl
    | cons x row =>
      cases symmetric with
      | false => exact Piece.flatMap_cells_ofRow i _
      | true => exact Piece.flatMap_cells_ofSymmetricRow i _ _
  simp [layout, Operation.layout, operations, numbered, List.zipIdx_map, List.flatMap_map,
    List.flatMap_assoc, each]

namespace StreamUnit

/-- The columns of a run, recovered from its differences. -/
theorem runColumns_differences {offset first : Nat} {rest : List Nat}
    (ordered : (differences first rest).2 = none) (word : rest.getLastD first < wordLimit) :
    runColumns offset first (differences first rest).1 = .ok (first :: rest) := by
  induction rest generalizing first with
  | nil => rfl
  | cons col rest ih =>
    rw [differences] at ordered ⊢
    rw [List.getLastD_cons] at word
    have later := @ih col
    have reach := @differences_ordered col rest
    rcases found : differences col rest with ⟨steps, fault⟩
    rw [found] at ordered later reach
    cases fault with
    | some fault => simp at ordered
    | none =>
      by_cases decreases : col < first
      · simp [decreases] at ordered
      · have last := (reach rfl).2
        have next : first + (col - first) = col := by omega
        have step : advanceColumn offset first (col - first) = .ok col :=
          advanceColumn_eq_ok_iff.mpr ⟨by omega, next.symm⟩
        have tail : runColumns offset col steps = .ok (col :: rest) := later rfl word
        simp only [if_neg decreases, runColumns, step, bind, Except.bind, tail]
        rfl

/-- A cell of a pattern is the one that the pattern places, as long as its row is a word. -/
theorem patternCell_eq {u : StreamUnit} {p : Pattern} {i : Nat} {cell : Cell}
    (placed : p.cell? u.row u.col i = some cell) (word : cell.1 < wordLimit) :
    u.patternCell p.shape i = .ok cell := by
  obtain ⟨down, right, found, row, moved⟩ := Pattern.cell?_eq_some_iff.mp placed
  rw [row] at word
  simp only [patternCell, found, access, Option.elim_some, bind, Except.bind, moved, if_pos word]
  exact congrArg Except.ok (Prod.ext row.symm rfl)

theorem mapM_eq_ok {xs : List β} {ys : List γ} {f : β → Except ε γ} (each : xs.map f = ys.map .ok) :
    xs.mapM f = .ok ys := by
  induction xs generalizing ys with
  | nil =>
    cases ys with
    | nil => rfl
    | cons y ys => contradiction
  | cons x xs ih =>
    cases ys with
    | nil => contradiction
    | cons y ys =>
      rw [List.map_cons, List.map_cons, List.cons.injEq] at each
      rw [List.mapM_cons, each.1, ih each.2]
      rfl

end StreamUnit

/-- All cells of a piece exist, and their rows are words. -/
def Placed.Exists (x : Placed) : Prop :=
  match x.piece with
  | .run _ => True
  | .pattern col p =>
    ∃ cells, p.cells? x.row col = some cells ∧ ∀ cell ∈ cells, cell.1 < wordLimit

namespace Layout

theorem cells_unit (before : List Placed) (offset : Nat) {x : Placed} (sound : x.Sound)
    (ordered : x.piece.decrease? = none) (placed : x.Exists) :
    (unit before offset x).cells = .ok (x.piece.cells x.row) := by
  rcases x with ⟨row, cols | ⟨col, p⟩⟩
  · cases cols with
    | nil => exact absurd sound.covers (Nat.not_succ_le_zero 0)
    | cons first rest =>
      have deltas := (differences_ordered ordered).1
      have last : rest.getLastD first < wordLimit := List.getLastD_cons (a := 0) ▸ sound.last
      have columns : StreamUnit.runColumns offset first (Piece.run (first :: rest)).deltas
          = .ok (first :: rest) := by
        rw [Piece.deltas_run_cons, ← deltas]
        exact StreamUnit.runColumns_differences ordered last
      simp only [StreamUnit.cells, unit, Piece.kind, Piece.col, List.headD_cons, columns]
      rfl
  · obtain ⟨cells, found, words⟩ := placed
    let u := unit before offset ⟨row, .pattern col p⟩
    have same : ∀ i ∈ List.range p.size, u.patternCell p.shape i = access (p.cell? row col i) := by
      intro i member
      obtain ⟨cell, placed, inCells⟩ := Pattern.cell_of_cells? found (List.mem_range.mp member)
      rw [placed]
      exact StreamUnit.patternCell_eq (u := u) placed (words cell inCells)
    have every : (List.range p.size).map (p.cell? row col) = cells.map some :=
      mapM_eq_some_iff.mp ((p.cells?_eq row col).symm.trans found)
    have each : (List.range p.size).map (u.patternCell p.shape) = cells.map .ok :=
      calc (List.range p.size).map (u.patternCell p.shape)
          = (List.range p.size).map fun i => access (p.cell? row col i) := List.map_congr_left same
        _ = ((List.range p.size).map (p.cell? row col)).map access := by
          rw [List.map_map]
          rfl
        _ = cells.map .ok := by
          rw [every, List.map_map]
          rfl
    have all : Piece.cells row (.pattern col p) = cells := by rw [Piece.cells, found]; rfl
    exact (StreamUnit.mapM_eq_ok each).trans (congrArg _ all.symm)

theorem length_cells {x : Placed} (placed : x.Exists) :
    (x.piece.cells x.row).length = x.piece.size := by
  rcases x with ⟨row, cols | ⟨col, p⟩⟩
  · exact List.length_map ..
  · obtain ⟨cells, found, -⟩ := placed
    have length := Element.length_of_cells? (x := .pattern col p ([] : List Unit)) found
    rw [Piece.cells, found]
    exact length

end Layout

theorem zip_take (xs : List β) (ys : List γ) : xs.zip (ys.take xs.length) = xs.zip ys := by
  induction xs generalizing ys with
  | nil => simp
  | cons x xs ih => cases ys <;> simp [ih]

theorem append_zip (xs xs' : List β) (ys : List γ) :
    (xs ++ xs').zip ys = xs.zip ys ++ xs'.zip (ys.drop xs.length) := by
  induction xs generalizing ys with
  | nil => simp
  | cons x xs ih => cases ys <;> simp [ih]

theorem flatMap_zip {xs : List δ} {f : δ → List β} {g : δ → List γ}
    (same : ∀ x ∈ xs, (f x).length = (g x).length) :
    (xs.flatMap f).zip (xs.flatMap g) = xs.flatMap fun x => (f x).zip (g x) := by
  induction xs with
  | nil => rfl
  | cons x xs ih =>
    rw [List.forall_mem_cons] at same
    rw [List.flatMap_cons, List.flatMap_cons, List.zip_append same.1, ih same.2, List.flatMap_cons]

theorem length_flatMap_eq {xs : List δ} {f : δ → List β} {g : δ → List γ}
    (same : ∀ x ∈ xs, (f x).length = (g x).length) :
    (xs.flatMap f).length = (xs.flatMap g).length := by
  rw [List.length_flatMap, List.length_flatMap, List.map_congr_left same]

namespace Encoded

theorem inside_eq {m : Encoded α} {es : List (Cell × α)}
    (all : ∀ e ∈ es, e.1.1 < m.nRows ∧ e.1.2 < m.nCols) : m.inside es = (es, none) := by
  induction es with
  | nil => rfl
  | cons e es ih =>
    rcases e with ⟨⟨r, c⟩, v⟩
    rw [List.forall_mem_cons] at all
    have within : ¬(m.nRows ≤ r ∨ m.nCols ≤ c) := by
      have := all.1
      simp only at this
      omega
    simp only [inside, if_neg within, ih all.2]

theorem walkUnit_eq {m : Encoded α} {start : Nat} {u : StreamUnit} {cells : List Cell}
    (read : u.cells = .ok cells) (size : cells.length = u.size)
    (all : ∀ cell ∈ cells, cell.1 < m.nRows ∧ cell.2 < m.nCols)
    (stored : start + u.size ≤ m.values.size) :
    m.walkUnit start u = (cells.zip (m.values.toList.drop start), none) := by
  have part : cells.zip (m.values.extract start (start + u.size)).toList
      = cells.zip (m.values.toList.drop start) := by
    rw [Array.toList_extract, List.extract_eq_take_drop, Nat.add_sub_cancel_left, ← size, zip_take]
  rw [walkUnit, if_neg (Nat.not_lt_of_le stored), read]
  simp only [part]
  apply inside_eq
  intro e member
  exact all e.1 (List.of_mem_zip member).1

/-- Walking the units of a layout pairs their cells with the values from a place on, by induction on
the pieces. -/
theorem walkFrom_unitsAfter {m : Encoded α} (mode : ColumnMode) {before rest : List Placed}
    {offset start : Nat}
    (read : ∀ x ∈ rest, ∀ before offset,
      (Layout.unit before offset x).cells = .ok (x.piece.cells x.row))
    (sizes : ∀ x ∈ rest, (x.piece.cells x.row).length = x.piece.size)
    (all : ∀ x ∈ rest, ∀ cell ∈ x.piece.cells x.row, cell.1 < m.nRows ∧ cell.2 < m.nCols)
    (whole : start + (rest.flatMap fun x => x.piece.cells x.row).length = m.values.size) :
    m.walkFrom none start (Layout.unitsAfter mode before offset rest)
      = ((rest.flatMap fun x => x.piece.cells x.row).zip (m.values.toList.drop start), none) := by
  induction rest generalizing before offset start with
  | nil =>
    have done : start = m.values.size := whole
    simp only [Layout.unitsAfter, walkFrom, if_pos done]
    rfl
  | cons x rest ih =>
    rw [List.forall_mem_cons] at read sizes all
    rw [List.flatMap_cons, List.length_append, sizes.1] at whole
    have first : m.walkUnit start (Layout.unit before offset x) = _ :=
      walkUnit_eq (read.1 before offset) sizes.1 all.1 (by simp only [Layout.unit]; omega)
    have more := @ih (before ++ [x]) (offset + (Layout.unitBytes mode before x).length)
      (start + x.piece.size) read.2 sizes.2 all.2 (by omega)
    have size : (Layout.unit before offset x).size = x.piece.size := rfl
    simp only [Layout.unitsAfter, walkFrom, first, size, more]
    rw [List.flatMap_cons, append_zip, List.drop_drop, sizes.1]

end Encoded

namespace Partition

/-- Pieces of a sound partition have all their cells, and these lie inside. -/
theorem cells_of_mem_layout {symmetric : Bool} {p : Partition α} {x : Placed} (sound : p.Sound)
    (rows : p.nRows < wordLimit) (member : x ∈ p.layout symmetric) :
    x.Exists ∧ ∀ cell ∈ x.piece.cells x.row, cell.1 < p.nRows ∧ cell.2 < p.nCols := by
  obtain ⟨row, found, place, cut⟩ := cutFrom_of_mem_layout member
  have elements := sound.sound x.row row found
  rcases x with ⟨i, piece⟩
  cases cut with
  | run nonempty short sub =>
    refine ⟨trivial, ?_⟩
    intro cell inPiece
    obtain ⟨col, inChunk, rfl⟩ := List.mem_map.mp inPiece
    obtain ⟨y, inRow, same⟩ := List.mem_map.mp (sub.subset inChunk)
    exact ⟨place, same ▸ (elements y inRow).col_lt⟩
  | @pattern col q values inRow =>
    obtain ⟨cells, placed, inside⟩ := (elements _ inRow).cells
    have all : Piece.cells i (.pattern col q) = cells := by
      have placed : q.cells? i col = some cells := placed
      rw [Piece.cells, placed]
      rfl
    refine ⟨⟨cells, placed, ?_⟩, ?_⟩
    · intro cell inCells
      exact Nat.lt_trans (inside cell inCells).1 rows
    · rw [all]
      exact inside

theorem sound_of_mem_layout {symmetric : Bool} {p : Partition α} {x : Placed} (sound : p.Sound)
    (rows : p.nRows < wordLimit) (short : x.piece.size ≤ Header.maxSize)
    (member : x ∈ p.layout symmetric) : x.Sound := by
  obtain ⟨row, found, place, cut⟩ := cutFrom_of_mem_layout member
  have elements := sound.sound x.row row found
  refine Operation.sound_of_cutFrom (Nat.lt_trans place rows)
    (fun y inRow => Nat.lt_trans (elements y inRow).col_lt sound.nCols) ?_ cut
  intro y inRow same
  exact (elements y inRow).fits sound.nCols (same ▸ short)

theorem mem_numbered {p : Partition α} {i : Nat} {x : Element α} (member : (i, x) ∈ p.numbered) :
    ∃ row, p.rows[i]? = some row ∧ x ∈ row := by
  obtain ⟨⟨row, j⟩, inRows, inRow⟩ := List.mem_flatMap.mp member
  obtain ⟨y, inElems, same⟩ := List.mem_map.mp inRow
  cases same
  exact ⟨row, List.mem_zipIdx_iff_getElem?.mp inRows, inElems⟩

theorem flatMap_values_numbered (p : Partition α) :
    p.numbered.flatMap (fun (_, x) => x.values) = p.rows.flatten.flatMap Element.values := by
  have elements : p.numbered.map Prod.snd = p.rows.flatten := by
    rw [numbered, List.map_flatMap, ← List.zipIdx_map_fst 0 p.rows]
    simp [List.flatMap_def, Function.comp_def]
  rw [← elements, List.flatMap_map]

/-- Each element of a sound partition has its cells, and a value for each of them. -/
theorem cells_of_mem_numbered {p : Partition α} {q : Nat × Element α} (sound : p.Sound)
    (member : q ∈ p.numbered) :
    ∃ cells, q.2.cells? q.1 = some cells ∧ cells.length = q.2.values.length := by
  obtain ⟨row, found, inRow⟩ := mem_numbered member
  have element := sound.sound q.1 row found q.2 inRow
  obtain ⟨cells, placed, -⟩ := element.cells
  exact ⟨cells, placed, (Element.length_of_cells? placed).trans element.counted.symm⟩

theorem length_cells_of_mem_numbered {p : Partition α} (sound : p.Sound) :
    ∀ q ∈ p.numbered, ((q.2.cells? q.1).getD []).length = q.2.values.length := by
  intro q member
  obtain ⟨cells, placed, length⟩ := cells_of_mem_numbered sound member
  rw [placed]
  exact length

/-- The entries of a sound partition: its cells in order, with its values in order. -/
theorem entries?_eq {p : Partition α} (sound : p.Sound) :
    p.entries? = some (((p.numbered.flatMap fun (i, x) => (x.cells? i).getD []).zip
      (p.rows.flatten.flatMap Element.values)).map
        fun ((r, c), v) => ((p.rowStart + r, c), v)) := by
  have parts : p.numbered.mapM (fun (i, x) => x.entries? i)
      = some (p.numbered.map fun (i, x) => ((x.cells? i).getD []).zip x.values) := by
    rw [mapM_eq_some_iff, List.map_map]
    apply List.map_congr_left
    rintro ⟨i, x⟩ member
    obtain ⟨cells, placed, -⟩ := cells_of_mem_numbered sound member
    simp only at placed
    simp [Element.entries?, placed]
  rw [entries?, parts, ← flatMap_values_numbered, flatMap_zip (length_cells_of_mem_numbered sound)]
  simp [List.flatMap_def]

theorem forward_layout (symmetric : Bool) (p : Partition α) : Layout.Forward (p.layout symmetric) :=
  Operation.forward_layout 0 _

/-- The stream of an encoder that took a whole partition is read back as the units of its layout. -/
theorem units_encoded {mode : ColumnMode} {symmetric : Bool} {reserved : Nat} {p : Partition α}
    {e : Encoder α} (sound : p.Sound) (rows : p.nRows < wordLimit)
    (ran : Encoder.run mode symmetric reserved p = .ok e) :
    (e.encoded p).units = (Layout.units mode (p.layout symmetric), none) := by
  have outcome := run_outcome sound mode symmetric reserved
  rw [ran] at outcome
  obtain ⟨accepted, rests⟩ := outcome
  have each : ∀ x ∈ p.layout symmetric, x.Sound := by
    intro x member
    obtain ⟨front, passed⟩ := Layout.exists_refusal?_eq_none accepted member
    exact sound_of_mem_layout sound rows (Layout.refusal?_eq_none_iff.mp passed).1 member
  rw [Encoded.units, Encoder.encoded, Registry.table, rests.registry, rests.sameMode, rests.stream]
  exact Layout.units_bytes each (forward_layout symmetric p) accepted

theorem walk_encoded {mode : ColumnMode} {symmetric : Bool} {reserved : Nat} {p : Partition α}
    {e : Encoder α} (sound : p.Sound) (rows : p.nRows < wordLimit)
    (ran : Encoder.run mode symmetric reserved p = .ok e) :
    (e.encoded p).walk = ((p.numbered.flatMap fun (i, x) => (x.cells? i).getD []).zip
      (p.rows.flatten.flatMap Element.values), none) := by
  have units := units_encoded sound rows ran
  have outcome := run_outcome sound mode symmetric reserved
  rw [ran] at outcome
  obtain ⟨accepted, rests⟩ := outcome
  have cells : ∀ x ∈ p.layout symmetric, x.Exists ∧ _ :=
    fun x member => cells_of_mem_layout sound rows member
  have read : ∀ x ∈ p.layout symmetric, ∀ before offset,
      (Layout.unit before offset x).cells = .ok (x.piece.cells x.row) := by
    intro x member before offset
    obtain ⟨front, passed⟩ := Layout.exists_refusal?_eq_none accepted member
    obtain ⟨short, -, ordered, -⟩ := Layout.refusal?_eq_none_iff.mp passed
    exact Layout.cells_unit before offset (sound_of_mem_layout sound rows short member) ordered
      (cells x member).1
  have length := length_flatMap_eq (length_cells_of_mem_numbered sound)
  rw [← flatMap_cells_layout symmetric, flatMap_values_numbered, ← rests.taken,
    Array.length_toList] at length
  have walked : (e.encoded p).walkFrom none 0 (Layout.units mode (p.layout symmetric)) = _ :=
    Encoded.walkFrom_unitsAfter mode read (fun x member => Layout.length_cells (cells x member).1)
      (fun x member => (cells x member).2) ((Nat.zero_add _).trans length)
  rw [List.drop_zero, flatMap_cells_layout, Encoder.encoded, rests.taken] at walked
  simp only [Encoded.walk, units]
  exact walked

/-- A sound partition that is encoded is read back as its entries. -/
theorem triplets_of_encodeWith [Stored α] {s : Settings} {limit : Nat} {symmetric : Bool}
    {p : Partition α} {m : Encoded α} (sound : p.Sound) (rows : p.nRows < wordLimit)
    (encoded : (p.encodeWith s limit symmetric).1 = .ok m) :
    ∃ ts, p.entries? = some ts ∧ m.triplets = .ok ts := by
  obtain ⟨-, e, ran, rfl⟩ := exists_run_of_encodeWith sound encoded
  refine ⟨_, entries?_eq sound, ?_⟩
  rw [Encoded.triplets, walk_encoded sound rows ran]
  rfl

end Partition

/-- Whatever an accepted partition is encoded to gives its entries back in storage order, and so
does the lower triangle of an accepted symmetric partition. -/
theorem triplets_of_encode [Zero α] [Stored α] (s : Settings) (limit : Nat) :
    (∀ (p : Partition α) (m : Encoded α), p.Accepted → p.rowStart + p.nRows < wordLimit →
      (p.encode s limit).1 = .ok m → ∃ ts, p.entries? = some ts ∧ m.triplets = .ok ts) ∧
    (∀ (p : SymmetricPartition α) (m : EncodedSymmetric α), p.Accepted →
      p.lower.rowStart + p.lower.nRows < wordLimit → (p.encode s limit).1 = .ok m →
      ∃ ts, p.lower.entries? = some ts ∧ m.lower.triplets = .ok ts) := by
  constructor
  · intro p m accepted rows encoded
    have few : p.nRows < wordLimit := by omega
    exact Partition.triplets_of_encodeWith accepted.sound few encoded
  · intro p m accepted rows encoded
    have few : p.lower.nRows < wordLimit := by omega
    simp only [SymmetricPartition.encode, Tracked.fst_bind, bind_eq_ok] at encoded
    obtain ⟨_, -, lower, below, done⟩ := encoded
    cases done
    exact Partition.triplets_of_encodeWith accepted.lower.sound few below

theorem triplets_of_encode_line_and_diagonal :
    let line : Pattern := ⟨.simple .horizontal 2, 3⟩
    let p : Partition Int32 :=
      ⟨5, 10, 5, [[.plain 1 10, .plain 4 20], [], [.pattern 0 line [1, 2, 3]]], 0⟩
    let q : SymmetricPartition Int32 := ⟨⟨5, 10, 2, [[.plain 1 7], [.plain 5 8]], 0⟩, [1, 2]⟩
    (∃ m ts, (p.encode {} allocationLimit).1 = .ok m ∧ p.entries? = some ts ∧
      m.triplets = .ok ts) ∧
    (∃ m ts, (q.encode { mode := .full } allocationLimit).1 = .ok m ∧ q.lower.entries? = some ts ∧
      m.lower.triplets = .ok ts) := by
  intro line p q
  have admitted : line.Admitted :=
    .line (by decide : 2 < strideLimit) (by decide : 3 < wordLimit)
      (rfl : Pattern.line .horizontal 2 3 = _)
  have made : Partition.ofRows 5 10 p.rows = .ok p := rfl
  have accepted : p.Accepted :=
    .rows (by decide) (by simp [p, Element.Admitted, admitted]) made
  have madeBelow : Partition.ofRows 5 10 q.lower.rows = .ok q.lower := rfl
  have below : q.lower.Accepted := .rows (by decide) (by simp [q, Element.Admitted]) madeBelow
  have symmetric : q.Accepted :=
    .make below (rfl : SymmetricPartition.make q.lower [1, 2] = .ok q)
  constructor
  · have succeeds : (p.encode {} allocationLimit).1.isOk = true := by decide +kernel
    cases encoded : (p.encode {} allocationLimit).1 with
    | error failure =>
      rw [encoded] at succeeds
      contradiction
    | ok m =>
      obtain ⟨ts, found, read⟩ :=
        (triplets_of_encode {} allocationLimit).1 p m accepted (by decide) encoded
      exact ⟨m, ts, rfl, found, read⟩
  · have succeeds : (q.encode { mode := .full } allocationLimit).1.isOk = true := by decide +kernel
    cases encoded : (q.encode { mode := .full } allocationLimit).1 with
    | error failure =>
      rw [encoded] at succeeds
      contradiction
    | ok m =>
      obtain ⟨ts, found, read⟩ :=
        (triplets_of_encode { mode := .full } allocationLimit).2 q m symmetric (by decide) encoded
      exact ⟨m, ts, rfl, found, read⟩

end SparseStream
