import SparseStream.Encoder
import SparseStream.Proofs.Fields
import SparseStream.StreamUnit
import SparseStream.Sums

/-! Layouts: the units that rows of elements are cut into, worked out from the rows alone. A layout
lists pieces of rows in stream order. The fields, the flag, the bytes and the refusal of a unit all
follow from the pieces before it; no state of an encoder takes part. -/
namespace SparseStream

/-- What one unit covers: a stretch of plain columns, or a pattern at its anchor. -/
inductive Piece where
  | run (cols : List Nat)
  | pattern (col : Nat) (pattern : Pattern)
  deriving DecidableEq

namespace Piece

def col : Piece → Nat
  | run cols => cols.headD 0
  | pattern col _ => col

def size : Piece → Nat
  | run cols => cols.length
  | pattern _ p => p.size

/-- Differences of neighbouring columns. -/
def deltas : Piece → List Nat
  | run cols => cols.tail.zipWith (· - ·) cols
  | pattern _ _ => []

/-- A run is known by the narrowest width that holds its largest difference. -/
def kind : Piece → Kind
  | run cols => .run (Width.classify ((run cols).deltas.foldl max 0))
  | pattern _ p => .pattern p.shape

/-- The last column covered on the row itself. -/
def last : Piece → Nat
  | run cols => cols.getLastD 0
  | pattern col p => col + p.shape.advance p.size

/-- The last place where the columns of a run decrease: the column there and the one before it. -/
def decrease? : Piece → Option (Nat × Nat)
  | run (first :: rest) => (differences first rest).2
  | _ => none

/-- A stretch of `n` columns as its `⌈n / 255⌉` runs. All but the last run are full. -/
def runs (cols : List Nat) : List Piece :=
  (List.range ((cols.length + (Header.maxSize - 1)) / Header.maxSize)).map fun i =>
    .run ((cols.drop (Header.maxSize * i)).take Header.maxSize)

/-- The pieces of a row whose open stretch of plain columns is `held` so far. A stretch ends at a
pattern or with the row. -/
def ofRowAfter (held : List Nat) : List (Element α) → List Piece
  | [] => runs held
  | .plain col _ :: rest => ofRowAfter (held ++ [col]) rest
  | .pattern col p _ :: rest => runs held ++ pattern col p :: ofRowAfter [] rest

def ofRow (row : List (Element α)) : List Piece := ofRowAfter [] row

/-- The pieces of a symmetric row: no piece spans the two sides of the diagonal block. -/
def ofSymmetricRow (row : List (Element α)) (rowStart : Nat) : List Piece :=
  ofRow (row.takeWhile (·.col < rowStart)) ++ ofRow (row.dropWhile (·.col < rowStart))

end Piece

theorem foldl_max_lt_iff {bound start : Nat} {ns : List Nat} :
    ns.foldl max start < bound ↔ start < bound ∧ ∀ n ∈ ns, n < bound := by
  induction ns generalizing start with
  | nil => simp
  | cons n ns ih =>
    rw [List.foldl_cons, ih, List.forall_mem_cons, Nat.max_lt, and_assoc]

theorem le_foldl_max {start : Nat} {ns : List Nat} : ∀ n ∈ ns, n ≤ ns.foldl max start := by
  intro n member
  have below := (foldl_max_lt_iff.mp (Nat.lt_succ_self (ns.foldl max start))).2 n member
  exact Nat.le_of_lt_succ below

/-- Where no column decreases, the differences are those of neighbours and lead to the last
column. -/
theorem differences_ordered {first : Nat} {rest : List Nat}
    (ordered : (differences first rest).2 = none) :
    (differences first rest).1 = rest.zipWith (· - ·) (first :: rest) ∧
      first + total (differences first rest).1 = rest.getLastD first := by
  induction rest generalizing first with
  | nil => exact ⟨rfl, rfl⟩
  | cons col rest ih =>
    rw [differences] at ordered ⊢
    have later := @ih col
    rcases found : differences col rest with ⟨steps, fault⟩
    rw [found] at ordered later
    cases fault with
    | some fault => simp at ordered
    | none =>
      obtain ⟨steps, reach⟩ := later rfl
      by_cases decreases : col < first
      · simp [decreases] at ordered
      · simp only [if_neg decreases, List.zipWith_cons_cons, total_cons, List.getLastD_cons]
        exact ⟨congrArg _ steps, by simp only at reach; omega⟩

namespace Piece

theorem deltas_run_cons (first : Nat) (rest : List Nat) :
    (run (first :: rest)).deltas = rest.zipWith (· - ·) (first :: rest) := rfl

/-- The steps of a run lead from its first column to its last one. -/
theorem col_add_total_deltas (cols : List Nat) (nonempty : cols ≠ [])
    (ordered : (run cols).decrease? = none) :
    (run cols).col + total (run cols).deltas = (run cols).last := by
  cases cols with
  | nil => contradiction
  | cons first rest =>
    obtain ⟨steps, reach⟩ := differences_ordered ordered
    rw [deltas_run_cons, ← steps]
    exact reach.trans (List.getLastD_cons (a := 0)).symm

theorem length_deltas (cols : List Nat) (nonempty : cols ≠ []) :
    (run cols).deltas.length + 1 = (run cols).size := by
  cases cols with
  | nil => contradiction
  | cons first rest => simp [deltas, size]

/-- The kind of a run has room for each of its steps, and no more than they need. -/
theorem narrowest_classify_deltas {cols : List Nat} (word : total (run cols).deltas < wordLimit) :
    (Width.classify ((run cols).deltas.foldl max 0)).Narrowest (run cols).deltas where
  holds := by
    have words : (run cols).deltas.foldl max 0 < wordLimit := by
      refine foldl_max_lt_iff.mpr ⟨by decide, fun n step => ?_⟩
      exact Nat.lt_of_le_of_lt (le_total_of_mem step) word
    exact (foldl_max_lt_iff.mp (Width.lt_limit_classify words)).2
  least w fits := by
    have positive : 0 < w.limit := by cases w <;> decide
    exact Width.bytes_classify_le_of_lt (foldl_max_lt_iff.mpr ⟨positive, fits⟩)

theorem col_le_last (piece : Piece) (covers : 1 ≤ piece.size) (ordered : piece.decrease? = none) :
    piece.col ≤ piece.last := by
  cases piece with
  | run cols =>
    have nonempty : cols ≠ [] := List.ne_nil_of_length_pos covers
    exact col_add_total_deltas cols nonempty ordered ▸ Nat.le_add_right _ _
  | pattern col p => exact Nat.le_add_right _ _

@[simp] theorem runs_nil : runs [] = [] := rfl

/-- A stretch that fits one unit is one run. -/
theorem runs_of_short {cols : List Nat} (nonempty : cols ≠ [])
    (short : cols.length ≤ Header.maxSize) : runs cols = [run cols] := by
  have positive := List.length_pos_iff.mpr nonempty
  have one : (cols.length + (Header.maxSize - 1)) / Header.maxSize = 1 := by
    rw [Header.maxSize_eq] at short ⊢
    omega
  rw [runs, one]
  simp [List.take_of_length_le short]

/-- A full run splits off the front of a longer stretch. -/
theorem runs_append {full held : List Nat} (length : full.length = Header.maxSize)
    (nonempty : held ≠ []) : runs (full ++ held) = run full :: runs held := by
  have positive := List.length_pos_iff.mpr nonempty
  have count : ((full ++ held).length + (Header.maxSize - 1)) / Header.maxSize
      = (held.length + (Header.maxSize - 1)) / Header.maxSize + 1 := by
    rw [List.length_append, length, Header.maxSize_eq]
    omega
  rw [runs, count, List.range_succ_eq_map, List.map_cons, List.map_map, runs]
  congr 1
  · simp [← length]
  · apply List.map_congr_left
    intro i _
    have skip : Header.maxSize * (i + 1) = full.length + Header.maxSize * i := by
      rw [length, Nat.mul_succ, Nat.add_comm]
    simp only [Function.comp_apply, skip, List.drop_length_add_append]

/-- Induction on a stretch along its runs. -/
@[elab_as_elim]
theorem stretch_induction {motive : List Nat → Prop} (cols : List Nat) (nil : motive [])
    (short : ∀ cols, cols ≠ [] → cols.length ≤ Header.maxSize → motive cols)
    (long : ∀ full held, full.length = Header.maxSize → held ≠ [] → motive held →
      motive (full ++ held)) : motive cols := by
  generalize size : cols.length = n
  induction n using Nat.strongRecOn generalizing cols with
  | ind n ih =>
    by_cases empty : cols = []
    · exact empty ▸ nil
    by_cases fits : cols.length ≤ Header.maxSize
    · exact short cols empty fits
    · have front : (cols.take Header.maxSize).length = Header.maxSize := by
        rw [List.length_take]
        omega
      have rest : cols.drop Header.maxSize ≠ [] := by
        rw [Ne, List.drop_eq_nil_iff]
        exact fits
      have fewer : (cols.drop Header.maxSize).length < n := by
        rw [List.length_drop, Header.maxSize_eq]
        rw [Header.maxSize_eq] at fits
        omega
      have joined := long _ _ front rest (ih _ fewer _ rfl)
      rwa [List.take_append_drop] at joined

theorem ofRowAfter_append {full held : List Nat} (row : List (Element α))
    (length : full.length = Header.maxSize) (nonempty : held ≠ []) :
    ofRowAfter (full ++ held) row = run full :: ofRowAfter held row := by
  induction row generalizing held with
  | nil => exact runs_append length nonempty
  | cons x row ih =>
    cases x with
    | plain col value =>
      rw [ofRowAfter, List.append_assoc, ih (by simp), ofRowAfter]
    | pattern col p values =>
      rw [ofRowAfter, runs_append length nonempty, ofRowAfter, List.cons_append]

/-- A run of a stretch is a part of it that fits one unit. -/
theorem mem_runs {cols : List Nat} {piece : Piece} (member : piece ∈ runs cols) :
    ∃ chunk, piece = run chunk ∧ chunk ≠ [] ∧ chunk.length ≤ Header.maxSize ∧
      chunk.Sublist cols := by
  obtain ⟨i, bound, rfl⟩ := List.mem_map.mp member
  rw [List.mem_range, Header.maxSize_eq] at bound
  have part := (List.take_sublist Header.maxSize (cols.drop (Header.maxSize * i))).trans
    (List.drop_sublist _ _)
  refine ⟨_, rfl, ?_, List.length_take_le _ _, part⟩
  apply List.ne_nil_of_length_pos
  rw [List.length_take, List.length_drop, Header.maxSize_eq]
  omega

/-- Each piece of a row is a run of columns of the row or one of its patterns. -/
theorem mem_ofRowAfter {held : List Nat} {row : List (Element α)} {piece : Piece}
    (member : piece ∈ ofRowAfter held row) :
    (∃ chunk, piece = run chunk ∧ chunk ≠ [] ∧ chunk.length ≤ Header.maxSize ∧
      chunk.Sublist (held ++ row.map Element.col)) ∨
    ∃ col p values, piece = pattern col p ∧ Element.pattern col p values ∈ row := by
  induction row generalizing held with
  | nil =>
    rw [List.map_nil, List.append_nil]
    exact .inl (mem_runs member)
  | cons x row ih =>
    cases x with
    | plain col value =>
      rcases ih member with ⟨chunk, same, nonempty, short, sub⟩ | ⟨c, p, list, same, inRow⟩
      · refine .inl ⟨chunk, same, nonempty, short, ?_⟩
        rwa [List.append_assoc] at sub
      · exact .inr ⟨c, p, list, same, List.mem_cons_of_mem _ inRow⟩
    | pattern col p values =>
      rcases List.mem_append.mp member with early | late
      · obtain ⟨chunk, same, nonempty, short, sub⟩ := mem_runs early
        exact .inl ⟨chunk, same, nonempty, short, sub.trans (List.sublist_append_left _ _)⟩
      rcases List.mem_cons.mp late with rfl | late
      · exact .inr ⟨col, p, values, rfl, List.mem_cons_self ..⟩
      rcases ih late with ⟨chunk, same, nonempty, short, sub⟩ | ⟨c, q, list, same, inRow⟩
      · refine .inl ⟨chunk, same, nonempty, short, sub.trans ?_⟩
        rw [List.nil_append, List.map_cons]
        exact ((List.sublist_cons_self _ _).trans (List.sublist_append_right _ _))
      · exact .inr ⟨c, q, list, same, List.mem_cons_of_mem _ inRow⟩

/-- A piece as it is cut from a row. -/
inductive CutFrom (row : List (Element α)) : Piece → Prop
  | run {chunk : List Nat} : chunk ≠ [] → chunk.length ≤ Header.maxSize →
      chunk.Sublist (row.map Element.col) → CutFrom row (run chunk)
  | pattern {col : Nat} {p : Pattern} {values : List α} : .pattern col p values ∈ row →
      CutFrom row (pattern col p)

theorem CutFrom.of_sublist {row whole : List (Element α)} {piece : Piece} (cut : CutFrom row piece)
    (sub : row.Sublist whole) : CutFrom whole piece := by
  cases cut with
  | run nonempty short part => exact .run nonempty short (part.trans (sub.map _))
  | pattern member => exact .pattern (sub.subset member)

theorem cutFrom_of_mem_ofRow {row : List (Element α)} {piece : Piece} (member : piece ∈ ofRow row) :
    CutFrom row piece := by
  rcases mem_ofRowAfter member with ⟨chunk, rfl, nonempty, short, sub⟩ | ⟨col, p, list, rfl, inRow⟩
  · exact .run nonempty short sub
  · exact .pattern inRow

theorem cutFrom_of_mem_ofSymmetricRow {row : List (Element α)} {rowStart : Nat} {piece : Piece}
    (member : piece ∈ ofSymmetricRow row rowStart) : CutFrom row piece := by
  rcases List.mem_append.mp member with outer | inner
  · exact (cutFrom_of_mem_ofRow outer).of_sublist (List.takeWhile_sublist _)
  · exact (cutFrom_of_mem_ofRow inner).of_sublist (List.dropWhile_sublist _)

theorem runs_ne_nil {cols : List Nat} (nonempty : cols ≠ []) : runs cols ≠ [] := by
  have positive := List.length_pos_iff.mpr nonempty
  rw [runs, Header.maxSize_eq]
  simp
  omega

theorem ofRowAfter_ne_nil {held : List Nat} {row : List (Element α)}
    (nonempty : held ≠ [] ∨ row ≠ []) : ofRowAfter held row ≠ [] := by
  induction row generalizing held with
  | nil =>
    rcases nonempty with nonempty | nonempty
    · exact runs_ne_nil nonempty
    · contradiction
  | cons x row ih =>
    cases x with
    | plain col value => exact ih (.inl (by simp))
    | pattern col p values => exact List.append_ne_nil_of_right_ne_nil _ (by simp)

theorem ofSymmetricRow_ne_nil {row : List (Element α)} (rowStart : Nat) (nonempty : row ≠ []) :
    ofSymmetricRow row rowStart ≠ [] := by
  rw [ofSymmetricRow]
  by_cases outer : row.takeWhile (·.col < rowStart) = []
  · have whole := List.takeWhile_append_dropWhile (p := (·.col < rowStart)) (l := row)
    rw [outer, List.nil_append] at whole
    rw [whole]
    exact List.append_ne_nil_of_right_ne_nil _ (ofRowAfter_ne_nil (.inr nonempty))
  · exact List.append_ne_nil_of_left_ne_nil (ofRowAfter_ne_nil (.inr outer)) _

end Piece

structure Placed where
  row : Nat
  piece : Piece
  deriving DecidableEq

namespace Layout

/-- The row that the stream has reached. It starts on row zero. -/
def lastRow (before : List Placed) : Nat := (before.getLast?.map Placed.row).getD 0

/-- The column cursor on a row: the last column covered on it so far, and zero at its start. -/
def cursor (before : List Placed) (row : Nat) : Nat :=
  match before.getLast? with
  | some x => if x.row = row then x.piece.last else 0
  | none => 0

/-- The kinds met so far, in the order of first sight. -/
def kinds (before : List Placed) : List Kind := (before.map (·.piece.kind)).eraseDups

/-- Flags count up from one in the order of first sight. -/
def flag (before : List Placed) (x : Placed) : Nat := (kinds before).idxOf x.piece.kind + 1

def newRow (before : List Placed) (x : Placed) : Bool := x.row ≠ lastRow before

def rowJump (before : List Placed) (x : Placed) : Option Nat :=
  if x.row ≤ lastRow before + 1 then none else some (x.row - lastRow before)

def jumpBytes (before : List Placed) (x : Placed) : List UInt8 :=
  match rowJump before x with
  | none => []
  | some n => Varint.encode n

def columnBytes (mode : ColumnMode) (before : List Placed) (x : Placed) : List UInt8 :=
  match mode with
  | .jump => Varint.encode (x.piece.col - cursor before x.row)
  | .full => littleEndian 4 x.piece.col

def payload (x : Placed) : List UInt8 :=
  match x.piece.kind with
  | .run w => x.piece.deltas.flatMap w.pack
  | .pattern _ => []

def unitBytes (mode : ColumnMode) (before : List Placed) (x : Placed) : List UInt8 :=
  Header.flags (flag before x) (newRow before x) (rowJump before x).isSome :: x.piece.size.toUInt8
    :: (jumpBytes before x ++ columnBytes mode before x ++ payload x)

def unit (before : List Placed) (offset : Nat) (x : Placed) : StreamUnit :=
  ⟨offset, flag before x, x.piece.kind, x.piece.size, newRow before x, rowJump before x, x.row,
    x.piece.col, x.piece.deltas⟩

/-- The bytes of further pieces. -/
def bytesAfter (mode : ColumnMode) (before : List Placed) : List Placed → List UInt8
  | [] => []
  | x :: rest => unitBytes mode before x ++ bytesAfter mode (before ++ [x]) rest

def bytes (mode : ColumnMode) (layout : List Placed) : List UInt8 := bytesAfter mode [] layout

/-- The units of further pieces, each at the offset where the one before it ended. -/
def unitsAfter (mode : ColumnMode) (before : List Placed) (offset : Nat) :
    List Placed → List StreamUnit
  | [] => []
  | x :: rest =>
    unit before offset x
      :: unitsAfter mode (before ++ [x]) (offset + (unitBytes mode before x).length) rest

def units (mode : ColumnMode) (layout : List Placed) : List StreamUnit :=
  unitsAfter mode [] 0 layout

/-- A kind with its flag, the number of its units, and their elements. -/
def entry (layout : List Placed) (kind : Kind) (place : Nat) : KindEntry :=
  let same := layout.filter (·.piece.kind = kind)
  ⟨kind, place + 1, same.length, total (same.map (·.piece.size))⟩

def entries (layout : List Placed) : List KindEntry :=
  (kinds layout).zipIdx.map fun (kind, place) => entry layout kind place

def table (layout : List Placed) : KindTable := ⟨entries layout⟩

/-- What keeps a kind and a column from being written, if anything. -/
def openRefusal? (mode : ColumnMode) (before : List Placed) (kind : Kind) (col : Nat) :
    Option Error :=
  if kind ∉ kinds before ∧ Header.maxFlag ≤ (kinds before).length then some .tooManyKinds
  else if mode = .full ∧ fullColumnLimit ≤ col then some (.columnTooWide col)
  else none

/-- Why a unit is refused, if it is: its size, its place behind the cursor or a decrease within it,
its kind, its column, in this order. -/
def refusal? (mode : ColumnMode) (before : List Placed) (x : Placed) : Option Error :=
  if Header.maxSize < x.piece.size then some (.unitTooLong x.piece.size)
  else if x.piece.col < cursor before x.row then
    some (.behindCursor x.row x.piece.col (cursor before x.row))
  else
    match x.piece.decrease? with
    | some (col, previous) => some (.behindCursor x.row col previous)
    | none => openRefusal? mode before x.piece.kind x.piece.col

/-- The refusal of the first unit in stream order that is refused. -/
def firstRefusal? (mode : ColumnMode) (before : List Placed) : List Placed → Option Error
  | [] => none
  | x :: rest => (refusal? mode before x).or (firstRefusal? mode (before ++ [x]) rest)

/-- A kind has a flag, or can be given one, unless it is new and the flags are used up. -/
theorem not_used_up_iff {before : List Placed} {kind : Kind} :
    ¬(kind ∉ kinds before ∧ Header.maxFlag ≤ (kinds before).length) ↔
      kind ∈ kinds before ∨ (kinds before).length < Header.maxFlag := by
  rw [Decidable.not_and_iff_not_or_not, Decidable.not_not, Nat.not_le]

/-- What is not refused passed each of the checks. -/
theorem refusal?_eq_none_iff {mode : ColumnMode} {before : List Placed} {x : Placed} :
    refusal? mode before x = none ↔
      x.piece.size ≤ Header.maxSize ∧ cursor before x.row ≤ x.piece.col ∧
        x.piece.decrease? = none ∧
        (x.piece.kind ∈ kinds before ∨ (kinds before).length < Header.maxFlag) ∧
        (mode = .full → x.piece.col < fullColumnLimit) := by
  have opens : openRefusal? mode before x.piece.kind x.piece.col = none ↔
      (x.piece.kind ∈ kinds before ∨ (kinds before).length < Header.maxFlag) ∧
        (mode = .full → x.piece.col < fullColumnLimit) := by
    unfold openRefusal?
    split <;> rename_i used
    · simp only [reduceCtorEq, false_iff]
      rintro ⟨room, -⟩
      exact not_used_up_iff.mpr room used
    · have room := not_used_up_iff.mp used
      split <;> rename_i wide
      · simp only [reduceCtorEq, false_iff]
        rintro ⟨-, narrow⟩
        exact Nat.not_le_of_lt (narrow wide.1) wide.2
      · simp only [room, true_and, true_iff]
        exact fun full => Nat.lt_of_not_le fun large => wide ⟨full, large⟩
  unfold refusal?
  split <;> rename_i long
  · simp [Nat.not_le_of_lt long]
  split <;> rename_i behind
  · simp [Nat.not_le_of_lt behind]
  cases x.piece.decrease? with
  | some fault => simp
  | none => simp [Nat.le_of_not_lt long, Nat.le_of_not_lt behind, opens]

@[simp] theorem lastRow_snoc (before : List Placed) (x : Placed) :
    lastRow (before ++ [x]) = x.row := by
  simp [lastRow]

@[simp] theorem cursor_snoc (before : List Placed) (x : Placed) (row : Nat) :
    cursor (before ++ [x]) row = if x.row = row then x.piece.last else 0 := by
  simp [cursor]

theorem cursor_of_lastRow_ne {before : List Placed} {row : Nat} (h : row ≠ lastRow before) :
    cursor before row = 0 := by
  unfold cursor
  unfold lastRow at h
  cases found : before.getLast? with
  | none => rfl
  | some x =>
    rw [found] at h
    exact if_neg (Ne.symm h)

theorem bytesAfter_append (mode : ColumnMode) (before xs ys : List Placed) :
    bytesAfter mode before (xs ++ ys)
      = bytesAfter mode before xs ++ bytesAfter mode (before ++ xs) ys := by
  induction xs generalizing before with
  | nil => simp [bytesAfter]
  | cons x xs ih => simp [bytesAfter, ih]

theorem firstRefusal?_append (mode : ColumnMode) (before xs ys : List Placed) :
    firstRefusal? mode before (xs ++ ys)
      = (firstRefusal? mode before xs).or (firstRefusal? mode (before ++ xs) ys) := by
  induction xs generalizing before with
  | nil => simp [firstRefusal?]
  | cons x xs ih => simp [firstRefusal?, ih, Option.or_assoc]

/-- In a layout that is not refused, no piece is. -/
theorem exists_refusal?_eq_none {mode : ColumnMode} {before rest : List Placed} {x : Placed}
    (accepted : firstRefusal? mode before rest = none) (member : x ∈ rest) :
    ∃ front, refusal? mode front x = none := by
  induction rest generalizing before with
  | nil => cases member
  | cons y rest ih =>
    rw [firstRefusal?, Option.or_eq_none_iff] at accepted
    rcases List.mem_cons.mp member with rfl | later
    · exact ⟨before, accepted.1⟩
    · exact ih accepted.2 later

theorem mem_kinds {k : Kind} {layout : List Placed} :
    k ∈ kinds layout ↔ ∃ x ∈ layout, x.piece.kind = k := by
  simp [kinds]

end Layout
end SparseStream
