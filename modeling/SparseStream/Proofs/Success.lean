import SparseStream.Proofs.Encoding
import SparseStream.Proofs.Order

/-! When encoding succeeds. An accepted partition is encoded exactly when its patterns fit one unit,
its horizontal lines end before the next element, its units have few kinds, and its columns fit the
column mode. -/
namespace SparseStream

namespace Layout

/-- Of two neighbours on the same row, the second does not start before the last column of the
first. -/
def Follows (x y : Placed) : Prop := x.row = y.row → x.piece.Follows y.piece

theorem cursor_le_iff {before : List Placed} {x : Placed} :
    cursor before x.row ≤ x.piece.col ↔ ∀ y ∈ before.getLast?, Follows y x := by
  unfold cursor
  cases before.getLast? with
  | none => simp
  | some y =>
    by_cases same : y.row = x.row
    · simp [same, Follows, Piece.Follows]
    · simp [same, Follows]

theorem room_iff {before : List Placed} {x : Placed}
    (few : (kinds before).length ≤ Header.maxFlag) :
    (x.piece.kind ∈ kinds before ∨ (kinds before).length < Header.maxFlag) ↔
      (kinds (before ++ [x])).length ≤ Header.maxFlag := by
  refine ⟨length_kinds_snoc_le few, ?_⟩
  intro snoc
  by_cases known : x.piece.kind ∈ kinds before
  · exact .inl known
  · rw [kinds_snoc, if_neg known, List.length_append, List.length_singleton] at snoc
    exact .inr snoc

/-- Nothing is refused exactly when each piece passes its own checks, none starts behind the piece
before it, and all kinds together have flags. -/
theorem firstRefusal?_eq_none_iff {mode : ColumnMode} {before rest : List Placed}
    (few : (kinds before).length ≤ Header.maxFlag) :
    firstRefusal? mode before rest = none ↔
      (∀ x ∈ rest, x.piece.size ≤ Header.maxSize ∧ x.piece.decrease? = none ∧
        (mode = .full → x.piece.col < fullColumnLimit)) ∧
      ((∀ y ∈ before.getLast?, ∀ x ∈ rest.head?, Follows y x) ∧ rest.IsChain Follows) ∧
      (kinds (before ++ rest)).length ≤ Header.maxFlag := by
  induction rest generalizing before with
  | nil => simp [firstRefusal?, few]
  | cons x rest ih =>
    have regroup : before ++ x :: rest = (before ++ [x]) ++ rest := by simp
    have prefixes := length_kinds_append_le (before ++ [x]) rest
    rw [firstRefusal?, Option.or_eq_none_iff, refusal?_eq_none_iff, cursor_le_iff, room_iff few,
      List.forall_mem_cons, List.isChain_cons, regroup]
    simp only [List.head?_cons, Option.mem_def, Option.some.injEq, forall_eq']
    constructor
    · rintro ⟨⟨short, follows, ordered, room, narrow⟩, more⟩
      obtain ⟨each, ⟨next, chain⟩, all⟩ := (ih room).mp more
      exact ⟨⟨⟨short, ordered, narrow⟩, each⟩, ⟨follows, by simpa using next, chain⟩, all⟩
    · rintro ⟨⟨⟨short, ordered, narrow⟩, each⟩, ⟨follows, next, chain⟩, all⟩
      have room := Nat.le_trans prefixes all
      exact ⟨⟨short, follows, ordered, room, narrow⟩,
        (ih room).mpr ⟨each, ⟨by simpa using next, chain⟩, all⟩⟩

/-- A unit is refused for its size, its place, its kind or its column, and for nothing else. -/
theorem refusal?_blames {mode : ColumnMode} {before : List Placed} {x : Placed} {error : Error}
    (refused : refusal? mode before x = some error) :
    (∃ size, error = .unitTooLong size) ∨ (∃ row col cursor, error = .behindCursor row col cursor) ∨
      error = .tooManyKinds ∨ ∃ col, error = .columnTooWide col := by
  unfold refusal? at refused
  split at refused
  · cases refused
    exact .inl ⟨_, rfl⟩
  split at refused
  · cases refused
    exact .inr (.inl ⟨_, _, _, rfl⟩)
  split at refused
  · cases refused
    exact .inr (.inl ⟨_, _, _, rfl⟩)
  unfold openRefusal? at refused
  split at refused
  · cases refused
    exact .inr (.inr (.inl rfl))
  split at refused
  · cases refused
    exact .inr (.inr (.inr ⟨_, rfl⟩))
  · contradiction

theorem exists_refusal?_eq_some {mode : ColumnMode} {before rest : List Placed} {error : Error}
    (refused : firstRefusal? mode before rest = some error) :
    ∃ front x, refusal? mode front x = some error := by
  induction rest generalizing before with
  | nil => contradiction
  | cons x rest ih =>
    rw [firstRefusal?, Option.or_eq_some_iff] at refused
    rcases refused with first | ⟨-, later⟩
    · exact ⟨before, x, first⟩
    · exact ih later

/-- A failure that reports the first unit in stream order that is refused. It never finds fault with
the count of values or with a pattern. -/
def Blames (mode : ColumnMode) (layout : List Placed) (failure : Failure) : Prop :=
  ∃ error, failure = .error error ∧ firstRefusal? mode [] layout = some error ∧
    (∀ expected actual, error ≠ .valueCount expected actual) ∧ ∀ fault, error ≠ .pattern fault

theorem blames_of_firstRefusal? {mode : ColumnMode} {layout : List Placed} {error : Error}
    (refused : firstRefusal? mode [] layout = some error) : Blames mode layout (.error error) := by
  obtain ⟨front, x, cause⟩ := exists_refusal?_eq_some refused
  refine ⟨error, rfl, refused, ?_⟩
  rcases refusal?_blames cause with ⟨size, rfl⟩ | ⟨row, col, cursor, rfl⟩ | rfl | ⟨col, rfl⟩ <;>
    exact ⟨by simp, by simp⟩

end Layout

/-- Along the operations of an encoder, only pieces of the same row are compared. -/
theorem Operation.isChain_layout {row : Nat} {ops : List (Operation α)} :
    (layout row ops).IsChain Layout.Follows ↔ ∀ op ∈ ops, op.pieces.IsChain Piece.Follows := by
  induction ops generalizing row with
  | nil => simp [layout]
  | cons op ops ih =>
    have within : (op.pieces.map (Placed.mk row)).IsChain Layout.Follows ↔
        op.pieces.IsChain Piece.Follows := by
      rw [List.isChain_map]
      simp [Layout.Follows]
    have across : ∀ x ∈ (op.pieces.map (Placed.mk row)).getLast?,
        ∀ y ∈ (layout (row + 1) ops).head?, Layout.Follows x y := by
      intro x last y first same
      obtain ⟨piece, -, rfl⟩ := List.mem_map.mp (List.mem_of_getLast? last)
      have later := (mem_layout (List.mem_of_head? first)).1
      simp only at same
      omega
    rw [layout_cons, List.isChain_append, within, ih, List.forall_mem_cons]
    exact ⟨fun h => ⟨h.1, h.2.1⟩, fun h => ⟨h.1, h.2, across⟩⟩

theorem Operation.isChain_pieces_ofRow {symmetric : Bool} {rowStart : Nat} {row : List (Element α)}
    (ordered : (row.map Element.col).Pairwise (· < ·)) :
    (ofRow symmetric rowStart row).pieces.IsChain Piece.Follows ↔ row.IsChain Element.Follows := by
  cases row with
  | nil => simp [ofRow, pieces]
  | cons x row =>
    cases symmetric with
    | false => exact Piece.isChain_ofRow ordered
    | true => exact Piece.isChain_ofSymmetricRow rowStart ordered

theorem Operation.pattern_mem_pieces_ofRow {row : List (Element α)} {col : Nat} {p : Pattern}
    {values : List α} (symmetric : Bool) (rowStart : Nat)
    (member : .pattern col p values ∈ row) :
    .pattern col p ∈ (ofRow symmetric rowStart row).pieces := by
  cases row with
  | nil => contradiction
  | cons x row =>
    cases symmetric with
    | false => exact Piece.pattern_mem_ofRowAfter member
    | true => exact Piece.pattern_mem_ofSymmetricRow rowStart member

/-- Along a row whose columns increase, only the element after a horizontal line can start too
early. -/
theorem Element.isChain_follows_iff {row : List (Element α)}
    (ordered : (row.map Element.col).Pairwise (· < ·)) :
    row.IsChain Element.Follows ↔ ∀ front col stride size values next back,
      row = front ++ .pattern col ⟨.simple .horizontal stride, size⟩ values :: next :: back →
        col + (size - 1) * stride ≤ next.col := by
  rw [List.isChain_iff_forall_rel_of_append_cons_cons]
  constructor
  · intro chain front col stride size values next back cut
    exact chain cut
  · intro lines x next front back cut
    have forward : x.col < next.col := by
      rw [cut, List.map_append, List.map_cons, List.map_cons] at ordered
      have tail := (List.pairwise_append.mp ordered).2.1
      exact (List.pairwise_cons.mp tail).1 next.col (List.mem_cons_self ..)
    cases x with
    | plain col value => exact Nat.le_of_lt forward
    | pattern col p values =>
      rcases p with ⟨shape, size⟩
      by_cases line : ∃ stride, shape = .simple .horizontal stride
      · obtain ⟨stride, rfl⟩ := line
        exact lines front col stride size values next back cut
      · have still := Shape.advance_eq_zero size (not_exists.mp line)
        simp only [Element.Follows, Element.last, still]
        exact Nat.le_of_lt forward

namespace Partition

/-- What a partition needs to be encoded: its patterns fit one unit, nothing starts before the last
column of a horizontal line next to it, the kinds of its units have flags, and in full mode the
first column of each unit fits its field. -/
structure Encodable (mode : ColumnMode) (symmetric : Bool) (p : Partition α) : Prop where
  sizes : ∀ row ∈ p.rows, ∀ col q values, .pattern col q values ∈ row → q.size ≤ Header.maxSize
  order : ∀ row ∈ p.rows, ∀ front col stride size values next back,
    row = front ++ .pattern col ⟨.simple .horizontal stride, size⟩ values :: next :: back →
      col + (size - 1) * stride ≤ next.col
  kinds : (Layout.kinds (p.layout symmetric)).length ≤ Header.maxFlag
  columns : mode = .full → ∀ x ∈ p.layout symmetric, x.piece.col < fullColumnLimit

theorem isChain_layout {symmetric : Bool} {p : Partition α} (sound : p.Sound) :
    (p.layout symmetric).IsChain Layout.Follows ↔ ∀ row ∈ p.rows, row.IsChain Element.Follows := by
  rw [layout, Operation.isChain_layout, operations, List.forall_mem_map]
  exact forall₂_congr fun row member => Operation.isChain_pieces_ofRow (sound.ordered row member)

theorem sizes_layout {symmetric : Bool} {p : Partition α} :
    (∀ x ∈ p.layout symmetric, x.piece.size ≤ Header.maxSize) ↔
      ∀ row ∈ p.rows, ∀ col q values, .pattern col q values ∈ row → q.size ≤ Header.maxSize := by
  constructor
  · intro short row inRows col q values inRow
    obtain ⟨i, found⟩ := List.getElem?_of_mem inRows
    have placed : ⟨i, .pattern col q⟩ ∈ p.layout symmetric := by
      have op : (p.operations symmetric)[i]? = some (.ofRow symmetric p.rowStart row) := by
        rw [operations, List.getElem?_map, found, Option.map_some]
      have piece := Operation.pattern_mem_pieces_ofRow symmetric p.rowStart inRow
      exact List.mem_flatMap.mpr ⟨(_, i), List.mem_zipIdx_iff_getElem?.mpr op,
        List.mem_map_of_mem piece⟩
    exact short _ placed
  · intro small x member
    obtain ⟨row, found, -, cut⟩ := cutFrom_of_mem_layout member
    rcases x with ⟨i, piece⟩
    cases cut with
    | run _ short _ => exact short
    | pattern inRow => exact small row (List.mem_of_getElem? found) _ _ _ inRow

theorem decrease?_of_mem_layout {symmetric : Bool} {p : Partition α} {x : Placed} (sound : p.Sound)
    (member : x ∈ p.layout symmetric) : x.piece.decrease? = none := by
  obtain ⟨row, found, -, cut⟩ := cutFrom_of_mem_layout member
  rcases x with ⟨i, piece⟩
  cases cut with
  | run _ _ sub =>
    have ordered := sound.ordered row (List.mem_of_getElem? found)
    exact Piece.decrease?_run (ordered.sublist sub)
  | pattern _ => rfl

/-- No unit of a sound partition is refused exactly when the partition can be encoded. -/
theorem firstRefusal?_eq_none_iff {mode : ColumnMode} {symmetric : Bool} {p : Partition α}
    (sound : p.Sound) :
    Layout.firstRefusal? mode [] (p.layout symmetric) = none ↔ p.Encodable mode symmetric := by
  have lines := forall₂_congr fun row (member : row ∈ p.rows) =>
    Element.isChain_follows_iff (sound.ordered row member)
  rw [Layout.firstRefusal?_eq_none_iff (Nat.zero_le _), isChain_layout sound, lines,
    List.nil_append]
  constructor
  · rintro ⟨each, ⟨-, order⟩, kinds⟩
    have short := fun x member => (each x member).1
    exact ⟨sizes_layout.mp short, order, kinds, fun full x member => (each x member).2.2 full⟩
  · rintro ⟨sizes, order, kinds, columns⟩
    have short : ∀ x ∈ p.layout symmetric, _ := sizes_layout.mpr sizes
    refine ⟨?_, ⟨by simp, order⟩, kinds⟩
    intro x member
    exact ⟨short x member, decrease?_of_mem_layout sound member, fun full => columns full x member⟩

/-- With room in memory, a sound partition is encoded exactly when it can be, and otherwise the
first refusal is reported. -/
theorem encodeWith_outcome [Stored α] {p : Partition α} {s : Settings} {limit : Nat}
    (symmetric : Bool) (sound : p.Sound) (room : p.HasRoom s limit) :
    ((∃ m, (p.encodeWith s limit symmetric).1 = .ok m) ↔ p.Encodable s.mode symmetric) ∧
      ∀ failure, (p.encodeWith s limit symmetric).1 = .error failure →
        Layout.Blames s.mode (p.layout symmetric) failure := by
  have outcome := run_outcome sound s.mode symmetric (p.reserved s)
  rw [fst_encodeWith sound, room.stream, room.values, ← firstRefusal?_eq_none_iff sound]
  cases ran : Encoder.run s.mode symmetric (p.reserved s) p with
  | ok e =>
    rw [ran] at outcome
    refine ⟨⟨fun _ => outcome.1, fun _ => ⟨e.encoded p, rfl⟩⟩, ?_⟩
    intro failure failed
    cases failed
  | error stopped =>
    rw [ran] at outcome
    have refused : Layout.firstRefusal? s.mode [] (p.layout symmetric) = some stopped.error :=
      outcome
    refine ⟨⟨?_, ?_⟩, ?_⟩
    · rintro ⟨m, encoded⟩
      cases encoded
    · intro passed
      rw [passed] at refused
      contradiction
    · intro failure failed
      cases failed
      exact Layout.blames_of_firstRefusal? refused

end Partition

/-- The requests for the diagonal and for the lower triangle are met. -/
structure SymmetricPartition.HasRoom [Stored α] (s : Settings) (limit : Nat)
    (p : SymmetricPartition α) : Prop where
  diagonal : (Tracked.allocate limit p.diagonal.length (Stored.bytes α)).1 = .ok ()
  lower : p.lower.HasRoom s limit

/-- An accepted partition for which there is room is encoded exactly when it can be, in either
column mode, and so is the lower triangle of an accepted symmetric partition. Otherwise the failure
reports the first unit in stream order that is refused. -/
theorem encode_eq_ok_iff_encodable [Zero α] [Stored α] (s : Settings) (limit : Nat) :
    (∀ p : Partition α, p.Accepted → p.HasRoom s limit →
      ((∃ m, (p.encode s limit).1 = .ok m) ↔ p.Encodable s.mode false) ∧
        ∀ failure, (p.encode s limit).1 = .error failure →
          Layout.Blames s.mode (p.layout false) failure) ∧
    (∀ p : SymmetricPartition α, p.Accepted → p.HasRoom s limit →
      ((∃ m, (p.encode s limit).1 = .ok m) ↔ p.lower.Encodable s.mode true) ∧
        ∀ failure, (p.encode s limit).1 = .error failure →
          Layout.Blames s.mode (p.lower.layout true) failure) := by
  constructor
  · intro p accepted room
    exact Partition.encodeWith_outcome false accepted.sound room
  · intro p accepted room
    have below := Partition.encodeWith_outcome true accepted.lower.sound room.lower
    have encoded : (p.encode s limit).1 = (p.lower.encodeWith s limit true).1 >>= fun lower =>
        .ok ⟨p.diagonal.toArray, lower⟩ := by
      simp only [SymmetricPartition.encode, Tracked.fst_bind, room.diagonal]
      rfl
    rw [encoded]
    cases outcome : (p.lower.encodeWith s limit true).1 with
    | ok lower =>
      rw [outcome] at below
      refine ⟨⟨fun _ => below.1.mp ⟨lower, rfl⟩, fun _ => ⟨_, rfl⟩⟩, ?_⟩
      intro failure failed
      cases failed
    | error failure =>
      rw [outcome] at below
      refine ⟨⟨?_, ?_⟩, ?_⟩
      · rintro ⟨m, found⟩
        cases found
      · intro can
        obtain ⟨m, found⟩ := below.1.mpr can
        cases found
      · intro _ failed
        cases failed
        exact below.2 failure rfl

/-- An element between the columns of a line is refused, a diagonal beside it is not. -/
theorem encode_refuses_interleaved_line :
    let line : Pattern := ⟨.simple .horizontal 2, 3⟩
    let p : Partition Int32 := ⟨0, 10, 4, [[.pattern 0 line [1, 2, 3], .plain 3 4]], 0⟩
    let q : SymmetricPartition Int32 := ⟨⟨5, 10, 2, [[.plain 1 7], [.plain 5 8]], 0⟩, [1, 2]⟩
    (∃ failure, (p.encode {} allocationLimit).1 = .error failure ∧
      Layout.Blames .jump (p.layout false) failure) ∧
    q.lower.Encodable .full true := by
  intro line p q
  have admitted : line.Admitted :=
    .line (by decide : 2 < strideLimit) (by decide : 3 < wordLimit)
      (rfl : Pattern.line .horizontal 2 3 = _)
  have made : Partition.ofRows 0 10 p.rows = .ok p := rfl
  have accepted : p.Accepted :=
    .rows (by decide) (by simp [p, Element.Admitted, admitted]) made
  have madeBelow : Partition.ofRows 5 10 q.lower.rows = .ok q.lower := rfl
  have below : q.lower.Accepted := .rows (by decide) (by simp [q, Element.Admitted]) madeBelow
  have symmetric : q.Accepted :=
    .make below (rfl : SymmetricPartition.make q.lower [1, 2] = .ok q)
  constructor
  · have room : p.HasRoom {} allocationLimit := ⟨by decide +kernel, by decide +kernel⟩
    obtain ⟨can, blames⟩ := (encode_eq_ok_iff_encodable {} allocationLimit).1 p accepted room
    cases encoded : (p.encode {} allocationLimit).1 with
    | ok m =>
      have encodable := can.mp ⟨m, encoded⟩
      have behind : 0 + (3 - 1) * 2 ≤ 3 :=
        encodable.order _ (List.mem_singleton_self _) [] 0 2 3 [1, 2, 3] (.plain 3 4) [] rfl
      omega
    | error failure => exact ⟨failure, rfl, blames failure encoded⟩
  · have succeeds : (q.encode { mode := .full } allocationLimit).1.isOk = true := by decide +kernel
    have room : q.HasRoom { mode := .full } allocationLimit :=
      ⟨by decide +kernel, by decide +kernel, by decide +kernel⟩
    have both := (encode_eq_ok_iff_encodable { mode := .full } allocationLimit).2 q symmetric room
    cases encoded : (q.encode { mode := .full } allocationLimit).1 with
    | ok m => exact both.1.mp ⟨m, encoded⟩
    | error failure =>
      rw [encoded] at succeeds
      contradiction

end SparseStream
