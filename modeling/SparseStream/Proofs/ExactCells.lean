import SparseStream.Proofs.Expansion
import SparseStream.Proofs.ForeignTable

/-! The cells of units in exact arithmetic. Rows are words and columns of patterns pass through signed
words, so that a sum could come back into range after it has left it. None does: where a unit has its
cells, they are those that are worked out with numbers of any size. -/
namespace SparseStream

/-- A word of `signedLimit` or more is negative as a signed word. -/
theorem toSigned_lt_zero {n : Nat} (large : signedLimit ≤ n) (word : n < wordLimit) :
    toSigned n < 0 := by
  have half : (wordLimit : Int) = 2 * signedLimit := by decide
  have rest : (n : Int) % wordLimit = n := Int.emod_eq_of_lt (by omega) (by omega)
  rw [toSigned, Int.bmod_def, rest]
  split <;> omega

/-- Steps that all fail in the same way give all their results, or fail in this way. -/
theorem mapM_checked {xs : List β} {P : β → Prop} [DecidablePred P] {g : β → Except ε γ} {f : β → γ}
    {failure : ε} (each : ∀ x ∈ xs, g x = if P x then .ok (f x) else .error failure) :
    xs.mapM g = if ∀ x ∈ xs, P x then .ok (xs.map f) else .error failure := by
  induction xs with
  | nil => rfl
  | cons x xs ih =>
    rw [List.forall_mem_cons] at each
    rw [List.mapM_cons, each.1, ih each.2]
    by_cases first : P x
    · by_cases rest : ∀ y ∈ xs, P y
      · rw [if_pos first, if_pos rest, if_pos (List.forall_mem_cons.mpr ⟨first, rest⟩)]
        rfl
      · rw [if_pos first, if_neg rest, if_neg fun all => rest (List.forall_mem_cons.mp all).2]
        rfl
    · rw [if_neg first, if_neg fun all => first (List.forall_mem_cons.mp all).1]
      rfl

/-- Running sums are the sums of the items up to each place. -/
theorem scanl_eq_map_total (start : Nat) (ns : List Nat) :
    ns.scanl (· + ·) start
      = (List.range (ns.length + 1)).map fun i => start + total (ns.take i) := by
  induction ns generalizing start with
  | nil => rfl
  | cons n ns ih =>
    rw [List.scanl_cons, ih, List.length_cons, List.range_succ_eq_map (n := ns.length + 1),
      List.map_cons, List.map_map]
    refine congrArg _ (List.map_congr_left fun i _ => ?_)
    exact Nat.add_assoc start n (total (ns.take i))

namespace Shape

/-- How far element `i` lies from the anchor, in rows and columns, for a shape that has a place for
each element. -/
def place : Shape → Nat → Nat × Int
  | simple order stride, i =>
    ((i * stride) * order.direction.1, (i * stride : Nat) * order.direction.2)
  | block (.blockRow rows) _, i => (i % rows, (i / rows : Nat))
  | block (.blockCol cols) _, i => (i / cols, (i % cols : Nat))
  | block _ _, i => (0, i)

theorem place_zero (s : Shape) : s.place 0 = (0, 0) := by
  rcases s with ⟨order, stride⟩ | ⟨order, dim⟩
  · simp [place]
  · cases order <;> simp [place]

/-- The elements of one unit are closer to the anchor than the signed words reach. -/
theorem Narrow.columns_lt {s : Shape} {i : Nat} (narrow : s.Narrow) (inside : i ≤ Header.maxSize) :
    -(signedLimit : Int) ≤ (s.place i).2 ∧ (s.place i).2 < signedLimit := by
  have small : Header.maxSize < signedLimit := by decide
  have near : ∀ n ≤ i, -(signedLimit : Int) ≤ (n : Nat) ∧ ((n : Nat) : Int) < signedLimit := by
    omega
  rcases s with ⟨order, stride⟩ | ⟨order, dim⟩
  · have step := narrow.step_lt inside
    obtain ⟨left, right⟩ := order.columns_le (i * stride)
    rw [place]
    omega
  · cases order with
    | blockRow rows => exact near (i / rows) (Nat.div_le_self i rows)
    | blockCol cols => exact near (i % cols) (Nat.mod_le i cols)
    | _ => exact near i (Nat.le_refl i)

/-- Offsets are places with their columns as signed words. -/
theorem offset?_eq_toSigned {s : Shape} (filled : ¬s.ZeroBlock) (i : Nat) :
    s.offset? i = some ((s.place i).1, toSigned (s.place i).2) := by
  rcases s with ⟨order, stride⟩ | ⟨order, dim⟩
  · rw [offset?_simple, place]
  · cases order with
    | blockRow rows => exact if_neg fun zero : rows = 0 => filled ⟨dim, .inl (zero ▸ rfl)⟩
    | blockCol cols => exact if_neg fun zero : cols = 0 => filled ⟨dim, .inr (zero ▸ rfl)⟩
    | _ => rfl

/-- Within one unit, the signed word of an offset is the offset itself. -/
theorem offset?_eq_place {s : Shape} {i : Nat} (narrow : s.Narrow) (filled : ¬s.ZeroBlock)
    (inside : i ≤ Header.maxSize) : s.offset? i = some (s.place i) := by
  obtain ⟨left, right⟩ := narrow.columns_lt inside
  rw [offset?_eq_toSigned filled, toSigned_eq_self left right]

end Shape

/-- Element `i` of a pattern with sums that nobody checks: rows wrap around as words, columns as
signed words. -/
def Pattern.wrappedCell? (p : Pattern) (row col i : Nat) : Option Cell := do
  let (down, right) ← p.shape.offset? i
  let c := toSigned (toSigned col + right)
  if 0 ≤ c then some ((row + down) % wordLimit, c.toNat) else none

namespace StreamUnit

/-- Element `i` of a pattern with its column cast to a signed word and every sum checked for
overflow. -/
def signedCell (u : StreamUnit) (shape : Shape) (i : Nat) : Except Failure Cell := do
  let (down, right) ← access (shape.offset? i)
  let c := toSigned u.col + right
  if u.row + down < wordLimit ∧ 0 ≤ c ∧ c < signedLimit then return (u.row + down, c.toNat)
  else throw (.error (.pattern (.leavesRange shape u.row u.col)))

/-- Where element `i` lies, in exact arithmetic. -/
def placed (u : StreamUnit) (shape : Shape) (i : Nat) : Cell :=
  (u.row + (shape.place i).1, (u.col + (shape.place i).2).toNat)

/-- Element `i` lies on a row that is a word and in a column that is a signed word, not negative. -/
def Holds (u : StreamUnit) (shape : Shape) (i : Nat) : Prop :=
  u.row + (shape.place i).1 < wordLimit ∧
    0 ≤ u.col + (shape.place i).2 ∧ u.col + (shape.place i).2 < signedLimit

instance (u : StreamUnit) (shape : Shape) : DecidablePred (u.Holds shape) :=
  fun _ => inferInstanceAs (Decidable (_ ∧ _ ∧ _))

/-- A pattern unit whose elements all have a place. -/
def Fits (u : StreamUnit) (shape : Shape) : Prop :=
  u.col < signedLimit ∧ ∀ i < u.size, u.Holds shape i

instance (u : StreamUnit) (shape : Shape) : Decidable (u.Fits shape) :=
  inferInstanceAs (Decidable (_ ∧ ∀ i < _, _))

/-- The cells of a run: one for each element, all on one row, each a difference further. -/
structure ExactRun (u : StreamUnit) : Prop where
  deltas : u.deltas.length + 1 = u.size
  words : u.col + total u.deltas < wordLimit
  cells : u.cells
    = .ok ((List.range u.size).map fun i => (u.row, u.col + total (u.deltas.take i)))

/-- The cells of a pattern: all of its elements where they lie, or an error when one of them has no
place. Signed words come to the same, and so do the cells of the pattern for itself. -/
structure ExactPattern (u : StreamUnit) (shape : Shape) : Prop where
  fits : u.Fits shape → u.cells = .ok ((List.range u.size).map (u.placed shape))
  leaves : ¬u.Fits shape → u.cells = .error (.error (.pattern (.leavesRange shape u.row u.col)))
  signed : u.cells = (List.range u.size).mapM (u.signedCell shape)
  expansion : ∀ cells, u.cells = .ok cells →
    (Pattern.mk shape u.size).cells? u.row u.col = some cells ∧
      (List.range u.size).mapM ((Pattern.mk shape u.size).wrappedCell? u.row u.col) = some cells

variable {u : StreamUnit} {shape : Shape}

theorem InWords.exactRun {w : Width} (words : u.InWords) (run : u.kind = .run w) : u.ExactRun where
  deltas := words.deltas w run
  words := words.total_deltas run
  cells := by
    rw [words.cells_run run, scanl_eq_map_total, words.deltas w run, List.map_map]
    rfl

theorem InWords.col_lt (words : u.InWords) : u.col < wordLimit := by
  refine Nat.lt_of_le_of_lt ?_ words.last
  unfold StreamUnit.last
  split <;> exact Nat.le_add_right _ _

theorem patternCell_eq_ite {i : Nat} (offset : shape.offset? i = some (shape.place i)) :
    u.patternCell shape i = if u.col < signedLimit ∧ u.Holds shape i then .ok (u.placed shape i)
      else .error (.error (.pattern (.leavesRange shape u.row u.col))) := by
  simp only [patternCell, offset, access, Option.elim_some, bind, Except.bind]
  by_cases column : u.col < signedLimit ∧ 0 ≤ (u.col : Int) + (shape.place i).2 ∧
      (u.col : Int) + (shape.place i).2 < signedLimit
  · have moved : moveColumn? u.col (shape.place i).2 = some (u.col + (shape.place i).2).toNat :=
      if_pos column
    rw [moved]
    by_cases row : u.row + (shape.place i).1 < wordLimit
    · exact (if_pos row).trans (if_pos ⟨column.1, row, column.2⟩).symm
    · exact (if_neg row).trans (if_neg fun holds => row holds.2.1).symm
  · have moved : moveColumn? u.col (shape.place i).2 = none := if_neg column
    rw [moved]
    exact (if_neg fun holds => column ⟨holds.1, holds.2.2⟩).symm

theorem signedCell_eq_ite {i : Nat} (offset : shape.offset? i = some (shape.place i))
    (near : u.col < signedLimit) :
    u.signedCell shape i = if u.Holds shape i then .ok (u.placed shape i)
      else .error (.error (.pattern (.leavesRange shape u.row u.col))) := by
  have column : toSigned u.col = u.col := toSigned_eq_self (by omega) (by omega)
  simp only [signedCell, offset, access, Option.elim_some, bind, Except.bind, column]
  rfl

/-- A column beyond the signed words is negative there, and fails at the anchor. -/
theorem signedCell_zero (offset : shape.offset? 0 = some (shape.place 0)) (word : u.col < wordLimit)
    (far : signedLimit ≤ u.col) :
    u.signedCell shape 0 = .error (.error (.pattern (.leavesRange shape u.row u.col))) := by
  have negative := toSigned_lt_zero far word
  rw [Shape.place_zero] at offset
  simp only [signedCell, offset, access, Option.elim_some, bind, Except.bind, Int.add_zero]
  exact if_neg fun inside => by omega

theorem forall_range_holds_iff (covers : 1 ≤ u.size) :
    (∀ i ∈ List.range u.size, u.col < signedLimit ∧ u.Holds shape i) ↔ u.Fits shape := by
  simp only [List.mem_range]
  constructor
  · exact fun all => ⟨(all 0 covers).1, fun i inside => (all i inside).2⟩
  · exact fun fits i inside => ⟨fits.1, fits.2 i inside⟩

/-- One test for all cells of a pattern. -/
theorem cells_eq_ite (kind : u.kind = .pattern shape) (covers : 1 ≤ u.size)
    (offset : ∀ i < u.size, shape.offset? i = some (shape.place i)) :
    u.cells = if u.Fits shape then .ok ((List.range u.size).map (u.placed shape))
      else .error (.error (.pattern (.leavesRange shape u.row u.col))) := by
  simp only [cells, kind]
  rw [mapM_checked fun i member => patternCell_eq_ite (offset i (List.mem_range.mp member))]
  exact if_congr (forall_range_holds_iff covers) rfl rfl

/-- The same test on signed words: a column beyond them is met at the anchor. -/
theorem mapM_signedCell (word : u.col < wordLimit) (covers : 1 ≤ u.size)
    (offset : ∀ i < u.size, shape.offset? i = some (shape.place i)) :
    (List.range u.size).mapM (u.signedCell shape)
      = if u.Fits shape then .ok ((List.range u.size).map (u.placed shape))
        else .error (.error (.pattern (.leavesRange shape u.row u.col))) := by
  by_cases near : u.col < signedLimit
  · rw [mapM_checked fun i member => signedCell_eq_ite (offset i (List.mem_range.mp member)) near]
    refine if_congr ?_ rfl rfl
    rw [← forall_range_holds_iff covers]
    exact forall₂_congr fun i _ => (and_iff_right near).symm
  · have first := signedCell_zero (offset 0 covers) word (Nat.le_of_not_lt near)
    obtain ⟨n, size⟩ := Nat.exists_eq_add_of_le' covers
    rw [if_neg fun fits => near fits.1, size, List.range_succ_eq_map, List.mapM_cons, first]
    rfl

variable {i : Nat}

theorem cell?_eq_placed (near : u.col < signedLimit)
    (offset : shape.offset? i = some (shape.place i)) (holds : u.Holds shape i) :
    (Pattern.mk shape u.size).cell? u.row u.col i = some (u.placed shape i) := by
  have moved : moveColumn? u.col (shape.place i).2 = some (u.placed shape i).2 :=
    moveColumn?_eq_some_iff.mpr ⟨near, holds.2.1, holds.2.2, rfl⟩
  exact Pattern.cell?_eq_some_iff.mpr ⟨_, _, offset, rfl, moved⟩

theorem wrappedCell?_eq_placed (near : u.col < signedLimit)
    (offset : shape.offset? i = some (shape.place i)) (holds : u.Holds shape i) :
    (Pattern.mk shape u.size).wrappedCell? u.row u.col i = some (u.placed shape i) := by
  obtain ⟨row, low, high⟩ := holds
  have column : toSigned u.col = u.col := toSigned_eq_self (by omega) (by omega)
  have sum : toSigned (u.col + (shape.place i).2) = u.col + (shape.place i).2 :=
    toSigned_eq_self (by omega) high
  simp only [Pattern.wrappedCell?, offset, bind, Option.bind, column, sum, if_pos low,
    Nat.mod_eq_of_lt row]
  rfl

theorem InWords.exactPattern (words : u.InWords) (kind : u.kind = .pattern shape)
    (narrow : shape.Narrow) (filled : ¬shape.ZeroBlock) : u.ExactPattern shape := by
  have offset : ∀ i < u.size, shape.offset? i = some (shape.place i) := fun i inside =>
    Shape.offset?_eq_place narrow filled (Nat.le_of_lt (Nat.lt_of_lt_of_le inside words.size))
  have outcome := cells_eq_ite kind words.covers offset
  refine ⟨fun fits => outcome.trans (if_pos fits), fun leaves => outcome.trans (if_neg leaves),
    outcome.trans (mapM_signedCell words.col_lt words.covers offset).symm, ?_⟩
  intro cells found
  by_cases fits : u.Fits shape
  · rw [outcome, if_pos fits, Except.ok.injEq] at found
    subst found
    refine ⟨Pattern.cells?_of_cell? fun i inside =>
      cell?_eq_placed fits.1 (offset i inside) (fits.2 i inside), ?_⟩
    rw [mapM_eq_some_iff, List.map_map]
    refine List.map_congr_left fun i member => ?_
    have inside := List.mem_range.mp member
    exact wrappedCell?_eq_placed fits.1 (offset i inside) (fits.2 i inside)
  · rw [outcome, if_neg fits] at found
    contradiction

end StreamUnit

/-- The cells of all units that a reader takes from any bytes, under a table whose blocks have no
dimension of zero. A run has one cell for each of its elements, at the sums of its differences. A
pattern has its cells exactly when each element lies on a row that is a word and in a column that is
a signed word, and they are where these elements lie; else an error tells that it leaves the range. -/
theorem cells_exact {table : KindTable} (narrow : table.Narrow)
    (filled : ∀ e ∈ table.entries, ∀ shape, e.kind = .pattern shape → ¬shape.ZeroBlock)
    (mode : ColumnMode) (bytes : List UInt8) :
    ∀ u ∈ (units table mode bytes).1,
      (∀ w, u.kind = .run w → u.ExactRun) ∧
      ∀ shape, u.kind = .pattern shape → u.ExactPattern shape := by
  intro u member
  obtain ⟨words, known⟩ := inWords_of_mem_units member
  obtain ⟨e, inTable, -, kind⟩ := KindTable.mem_of_kind? known
  refine ⟨fun w => words.exactRun, ?_⟩
  intro shape pattern
  have within := (narrow e inTable).kind
  rw [kind, pattern] at within
  exact words.exactPattern pattern within (filled e inTable shape (kind.trans pattern))

/-- A run of three, and a diagonal of two anchored in the last column that is a word: with sums that
wrap around its second cell would lie in the first column again. -/
theorem cells_exact_past_last_column :
    let diagonal : Shape := .simple .diagonal 1
    let table : KindTable := ⟨[⟨.run .u8, 0, 1, 3⟩, ⟨.pattern diagonal, 1, 1, 2⟩]⟩
    let bytes := [0, 3, 5, 1, 2, 1, 2, 247, 255, 255, 255, 255, 255, 255, 255, 255, 1]
    table.Narrow ∧
      (∀ e ∈ table.entries, ∀ shape, e.kind = .pattern shape → ¬shape.ZeroBlock) ∧
      (units table .jump bytes).1.map StreamUnit.cells
        = [.ok [(0, 5), (0, 6), (0, 8)],
          .error (.error (.pattern (.leavesRange diagonal 0 (wordLimit - 1))))] ∧
      ∀ u ∈ (units table .jump bytes).1,
        (∀ w, u.kind = .run w → u.ExactRun) ∧
        ∀ shape, u.kind = .pattern shape → u.ExactPattern shape := by
  intro diagonal table bytes
  have narrow : table.Narrow := by
    rintro e (- | ⟨-, - | ⟨-, ⟨⟩⟩⟩)
    · exact ⟨trivial, by decide, by decide, by decide⟩
    · exact ⟨⟨nofun, by decide⟩, by decide, by decide, by decide⟩
  have filled : ∀ e ∈ table.entries, ∀ shape, e.kind = .pattern shape → ¬shape.ZeroBlock := by
    rintro e (- | ⟨-, - | ⟨-, ⟨⟩⟩⟩) shape ⟨⟩
    rintro ⟨dim, block | block⟩ <;> contradiction
  exact ⟨narrow, filled, by decide +kernel, cells_exact narrow filled .jump bytes⟩

end SparseStream
