import SparseStream.Proofs.Accepted
import SparseStream.Proofs.Grammar

/-! What holds of the units of any bytes, under any table. Units up to the first fault are spelled
one after another like those of a sound stream, so their rows, columns and sizes are words; a run
has all its cells then, and a pattern has them unless one leaves the range of rows and columns. -/
namespace SparseStream

/-- The units before a fault are spelled by the bytes before it. -/
theorem exists_spellsUnits_unitsFrom (table : KindTable) (mode : ColumnMode) (here : Position)
    (r : Reader) :
    ∃ front back, r.rest = front ++ back ∧
      SpellsUnits table mode here r.offset front (unitsFrom table mode here r).1 := by
  fun_induction unitsFrom table mode here r with
  | case1 here r stop => exact ⟨[], r.rest, rfl, .nil⟩
  | case2 here r more c failed => exact ⟨[], r.rest, rfl, .nil⟩
  | case3 here r more u next r' read us fault rest ih =>
    obtain ⟨bytes, spells, rfl, before⟩ := readUnit_eq_ok_iff.mp read
    obtain ⟨front, back, cut, later⟩ := ih
    rw [rest, before.offset] at later
    exact ⟨bytes ++ front, back, by rw [before.rest, cut, List.append_assoc], .cons spells later⟩

namespace StreamUnit

/-- The numbers of a unit fit what holds them. -/
structure InWords (u : StreamUnit) : Prop where
  flag : u.flag < 64
  covers : 1 ≤ u.size
  size : u.size ≤ Header.maxSize
  deltas : ∀ w, u.kind = .run w → u.deltas.length + 1 = u.size
  row : u.row < wordLimit
  rowJump : ∀ n ∈ u.rowJump, n < wordLimit
  last : u.last < wordLimit

end StreamUnit

theorem SpellsRow.lt_wordLimit {flags : UInt8} {row row' : Nat} {bytes : List UInt8}
    {jump : Option Nat} (here : row < wordLimit) (spells : SpellsRow flags row bytes jump row') :
    row' < wordLimit ∧ ∀ n ∈ jump, n < wordLimit := by
  cases spells with
  | same => exact ⟨here, by simp⟩
  | next _ _ word => exact ⟨word, by simp⟩
  | jump _ _ _ word => exact ⟨word, by simp; omega⟩

/-- One unit, read on a row that is a word. -/
theorem SpellsUnit.inWords {table : KindTable} {mode : ColumnMode} {here : Position} {offset : Nat}
    {bytes : List UInt8} {u : StreamUnit} (row : here.row < wordLimit)
    (spells : SpellsUnit table mode here offset bytes u) : u.InWords := by
  cases spells with
  | @intro flags size jump column payload kind rowJump row' col deltas known covers spellsRow
      spellsColumn spellsPayload =>
    have rows := spellsRow.lt_wordLimit row
    have small : size.toNat ≤ Header.maxSize := Nat.le_of_lt_succ size.toNat_lt
    cases spellsPayload with
    | run length fit word =>
      exact ⟨Header.flag_lt flags, covers, small, fun _ _ => length, rows.1, rows.2, word⟩
    | pattern word =>
      exact ⟨Header.flag_lt flags, covers, small, nofun, rows.1, rows.2, word⟩

theorem SpellsUnit.kind?_flag {table : KindTable} {mode : ColumnMode} {here : Position}
    {offset : Nat} {bytes : List UInt8} {u : StreamUnit}
    (spells : SpellsUnit table mode here offset bytes u) : table.kind? u.flag = some u.kind := by
  cases spells with
  | intro known => exact known

/-- All units of a stretch, by induction along it: the row of each is the row that the next one is
read on. -/
theorem SpellsUnits.forall_inWords {table : KindTable} {mode : ColumnMode} {here : Position}
    {offset : Nat} {bytes : List UInt8} {us : List StreamUnit} (row : here.row < wordLimit)
    (spells : SpellsUnits table mode here offset bytes us) :
    ∀ u ∈ us, u.InWords ∧ table.kind? u.flag = some u.kind := by
  induction spells with
  | nil => simp
  | cons first later ih =>
    have words := first.inWords row
    exact List.forall_mem_cons.mpr ⟨⟨words, first.kind?_flag⟩, ih words.row⟩

theorem inWords_of_mem_units {table : KindTable} {mode : ColumnMode} {bytes : List UInt8}
    {u : StreamUnit} (member : u ∈ (units table mode bytes).1) :
    u.InWords ∧ table.kind? u.flag = some u.kind := by
  obtain ⟨front, back, -, spells⟩ := exists_spellsUnits_unitsFrom table mode {} ⟨0, bytes⟩
  exact spells.forall_inWords (by decide) u member

/-- Steps that each succeed or fail in one and the same way. -/
theorem mapM_ok_or_error (xs : List β) {f : β → Except ε γ} {P : γ → Prop} {failure : ε}
    (each : ∀ x ∈ xs, (∃ y, f x = .ok y ∧ P y) ∨ f x = .error failure) :
    (∃ ys, xs.mapM f = .ok ys ∧ ys.length = xs.length ∧ ∀ y ∈ ys, P y) ∨
      xs.mapM f = .error failure := by
  induction xs with
  | nil => exact .inl ⟨[], rfl, rfl, by simp⟩
  | cons x xs ih =>
    rw [List.forall_mem_cons] at each
    rw [List.mapM_cons]
    rcases each.1 with ⟨y, first, holds⟩ | first
    · rw [first]
      rcases ih each.2 with ⟨ys, rest, length, all⟩ | rest
      · rw [rest]
        exact .inl ⟨y :: ys, rfl, by simp [length], List.forall_mem_cons.mpr ⟨holds, all⟩⟩
      · rw [rest]
        exact .inr rfl
    · rw [first]
      exact .inr rfl

/-- A block with a dimension of zero. It has no place for any element. -/
def Shape.ZeroBlock (s : Shape) : Prop :=
  ∃ d, s = .block (.blockRow 0) d ∨ s = .block (.blockCol 0) d

namespace StreamUnit

/-- What comes of asking a unit for its cells: as many as its size says and all in range, or an error
which tells that its pattern leaves the range. Only a block with a dimension of zero has neither. -/
structure CellsOutcome (u : StreamUnit) : Prop where
  outOfBounds_iff :
    u.cells = .error .outOfBounds ↔ ∃ shape, u.kind = .pattern shape ∧ shape.ZeroBlock
  leavesRange : ∀ e, u.cells = .error (.error e) →
    ∃ shape, u.kind = .pattern shape ∧ e = .pattern (.leavesRange shape u.row u.col)
  inRange : ∀ cells, u.cells = .ok cells →
    cells.length = u.size ∧ ∀ c ∈ cells, c.1 < wordLimit ∧ c.2 < wordLimit

/-- The columns of a run are the running sums of its differences. -/
theorem runColumns_eq_scanl {offset col : Nat} {ds : List Nat} (word : col + total ds < wordLimit) :
    runColumns offset col ds = .ok (ds.scanl (· + ·) col) := by
  induction ds generalizing col with
  | nil => rfl
  | cons d ds ih =>
    rw [total_cons, ← Nat.add_assoc] at word
    have step : advanceColumn offset col d = .ok (col + d) := if_pos (by omega)
    rw [runColumns, step, List.scanl_cons]
    simp only [bind, Except.bind, ih word]
    rfl

theorem le_of_mem_scanl {col c : Nat} {ds : List Nat} (member : c ∈ ds.scanl (· + ·) col) :
    c ≤ col + total ds := by
  induction ds generalizing col with
  | nil => exact Nat.le_of_eq (List.mem_singleton.mp member)
  | cons d ds ih =>
    rw [List.scanl_cons] at member
    rw [total_cons, ← Nat.add_assoc]
    rcases List.mem_cons.mp member with rfl | later
    · omega
    · exact ih later

variable {u : StreamUnit}

theorem InWords.total_deltas {w : Width} (words : u.InWords) (run : u.kind = .run w) :
    u.col + total u.deltas < wordLimit := by
  simpa only [StreamUnit.last, run] using words.last

theorem InWords.cells_run {w : Width} (words : u.InWords) (run : u.kind = .run w) :
    u.cells = .ok ((u.deltas.scanl (· + ·) u.col).map (u.row, ·)) := by
  simp only [cells, run, runColumns_eq_scanl (words.total_deltas run)]
  rfl

/-- A cell of a pattern is a pair of words, or leaves the range of rows and columns. -/
theorem patternCell_outcome {shape : Shape} (filled : ¬shape.ZeroBlock) (i : Nat) :
    (∃ cell, u.patternCell shape i = .ok cell ∧ cell.1 < wordLimit ∧ cell.2 < wordLimit) ∨
      u.patternCell shape i
        = .error (.error (.pattern (.leavesRange shape u.row u.col))) := by
  cases found : shape.offset? i with
  | none => exact absurd (Shape.offset?_eq_none_iff.mp found) filled
  | some step =>
    obtain ⟨down, right⟩ := step
    simp only [patternCell, found, access, Option.elim_some, bind, Except.bind]
    cases moved : moveColumn? u.col right with
    | none => exact .inr rfl
    | some c =>
      by_cases word : u.row + down < wordLimit
      · have column : c < wordLimit := by
          obtain ⟨-, -, high, rfl⟩ := moveColumn?_eq_some_iff.mp moved
          have limits : signedLimit < wordLimit := by decide
          omega
        exact .inl ⟨(u.row + down, c), if_pos word, word, column⟩
      · exact .inr (if_neg word)

theorem cells_pattern {shape : Shape} (kind : u.kind = .pattern shape)
    (filled : ¬shape.ZeroBlock) :
    (∃ cells, u.cells = .ok cells ∧ cells.length = u.size ∧
      ∀ c ∈ cells, c.1 < wordLimit ∧ c.2 < wordLimit) ∨
      u.cells = .error (.error (.pattern (.leavesRange shape u.row u.col))) := by
  have outcome := mapM_ok_or_error (List.range u.size) fun i _ =>
    patternCell_outcome (u := u) filled i
  rw [List.length_range] at outcome
  simpa only [StreamUnit.cells, kind] using outcome

theorem InWords.cells_zeroBlock {shape : Shape} (words : u.InWords) (kind : u.kind = .pattern shape)
    (empty : shape.ZeroBlock) : u.cells = .error .outOfBounds := by
  have first : u.patternCell shape 0 = .error .outOfBounds := by
    rw [patternCell, Shape.offset?_eq_none_iff.mpr empty]
    rfl
  obtain ⟨n, size⟩ := Nat.exists_eq_add_of_le' words.covers
  simp only [cells, kind, size, List.range_succ_eq_map, List.mapM_cons, first]
  rfl

theorem InWords.cellsOutcome (words : u.InWords) : u.CellsOutcome := by
  cases kind : u.kind with
  | run w =>
    have found := words.cells_run kind
    refine ⟨by simp [found, kind], by simp [found], ?_⟩
    intro cells same
    cases found.symm.trans same
    rw [List.length_map, List.length_scanl, words.deltas w kind]
    refine ⟨rfl, List.forall_mem_map.mpr fun c member => ⟨words.row, ?_⟩⟩
    exact Nat.lt_of_le_of_lt (le_of_mem_scanl member) (words.total_deltas kind)
  | pattern shape =>
    by_cases empty : shape.ZeroBlock
    · have failed := words.cells_zeroBlock kind empty
      exact ⟨by simp [failed, kind, empty], by simp [failed], by simp [failed]⟩
    · rcases cells_pattern kind empty with ⟨cells, found, length, all⟩ | failed
      · refine ⟨by simp [found, kind, empty], by simp [found], ?_⟩
        intro cells' same
        cases found.symm.trans same
        exact ⟨length, all⟩
      · refine ⟨by simp [failed, kind, empty], ?_, by simp [failed]⟩
        intro e same
        cases failed.symm.trans same
        exact ⟨shape, kind, rfl⟩

end StreamUnit
end SparseStream
