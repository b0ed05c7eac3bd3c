import SparseStream.Proofs.Frame
import SparseStream.Proofs.RoundTrip

/-! Pending columns turned into differences in place. The pass goes down from the last column, so
that each column still finds the one before it as it was. It is through exactly when no column is
below the one before it, and then the differences lead back to all columns. Otherwise it stops at
the last such column and leaves what is before it alone. -/
namespace SparseStream

/-- Overwrites columns with their distances from the columns before them, from an index down to
index one. It stops at a column that is below the one before it. -/
def differencesDown (cols : List Nat) : Nat → List Nat × Option (Nat × Nat)
  | 0 => (cols, none)
  | i + 1 =>
    let col := cols.getD (i + 1) 0
    let previous := cols.getD i 0
    if col < previous then (cols, some (col, previous))
    else differencesDown (cols.set (i + 1) (col - previous)) i

/-- Columns with those from index `i` on replaced by their distances from the ones before them. -/
def turnedFrom (i : Nat) (cols : List Nat) : List Nat :=
  cols.take i ++ (cols.drop i).zipWith (· - ·) (cols.drop (i - 1))

/-- A pass over the end of a list, by induction on that end. The differences come from the columns
as they were, since a column is overwritten before the one in front of it. -/
theorem differencesDown_append (front : List Nat) (previous : Nat) (cols : List Nat) :
    differencesDown (front ++ previous :: cols) (front.length + cols.length)
      = match differences previous cols with
        | (steps, some fault) => (front ++ previous :: steps, some fault)
        | (steps, none) => differencesDown (front ++ previous :: steps) front.length := by
  induction cols generalizing front previous with
  | nil => rfl
  | cons col cols ih =>
    have later := ih (front ++ [previous]) col
    have place : (front ++ [previous]).length + cols.length
        = front.length + (col :: cols).length := by
      simp only [List.length_append, List.length_cons, List.length_nil]
      omega
    rw [place, List.append_assoc, List.singleton_append] at later
    rw [later, differences]
    rcases differences col cols with ⟨steps, fault⟩
    cases fault with
    | some fault => simp
    | none =>
      -- the columns behind `col` are done, and `previous` is still what it was
      have here : (front ++ [previous]).length = front.length + 1 := List.length_append
      simp only [here, List.append_assoc, List.singleton_append]
      rw [differencesDown]
      by_cases decreases : col < previous
      · simp [decreases]
      · simp [decreases]

/-- The pass over all columns. -/
theorem differencesDown_eq (first : Nat) (rest : List Nat) :
    differencesDown (first :: rest) rest.length
      = (first :: (differences first rest).1, (differences first rest).2) := by
  have whole := differencesDown_append [] first rest
  simp only [List.length_nil, Nat.zero_add, List.nil_append] at whole
  rw [whole]
  rcases differences first rest with ⟨steps, _ | fault⟩ <;> rfl

/-- The fault of a pass is the last decrease. -/
theorem exists_last_decrease {first col previous : Nat} {rest : List Nat}
    (fault : (differences first rest).2 = some (col, previous)) :
    ∃ front back, first :: rest = front ++ previous :: col :: back ∧ col < previous ∧
      (col :: back).Pairwise (· ≤ ·) ∧
      first :: (differences first rest).1
        = front ++ previous :: col :: back.zipWith (· - ·) (col :: back) := by
  induction rest generalizing first with
  | nil => contradiction
  | cons c rest ih =>
    rw [differences] at fault ⊢
    have ordered := @differences_ordered c rest
    have sorted := @differences_eq_none_iff c rest
    have later := @ih c
    rcases found : differences c rest with ⟨steps, _ | early⟩
    · rw [found] at fault ordered sorted
      by_cases decreases : c < first
      · simp only [if_pos decreases, Option.some.injEq, Prod.mk.injEq] at fault ⊢
        obtain ⟨rfl, rfl⟩ := fault
        refine ⟨[], rest, rfl, decreases, sorted.mp rfl, ?_⟩
        rw [← (ordered rfl).1]
        rfl
      · simp [decreases] at fault
    · rw [found] at fault later
      obtain ⟨front, back, cut, decreases, rising, turned⟩ := later fault
      refine ⟨first :: front, back, by rw [cut]; rfl, decreases, rising, ?_⟩
      simp only at turned ⊢
      rw [turned]
      rfl

theorem turnedFrom_append (front back : List Nat) (previous col : Nat) :
    turnedFrom (front.length + 2) (front ++ previous :: col :: back)
      = front ++ previous :: col :: back.zipWith (· - ·) (col :: back) := by
  simp [turnedFrom, List.take_length_add_append, List.drop_length_add_append]

namespace Encoder

variable {e : Encoder α}

/-- A run with its first column and differences at hand was written, or it was refused for its kind
or its column, or because one of the answers to come refused memory. Then the first column and the
differences are still pending. -/
def Ends (e : Encoder α) (turned : List Nat) : Except (Stopped α) (Encoder α) → Prop
  | .ok e => e.pending = [] ∧ ∃ front, e.buffer.bytes.toList
      = front ++ turned.tail.flatMap (Width.classify (turned.tail.foldl max 0)).pack
  | .error stopped => stopped.left.pending = turned ∧
      (stopped.error = .tooManyKinds ∨ (∃ col, stopped.error = .columnTooWide col) ∨
        e.RunsShort stopped.error)

theorem exists_front_of_putDifferences {e' : Encoder α} {width : Width} {steps : List Nat}
    (packed : e.putDifferences width steps = .ok e') :
    ∃ front, e'.buffer.bytes.toList = front ++ steps.flatMap width.pack := by
  cases steps with
  | nil => exact ⟨_, (List.append_nil _).symm⟩
  | cons step steps =>
    rw [putDifferences_cons] at packed
    rw [buffer_of_write packed]
    exact ⟨_, Buffer.toList_append _ _⟩

theorem ends_of_framed {turned : List Nat} {stopped : Stopped α} (col : Nat)
    (framed : Framed { e with pending := turned } [.tooManyKinds, .columnTooWide col]
      (.error stopped)) : Ends e turned (.error stopped) := by
  refine ⟨framed.frame.pending, ?_⟩
  rcases framed.cause stopped rfl with known | short
  · rcases List.mem_cons.mp known with kinds | wide
    · exact .inl kinds
    · exact .inr (.inl ⟨col, List.mem_singleton.mp wide⟩)
  · exact .inr (.inr short)

variable {first : Nat} {rest : List Nat}

/-- Pending columns that pass the checks of a unit are turned. The run is then written, unless the
pass stopped. -/
theorem flush_of_pending (pending : e.pending = first :: rest)
    (short : rest.length < Header.maxSize) (ahead : e.cursor ≤ first) :
    ((differences first rest).2 = none → Ends e (first :: (differences first rest).1) e.flush) ∧
      ∀ col previous, (differences first rest).2 = some (col, previous) →
        e.flush = .error ⟨.behindCursor e.row col previous,
          { e with pending := first :: (differences first rest).1 }⟩ := by
  have size : e.checkSize (rest.length + 1) = .ok () := if_neg (Nat.not_lt_of_le short)
  have place : e.checkColumn first = .ok () := if_neg (Nat.not_lt_of_le ahead)
  unfold flush
  rw [pending]
  simp only [size, place, bind, Except.bind]
  rcases differences first rest with ⟨steps, _ | fault⟩
  · refine ⟨fun _ => ?_, fun _ _ stopped => nomatch stopped⟩
    dsimp only
    let turned : Encoder α := { e with pending := first :: steps }
    let width := Width.classify (steps.foldl max 0)
    cases opened : turned.openUnit (.run width) (rest.length + 1) first with
    | error stopped => exact ends_of_framed first (framed_of_openUnit opened)
    | ok given =>
      obtain ⟨flag, e'⟩ := given
      have framed := (e'.framed_putDifferences width steps).after (frame_of_openUnit opened)
      dsimp only
      cases packed : e'.putDifferences width steps with
      | error stopped =>
        rw [packed] at framed
        exact ends_of_framed first (framed.widen (List.nil_subset _))
      | ok e'' =>
        obtain ⟨front, stream⟩ := exists_front_of_putDifferences packed
        exact ⟨rfl, front, stream⟩
  · refine ⟨fun through => absurd through (Option.some_ne_none _), ?_⟩
    rintro col previous ⟨⟩
    rfl

/-- The pass over pending columns that do not decrease. Reading a run back, by adding the
differences to its first column one after another, gives the columns again. -/
structure Turns (e : Encoder α) (cols turned : List Nat) : Prop where
  differences : turned = turnedFrom 1 cols
  ends : Ends e turned e.flush
  readsBack : ∀ (u : StreamUnit) (w : Width), u.kind = .run w → turned = u.col :: u.deltas →
    u.cells = .ok (cols.map (u.row, ·))

/-- The pass over pending columns that stopped at `col`, which is below the column before it and is
the last one that is. -/
structure Stops (e : Encoder α) (cols turned : List Nat) (i previous col : Nat) : Prop where
  before : cols[i]? = some previous
  here : cols[i + 1]? = some col
  decreases : col < previous
  last : (cols.drop (i + 1)).Pairwise (· ≤ ·)
  differences : turned = turnedFrom (i + 2) cols
  refused : e.flush = .error ⟨.behindCursor e.row col previous, { e with pending := turned }⟩

theorem turns_of_flush (words : ∀ col ∈ first :: rest, col < wordLimit)
    (through : (differences first rest).2 = none)
    (ends : Ends e (first :: (differences first rest).1) e.flush) :
    Turns e (first :: rest) (first :: (differences first rest).1) where
  differences := congrArg (first :: ·) (differences_ordered through).1
  ends := ends
  readsBack u w run same := by
    have last : rest.getLastD first < wordLimit := words _ List.getLastD_mem_cons
    have columns : StreamUnit.runColumns u.offset first (differences first rest).1
        = .ok (first :: rest) := StreamUnit.runColumns_differences through last
    obtain ⟨col, deltas⟩ := List.cons.inj same
    rw [deltas] at columns
    rw [StreamUnit.cells, run, ← col]
    simp only [columns]
    rfl

theorem exists_stops_of_flush {col previous : Nat}
    (fault : (differences first rest).2 = some (col, previous))
    (refused : e.flush = .error ⟨.behindCursor e.row col previous,
      { e with pending := first :: (differences first rest).1 }⟩) :
    ∃ i, Stops e (first :: rest) (first :: (differences first rest).1) i previous col := by
  obtain ⟨front, back, cut, decreases, rising, turned⟩ := exists_last_decrease fault
  have tail : (front ++ previous :: col :: back).drop (front.length + 1) = col :: back :=
    List.drop_length_add_append 1
  refine ⟨front.length, ?_, ?_, decreases, ?_, ?_, refused⟩
  · rw [cut, List.getElem?_append_right (Nat.le_refl _), Nat.sub_self]
    rfl
  · rw [cut, ← List.head?_drop, tail]
    rfl
  · rw [cut, tail]
    exact rising
  · rw [turned, cut, turnedFrom_append]

/-- The pending columns of a run that does not start behind the cursor are overwritten with
differences from the last one down. The pass is through exactly when they do not decrease. Then the
run is written from the differences, which lead back to the columns; otherwise the run is refused at
the last decrease, with the differences behind it and the columns up to it still pending. -/
theorem flush_turns_in_place (pending : e.pending = first :: rest)
    (short : rest.length < Header.maxSize) (words : ∀ col ∈ first :: rest, col < wordLimit)
    (ahead : e.cursor ≤ first) :
    let cols := first :: rest
    let pass := differencesDown cols rest.length
    (pass.2 = none ↔ cols.Pairwise (· ≤ ·)) ∧ (pass.2 = none → Turns e cols pass.1) ∧
      ∀ col previous, pass.2 = some (col, previous) → ∃ i, Stops e cols pass.1 i previous col := by
  intro cols pass
  have found : pass = (first :: (differences first rest).1, (differences first rest).2) :=
    differencesDown_eq first rest
  obtain ⟨ends, refused⟩ := flush_of_pending pending short ahead
  rw [found]
  refine ⟨differences_eq_none_iff, ?_, ?_⟩
  · intro through
    exact turns_of_flush words through (ends through)
  · intro col previous fault
    exact exists_stops_of_flush fault (refused col previous fault)

/-- Columns with two decreases, of which the last one is met first, and columns with none. -/
theorem flush_turns_in_place_two_decreases :
    let e : Encoder Unit := { mode := .jump, pending := [4, 2, 9, 7, 8, 8], cursor := 3 }
    let e' : Encoder Unit := { mode := .jump, pending := [4, 7, 7, 300], cursor := 3 }
    (∃ i, Stops e [4, 2, 9, 7, 8, 8] [4, 2, 9, 7, 1, 0] i 9 7) ∧
      Turns e' [4, 7, 7, 300] [4, 3, 0, 293] := by
  intro e e'
  have falling : ∀ col ∈ [4, 2, 9, 7, 8, 8], col < wordLimit := by decide
  have rising : ∀ col ∈ [4, 7, 7, 300], col < wordLimit := by decide
  have short : 5 < Header.maxSize ∧ 3 < Header.maxSize := by decide
  have ahead : 3 ≤ 4 := by decide
  obtain ⟨-, -, stops⟩ :=
    flush_turns_in_place (rfl : e.pending = [4, 2, 9, 7, 8, 8]) short.1 falling ahead
  obtain ⟨-, turns, -⟩ :=
    flush_turns_in_place (rfl : e'.pending = [4, 7, 7, 300]) short.2 rising ahead
  exact ⟨stops 7 9 rfl, turns rfl⟩

end Encoder
end SparseStream
