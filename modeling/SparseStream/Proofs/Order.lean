import Mathlib.Data.List.Chain
import SparseStream.Proofs.Layout

/-! The order of pieces along a row. The pieces of a row whose columns increase follow one another
exactly when its elements do, wherever the row is cut. -/
namespace SparseStream

/-- The last column that an element covers on its own row. -/
def Element.last : Element α → Nat
  | plain col _ => col
  | pattern col p _ => col + p.shape.advance p.size

/-- The second of two neighbours does not start before the last column of the first. -/
def Element.Follows (x y : Element α) : Prop := x.last ≤ y.col

theorem forall_mem_iff_of_map_eq {o : Option β} {o' : Option γ} {f : β → Nat} {g : γ → Nat}
    (same : o.map f = o'.map g) (P : Nat → Prop) : (∀ y ∈ o, P (f y)) ↔ ∀ y ∈ o', P (g y) := by
  cases o <;> cases o' <;> simp_all

/-- Columns have differences exactly when none is below the one before it. -/
theorem differences_eq_none_iff {first : Nat} {rest : List Nat} :
    (differences first rest).2 = none ↔ (first :: rest).Pairwise (· ≤ ·) := by
  rw [← List.isChain_iff_pairwise]
  induction rest generalizing first with
  | nil => simp [differences]
  | cons col rest ih =>
    rw [List.isChain_cons_cons, ← ih, differences]
    rcases differences col rest with ⟨steps, _ | fault⟩
    · by_cases decreases : col < first
      · simp [decreases]
      · simp [decreases, Nat.le_of_not_lt decreases]
    · simp

namespace Piece

def Follows (x y : Piece) : Prop := x.last ≤ y.col

/-- Columns that increase have differences. -/
theorem decrease?_run {cols : List Nat} (ordered : cols.Pairwise (· < ·)) :
    (run cols).decrease? = none := by
  cases cols with
  | nil => rfl
  | cons first rest => exact differences_eq_none_iff.mpr (ordered.imp Nat.le_of_lt)

theorem getLast?_eq_some_last {cols : List Nat} (nonempty : cols ≠ []) :
    cols.getLast? = some (run cols).last := by
  simp [last, List.getLastD_eq_getLast?, List.getLast?_eq_some_getLast nonempty]

theorem head?_runs (cols : List Nat) : (runs cols).head?.map col = cols.head? := by
  induction cols using stretch_induction with
  | nil => rfl
  | short cols nonempty fits =>
    rw [runs_of_short nonempty fits]
    cases cols with
    | nil => contradiction
    | cons first rest => rfl
  | long full held length nonempty ih =>
    rw [runs_append length nonempty]
    cases full with
    | nil => contradiction
    | cons first rest => rfl

theorem getLast?_runs (cols : List Nat) : (runs cols).getLast?.map last = cols.getLast? := by
  induction cols using stretch_induction with
  | nil => rfl
  | short cols nonempty fits =>
    rw [runs_of_short nonempty fits, getLast?_eq_some_last nonempty]
    rfl
  | long full held length nonempty ih =>
    rw [runs_append length nonempty, List.getLast?_append, ← ih, List.getLast?_cons]
    rw [List.getLast?_eq_some_getLast nonempty] at ih
    cases found : (runs held).getLast? with
    | none =>
      rw [found] at ih
      contradiction
    | some piece => rfl

/-- The first piece of a row starts at its first column, the last one ends where its last element
does. -/
theorem head?_ofRowAfter (held : List Nat) (row : List (Element α)) :
    (ofRowAfter held row).head?.map col = (held ++ row.map Element.col).head? := by
  induction row generalizing held with
  | nil => simpa [ofRowAfter] using head?_runs held
  | cons x row ih =>
    cases x with
    | plain c value => simpa [ofRowAfter, Element.col] using ih (held ++ [c])
    | pattern c p values =>
      have first := head?_runs held
      rw [ofRowAfter, List.head?_append, List.head?_append, ← first]
      cases (runs held).head? <;> rfl

theorem getLast?_ofRowAfter (held : List Nat) (row : List (Element α)) :
    (ofRowAfter held row).getLast?.map last = (row.getLast?.map Element.last).or held.getLast? := by
  induction row generalizing held with
  | nil => simpa [ofRowAfter] using getLast?_runs held
  | cons x row ih =>
    cases x with
    | plain c value =>
      rw [ofRowAfter, ih, List.getLast?_cons]
      cases row.getLast? <;> simp [Element.last]
    | pattern c p values =>
      have later := ih []
      rw [ofRowAfter, List.getLast?_append, List.getLast?_cons, List.getLast?_cons]
      cases found : (ofRowAfter [] row).getLast? <;> rw [found] at later
      all_goals cases stop : row.getLast? <;> rw [stop] at later
      all_goals simp_all [last, Element.last]

theorem isChain_runs {cols : List Nat} (ordered : cols.Pairwise (· < ·)) :
    (runs cols).IsChain Follows := by
  induction cols using stretch_induction with
  | nil => exact .nil
  | short cols nonempty fits =>
    rw [runs_of_short nonempty fits]
    exact .singleton _
  | long full held length nonempty ih =>
    rw [runs_append length nonempty, List.isChain_cons]
    obtain ⟨-, later, apart⟩ := List.pairwise_append.mp ordered
    refine ⟨?_, ih later⟩
    intro y first
    have front : full ≠ [] := by
      rintro rfl
      contradiction
    have start : held.head? = some y.col := by
      rw [← head?_runs, first]
      rfl
    have stop := getLast?_eq_some_last front
    exact Nat.le_of_lt (apart _ (List.mem_of_getLast? stop) _ (List.mem_of_head? start))

/-- Where a row is cut does not matter to the order along it: within a run the columns increase, and
at a pattern the same two columns are compared. -/
theorem isChain_ofRowAfter {held : List Nat} {row : List (Element α)}
    (ordered : (held ++ row.map Element.col).Pairwise (· < ·)) :
    (ofRowAfter held row).IsChain Follows ↔ row.IsChain Element.Follows := by
  induction row generalizing held with
  | nil =>
    rw [List.map_nil, List.append_nil] at ordered
    simp [ofRowAfter, isChain_runs ordered]
  | cons x row ih =>
    obtain ⟨before, after, apart⟩ := List.pairwise_append.mp ordered
    rw [List.map_cons, List.pairwise_cons] at after
    rw [List.isChain_cons]
    cases x with
    | plain c value =>
      have regroup : (held ++ [c]) ++ row.map Element.col
          = held ++ (Element.plain c value :: row).map Element.col := by simp [Element.col]
      have forward : ∀ y ∈ row.head?, (Element.plain c value).Follows y := fun y first =>
        Nat.le_of_lt (after.1 _ (List.mem_map_of_mem (List.mem_of_head? first)))
      rw [ofRowAfter, ih (regroup ▸ ordered)]
      exact ⟨fun rest => ⟨forward, rest⟩, fun rest => rest.2⟩
    | pattern c p values =>
      have behind : ∀ y ∈ (runs held).getLast?, y.Follows (pattern c p) := by
        intro y stop
        have inHeld : held.getLast? = some y.last := by
          rw [← getLast?_runs, stop]
          rfl
        exact Nat.le_of_lt (apart _ (List.mem_of_getLast? inHeld) c (List.mem_cons_self ..))
      have next : (∀ y ∈ (ofRowAfter [] row).head?, (pattern c p).Follows y) ↔
          ∀ y ∈ row.head?, (Element.pattern c p values).Follows y := by
        have same := head?_ofRowAfter [] row
        rw [List.nil_append, List.head?_map] at same
        exact forall_mem_iff_of_map_eq same (c + p.shape.advance p.size ≤ ·)
      rw [ofRowAfter, List.isChain_append, List.isChain_cons, ih after.2, next]
      constructor
      · rintro ⟨-, rest, -⟩
        exact rest
      · intro rest
        refine ⟨isChain_runs before, rest, ?_⟩
        intro y stop z first
        cases first
        exact behind y stop

theorem isChain_ofRow {row : List (Element α)} (ordered : (row.map Element.col).Pairwise (· < ·)) :
    (ofRow row).IsChain Follows ↔ row.IsChain Element.Follows :=
  isChain_ofRowAfter ordered

/-- Cutting a row in two keeps the order across the cut. -/
theorem isChain_ofRow_append {outer inner : List (Element α)}
    (ordered : ((outer ++ inner).map Element.col).Pairwise (· < ·)) :
    (ofRow outer ++ ofRow inner).IsChain Follows ↔ (outer ++ inner).IsChain Element.Follows := by
  rw [List.map_append] at ordered
  obtain ⟨outerOrdered, innerOrdered, -⟩ := List.pairwise_append.mp ordered
  have last := getLast?_ofRowAfter [] outer
  have first := head?_ofRowAfter [] inner
  rw [List.getLast?_nil, Option.or_none] at last
  rw [List.nil_append, List.head?_map] at first
  have border : (∀ y ∈ (ofRow outer).getLast?, ∀ z ∈ (ofRow inner).head?, y.Follows z) ↔
      ∀ y ∈ outer.getLast?, ∀ z ∈ inner.head?, y.Follows z :=
    calc (∀ y ∈ (ofRow outer).getLast?, ∀ z ∈ (ofRow inner).head?, y.Follows z)
        ↔ ∀ y ∈ (ofRow outer).getLast?, ∀ z ∈ inner.head?, y.last ≤ z.col :=
          forall₂_congr fun y _ => forall_mem_iff_of_map_eq first (y.last ≤ ·)
      _ ↔ ∀ y ∈ outer.getLast?, ∀ z ∈ inner.head?, y.Follows z :=
          forall_mem_iff_of_map_eq last fun c => ∀ z ∈ inner.head?, c ≤ z.col
  rw [List.isChain_append, List.isChain_append, isChain_ofRow outerOrdered,
    isChain_ofRow innerOrdered, border]

theorem isChain_ofSymmetricRow {row : List (Element α)} (rowStart : Nat)
    (ordered : (row.map Element.col).Pairwise (· < ·)) :
    (ofSymmetricRow row rowStart).IsChain Follows ↔ row.IsChain Element.Follows := by
  have whole := List.takeWhile_append_dropWhile (p := (·.col < rowStart)) (l := row)
  have cut := isChain_ofRow_append (whole.symm ▸ ordered)
  rwa [whole] at cut

/-- Each pattern of a row is a piece of it. -/
theorem pattern_mem_ofRowAfter {held : List Nat} {row : List (Element α)} {col : Nat} {p : Pattern}
    {values : List α} (member : .pattern col p values ∈ row) :
    pattern col p ∈ ofRowAfter held row := by
  induction row generalizing held with
  | nil => cases member
  | cons x row ih =>
    cases x with
    | plain c value =>
      rcases List.mem_cons.mp member with same | later
      · contradiction
      · exact ih later
    | pattern c q list =>
      rw [ofRowAfter]
      apply List.mem_append_right
      rcases List.mem_cons.mp member with same | later
      · cases same
        exact List.mem_cons_self ..
      · exact List.mem_cons_of_mem _ (ih later)

theorem pattern_mem_ofSymmetricRow {row : List (Element α)} {col : Nat} {p : Pattern}
    {values : List α} (rowStart : Nat) (member : .pattern col p values ∈ row) :
    pattern col p ∈ ofSymmetricRow row rowStart := by
  rw [← List.takeWhile_append_dropWhile (p := (·.col < rowStart)) (l := row)] at member
  rcases List.mem_append.mp member with outer | inner
  · exact List.mem_append_left _ (pattern_mem_ofRowAfter outer)
  · exact List.mem_append_right _ (pattern_mem_ofRowAfter inner)

end Piece
end SparseStream
