import SparseStream.HeapSort

/-!
Sorting around pivots. Entries are compared by less-than; those that are equal may change places,
which matters to whoever adds them up. Only in a short list, or in one that rises or falls as a
whole, do they keep their order. Main statement: the sorted list holds the same entries.
-/
namespace SparseStream.PivotSort

/-- A list that turns. The entries at its end stand in `back`, the last one first. -/
structure Wheel (α : Type) where
  front : List α := []
  back : List α := []

namespace Wheel

variable {α : Type}

def toList (w : Wheel α) : List α := w.front ++ w.back.reverse

def push (w : Wheel α) (a : α) : Wheel α := { w with front := a :: w.front }

/-- Moves the first entry to the end. -/
def turn (w : Wheel α) : Wheel α :=
  match w.front with
  | a :: rest => ⟨rest, a :: w.back⟩
  | [] =>
    match w.back.reverse with
    | a :: rest => ⟨rest, [a]⟩
    | [] => w

@[simp] theorem toList_push (w : Wheel α) (a : α) : (w.push a).toList = a :: w.toList := rfl

theorem toList_turn (w : Wheel α) : w.turn.toList = w.toList.tail ++ w.toList.head?.toList := by
  simp only [turn, toList]
  split
  · next first => rw [first]; simp
  · next none =>
    split
    · next first => rw [none, first]; simp
    · next empty => rw [none, empty]; rfl

theorem turn_perm (w : Wheel α) : w.turn.toList.Perm w.toList := by
  rw [toList_turn]
  cases w.toList with
  | nil => exact List.Perm.refl _
  | cons a rest => exact List.perm_append_comm

end Wheel

variable {α : Type}

/-- Entries on the two sides of a pivot, the later ones of the first side first. -/
structure Sides (α : Type) where
  low : List α := []
  high : Wheel α := {}

/-- Puts an entry on its side. The entries on the second side turn each time. -/
def Sides.put (isLow : α → Bool) (s : Sides α) (a : α) : Sides α :=
  if isLow a then { low := a :: s.low, high := s.high.turn }
  else { s with high := s.high.turn.push a }

/-- The last entry moves to the front, as the pivot takes its place. -/
def lastFirst : List α → List α
  | [] => []
  | a :: rest => a :: rest.reverse

/-- Separates what goes before the pivot from what comes after it. The first entry has its turn
after all others. -/
def separate (isLow : α → Bool) : List α → List α × List α
  | [] => ([], [])
  | a :: rest =>
    let s := (rest ++ [a]).foldl (Sides.put isLow) {}
    (lastFirst s.low, s.high.toList)

/-- Takes the entry at a place out of a list. The first entry moves to that place. -/
def pull (i : Nat) (xs : List α) : Option (α × List α) :=
  match xs.take i, xs.drop i with
  | [], a :: after => some (a, after)
  | first :: between, a :: after => some (a, between ++ first :: after)
  | _, [] => none

/-- Whichever of three places has the middle entry. -/
def middle (less : Nat → Nat → Bool) (a b c : Nat) : Nat :=
  if less a b = less a c then if less b c = less a b then b else c else a

/-- A place with an entry near the middle of those at `a`, `b` and `c`, where each of the three
stands for the `n` entries from there on. -/
def medianPlace (less : Nat → Nat → Bool) (n a b c : Nat) : Nat :=
  if 8 ≤ n then
    let part := n / 8
    let median := fun i => medianPlace less part i (i + 4 * part) (i + 7 * part)
    middle less (median a) (median b) (median c)
  else middle less a b c

/-- Place of the pivot. -/
def pivotPlace (less : Nat → Nat → Bool) (n : Nat) : Nat :=
  let part := n / 8
  medianPlace less part 0 (4 * part) (7 * part)

/-- The longest list that is sorted without a pivot. -/
def shortList : Nat := 20

/-- The longest part of a list that is sorted without a pivot. -/
def shortPart : Nat := 32

variable (lt : α → α → Bool)

/-- Sorts and keeps the order of equal entries. -/
def keepingOrder (xs : List α) : List α := xs.mergeSort fun a b => !lt b a

/-- Sorts a part of a list that has no entry less than `bound`. When the pivot is not above the
bound, all entries up to the pivot are equal to it. A part that was cut too often goes on a heap. -/
def sortPart : Nat → Option α → List α → List α
  | 0, _, xs =>
    if xs.length ≤ shortPart then keepingOrder lt xs else (HeapSort.sort lt xs.toArray).toList
  | cuts + 1, bound, xs =>
    if xs.length ≤ shortPart then keepingOrder lt xs
    else
      match pull (pivotPlace (HeapSort.less lt xs.toArray) xs.length) xs with
      | none => xs
      | some (pivot, others) =>
        if bound.any fun b => !lt b pivot then
          let (low, high) := separate (fun a => !lt pivot a) others
          low ++ pivot :: sortPart cuts none high
        else
          let (low, high) := separate (fun a => lt a pivot) others
          sortPart cuts bound low ++ pivot :: sortPart cuts (some pivot) high

/-- Each two neighbours are related. -/
def throughout (r : α → α → Bool) (xs : List α) : Bool := (xs.zip xs.tail).all fun (a, b) => r a b

/-- Sorts a list. Parts are cut at most about twice as often as halving needs. -/
def sort (xs : List α) : List α :=
  if xs.length ≤ shortList ∨ throughout (fun a b => !lt b a) xs ∨ throughout (fun a b => lt b a) xs
  then keepingOrder lt xs
  else sortPart lt (2 * xs.length.log2) none xs

theorem lastFirst_perm (xs : List α) : (lastFirst xs).Perm xs := by
  cases xs with
  | nil => exact List.Perm.refl _
  | cons a rest => exact (List.reverse_perm rest).cons a

theorem foldl_put_perm (isLow : α → Bool) (xs : List α) (s : Sides α) :
    let t := xs.foldl (Sides.put isLow) s
    (t.low ++ t.high.toList).Perm (xs ++ (s.low ++ s.high.toList)) := by
  induction xs generalizing s with
  | nil => exact List.Perm.refl _
  | cons a xs ih =>
    refine (ih (s.put isLow a)).trans ?_
    refine List.Perm.trans (List.Perm.append_left xs ?_) List.perm_middle
    simp only [Sides.put]
    split
    · exact (List.Perm.append_left s.low s.high.turn_perm).cons a
    · rw [Wheel.toList_push]
      exact List.perm_middle.trans ((List.Perm.append_left s.low s.high.turn_perm).cons a)

theorem separate_perm (isLow : α → Bool) (xs : List α) :
    ((separate isLow xs).1 ++ (separate isLow xs).2).Perm xs := by
  cases xs with
  | nil => exact List.Perm.refl _
  | cons a rest =>
    have all := foldl_put_perm isLow (rest ++ [a]) {}
    simp only [Wheel.toList, List.append_nil, List.reverse_nil] at all
    exact ((lastFirst_perm _).append_right _).trans (all.trans List.perm_append_comm)

theorem pull_perm {i : Nat} {xs others : List α} {a : α} (h : pull i xs = some (a, others)) :
    (a :: others).Perm xs := by
  have whole := List.take_append_drop i xs
  simp only [pull] at h
  split at h
  · next before after =>
    rw [before, after] at whole
    cases h
    exact whole ▸ List.Perm.refl _
  · next first between _ after before behind =>
    rw [before, behind] at whole
    cases h
    rw [← whole]
    exact (List.perm_middle.cons a).trans
      ((List.Perm.swap first a _).trans (List.perm_middle.symm.cons first))
  · cases h

theorem keepingOrder_perm (xs : List α) : (keepingOrder lt xs).Perm xs :=
  List.mergeSort_perm xs _

theorem sortPart_perm (cuts : Nat) (bound : Option α) (xs : List α) :
    (sortPart lt cuts bound xs).Perm xs := by
  induction cuts generalizing bound xs with
  | zero =>
    simp only [sortPart]
    split
    · exact keepingOrder_perm lt xs
    · exact (HeapSort.sort_perm lt xs.toArray).toList
  | succ cuts ih =>
    simp only [sortPart]
    split
    · exact keepingOrder_perm lt xs
    · split
      · exact List.Perm.refl xs
      · next pivot others pulled =>
        have back := pull_perm pulled
        split
        · exact (List.Perm.append_left _ ((ih none _).cons pivot)).trans
            (List.perm_middle.trans (((separate_perm _ others).cons pivot).trans back))
        · exact ((ih bound _).append ((ih (some pivot) _).cons pivot)).trans
            (List.perm_middle.trans (((separate_perm _ others).cons pivot).trans back))

theorem sort_perm (xs : List α) : (sort lt xs).Perm xs := by
  unfold sort
  split
  · exact keepingOrder_perm lt xs
  · exact sortPart_perm lt _ none xs

end SparseStream.PivotSort
