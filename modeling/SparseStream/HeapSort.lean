/-!
Sorting on a heap in an array. An entry has those at `2 * i + 1` and `2 * i + 2` under it. Main
statement: the sorted array holds the same entries.
-/
namespace SparseStream.HeapSort

variable {α : Type} (lt : α → α → Bool)

/-- Whether the entry at one place is less than that at another. -/
def less (xs : Array α) (i j : Nat) : Bool :=
  match xs[i]?, xs[j]? with
  | some a, some b => lt a b
  | _, _ => false

/-- Moves an entry of the first `size` ones down, below all greater ones under it. -/
def sink (size node : Nat) (xs : Array α) : Array α :=
  let left := 2 * node + 1
  if left < size then
    let child := if left + 1 < size ∧ less lt xs left (left + 1) then left + 1 else left
    if less lt xs node child then sink size child (xs.swapIfInBounds node child) else xs
  else xs
termination_by size - node
decreasing_by split <;> omega

/-- Makes a heap, then moves its greatest entry behind the others until none is left. -/
def sort (xs : Array α) : Array α :=
  let heap := (List.range (xs.size / 2)).foldr (sink lt xs.size) xs
  (List.range xs.size).foldr (fun last ys => sink lt last 0 (ys.swapIfInBounds 0 last)) heap

theorem swapIfInBounds_perm (xs : Array α) (i j : Nat) : (xs.swapIfInBounds i j).Perm xs := by
  rw [Array.swapIfInBounds_def]
  split
  · split
    · exact Array.swap_perm _ _
    · exact Array.Perm.refl xs
  · exact Array.Perm.refl xs

theorem sink_perm (size node : Nat) (xs : Array α) : (sink lt size node xs).Perm xs := by
  fun_induction sink with
  | case1 node xs left inside child down ih => exact ih.trans (swapIfInBounds_perm xs node child)
  | case2 node xs => exact Array.Perm.refl xs
  | case3 node xs => exact Array.Perm.refl xs

theorem foldr_perm {f : Nat → Array α → Array α} (keeps : ∀ i ys, (f i ys).Perm ys)
    (xs : Array α) (is : List Nat) : (is.foldr f xs).Perm xs := by
  induction is with
  | nil => exact Array.Perm.refl xs
  | cons i is ih => exact (keeps i _).trans ih

theorem sort_perm (xs : Array α) : (sort lt xs).Perm xs :=
  have moved := fun last ys => (sink_perm lt last 0 _).trans (swapIfInBounds_perm ys 0 last)
  (foldr_perm moved _ _).trans (foldr_perm (sink_perm lt xs.size) _ _)

end SparseStream.HeapSort
