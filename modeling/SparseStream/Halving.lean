/-!
Search by halving. The stretch of positions still in question is halved until one position is
left; the search looks at no more than that, so in a sequence out of order it ends wherever the
halves lead.
-/
namespace SparseStream

/-- The position left of the `size` ones from `base` on, when `after i` says that what is sought
lies before position `i`. -/
def halve (after : Nat → Bool) (base size : Nat) : Nat :=
  if size ≤ 1 then base
  else
    let mid := base + size / 2
    halve after (if after mid then base else mid) (size - size / 2)
termination_by size
decreasing_by omega

theorem halve_lt (after : Nat → Bool) {base size : Nat} (h : 0 < size) :
    base ≤ halve after base size ∧ halve after base size < base + size := by
  induction size using Nat.strongRecOn generalizing base with
  | ind size ih =>
    rw [halve]
    split
    · omega
    · have left := @ih (size - size / 2) (by omega) base (by omega)
      have right := @ih (size - size / 2) (by omega) (base + size / 2) (by omega)
      dsimp only
      split <;> omega

/-- How many items at the front satisfy `p`, in a list where those that do come first. -/
def splitPoint (p : α → Bool) (xs : List α) : Nat :=
  let marks := (xs.map p).toArray
  let i := halve (fun i => !marks.getD i false) 0 marks.size
  if marks.getD i false then i + 1 else i

end SparseStream
