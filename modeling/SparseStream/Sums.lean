/-! Sums and running sums of counts. -/
namespace SparseStream

def total (counts : List Nat) : Nat := counts.foldr (· + ·) 0

@[simp] theorem total_nil : total [] = 0 := rfl

@[simp] theorem total_cons (n : Nat) (counts : List Nat) :
    total (n :: counts) = n + total counts := rfl

@[simp] theorem total_append (xs ys : List Nat) : total (xs ++ ys) = total xs + total ys := by
  induction xs with
  | nil => simp
  | cons x xs ih => simp [ih, Nat.add_assoc]

theorem le_total_of_mem {n : Nat} {ns : List Nat} (member : n ∈ ns) : n ≤ total ns := by
  induction ns with
  | nil => cases member
  | cons m ns ih =>
    rw [total_cons]
    rcases List.mem_cons.mp member with rfl | later
    · exact Nat.le_add_right _ _
    · exact Nat.le_trans (ih later) (Nat.le_add_left _ _)

/-- Running sums, from zero on. -/
def offsets (counts : List Nat) : Array Nat :=
  (counts.foldl (fun (sum, sums) n => (sum + n, sums.push (sum + n))) (0, #[0])).2

end SparseStream
