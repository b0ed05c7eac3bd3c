import SparseStream.Halving
import SparseStream.Kind

/-! Halving on ordered data. Where the positions before the one sought come first, the search ends
at the last of them, so a row is split in the right place and a numbered table is searched
exactly. -/
namespace SparseStream

/-- The position found is not after what is sought, unless it is the first one, and all positions
behind it are. -/
theorem halve_ordered (after : Nat → Bool) (base size : Nat) (positive : 0 < size)
    (ordered : ∀ i j, i ≤ j → j < base + size → after i = true → after j = true) :
    (halve after base size = base ∨ after (halve after base size) = false) ∧
      ∀ i, halve after base size < i → i < base + size → after i = true := by
  induction size using Nat.strongRecOn generalizing base with
  | ind size ih =>
    rw [halve]
    split
    · exact ⟨.inl rfl, by omega⟩
    · rename_i several
      dsimp only
      cases mid : after (base + size / 2) with
      | true =>
        simp only [ite_true]
        obtain ⟨found, behind⟩ := ih (size - size / 2) (by omega) base (by omega)
          (fun i j le lt => ordered i j le (by omega))
        refine ⟨found, ?_⟩
        intro i lt bound
        by_cases near : i < base + (size - size / 2)
        · exact behind i lt near
        · exact ordered (base + size / 2) i (by omega) bound mid
      | false =>
        simp only [Bool.false_eq_true, ite_false]
        obtain ⟨found, behind⟩ := ih (size - size / 2) (by omega) (base + size / 2)
          (by omega) (fun i j le lt => ordered i j le (by omega))
        refine ⟨.inr ?_, fun i lt bound => behind i lt (by omega)⟩
        rcases found with first | before
        · rw [first]
          exact mid
        · exact before

theorem halve_le (after : Nat → Bool) (size : Nat) : halve after 0 size ≤ size := by
  rcases Nat.eq_zero_or_pos size with rfl | positive
  · have start : halve after 0 0 = 0 := by rw [halve, if_pos (Nat.zero_le 1)]
    exact Nat.le_of_eq start
  · have bound : halve after 0 size < 0 + size := (halve_lt after positive).2
    omega

/-- A split is inside of the list, whatever the order of the items. -/
theorem splitPoint_le_length (p : α → Bool) (xs : List α) : splitPoint p xs ≤ xs.length := by
  simp only [splitPoint, List.size_toArray, List.length_map]
  split
  · rename_i mark
    apply Nat.lt_of_not_le
    intro beyond
    rw [Array.getD_eq_getD_getElem?, List.getElem?_toArray, List.getElem?_map,
      List.getElem?_eq_none beyond] at mark
    contradiction
  · exact halve_le _ _

theorem splitPoint_append (p : α → Bool) (front back : List α) (inFront : ∀ x ∈ front, p x = true)
    (inBack : ∀ x ∈ back, p x = false) : splitPoint p (front ++ back) = front.length := by
  have marks : ∀ i, ((front ++ back).map p).toArray.getD i false = decide (i < front.length) := by
    intro i
    rw [Array.getD_eq_getD_getElem?, List.getElem?_toArray, List.getElem?_map]
    by_cases early : i < front.length
    · rw [List.getElem?_append_left early, List.getElem?_eq_getElem early]
      simp [early, inFront]
    · rw [List.getElem?_append_right (by omega)]
      cases found : back[i - front.length]? with
      | none => simp [early]
      | some x => simp [early, inBack x (List.mem_of_getElem? found)]
  simp only [splitPoint, marks, List.size_toArray, List.length_map, List.length_append]
  generalize place : halve _ 0 _ = n
  by_cases empty : front.length + back.length = 0
  · rw [empty, halve, if_pos (by decide)] at place
    simp only [decide_eq_true_eq]
    split <;> omega
  · obtain ⟨found, behind⟩ := halve_ordered (fun i => !decide (i < front.length)) 0
      (front.length + back.length) (by omega)
      (fun i j le _ => by simp only [Bool.not_eq_true', decide_eq_false_iff_not]; omega)
    rw [place] at found behind
    simp only [Bool.not_eq_true', Bool.not_eq_false', decide_eq_true_eq,
      decide_eq_false_iff_not] at found behind
    have next := behind (n + 1) (by omega)
    simp only [decide_eq_true_eq]
    split <;> omega

/-- A split at the first element that fails the test, when no later one passes it. -/
theorem splitPoint_ordered (p : α → Bool) (xs : List α)
    (ordered : ∀ x ∈ xs.dropWhile p, p x = false) :
    xs.take (splitPoint p xs) = xs.takeWhile p ∧ xs.drop (splitPoint p xs) = xs.dropWhile p := by
  have point : splitPoint p xs = (xs.takeWhile p).length := by
    have passes : ∀ x ∈ xs.takeWhile p, p x = true := List.all_eq_true.mp List.all_takeWhile
    have split := splitPoint_append p (xs.takeWhile p) (xs.dropWhile p) passes ordered
    rwa [List.takeWhile_append_dropWhile] at split
  have parts := List.takeWhile_append_dropWhile (p := p) (l := xs)
  rw [point]
  generalize xs.takeWhile p = front at parts ⊢
  generalize xs.dropWhile p = back at parts ⊢
  subst parts
  simp

namespace KindTable

/-- In a table whose flags count up from one, each entry is found under its flag. -/
theorem kind?_of_numbered (t : KindTable)
    (numbered : ∀ i, ∀ _ : i < t.entries.length, t.entries[i].flag = i + 1) (i : Nat)
    (bound : i < t.entries.length) : t.kind? (i + 1) = some t.entries[i].kind := by
  have flags : ∀ j, j < t.entries.length →
      (t.entries.map KindEntry.flag).toArray.getD j 0 = j + 1 := by
    intro j lt
    rw [Array.getD_eq_getD_getElem?, List.getElem?_toArray, List.getElem?_map,
      List.getElem?_eq_getElem lt]
    exact numbered j lt
  have place : halve (fun j => i + 1 < (t.entries.map KindEntry.flag).toArray.getD j 0) 0
      t.entries.length = i := by
    obtain ⟨found, behind⟩ := halve_ordered
      (fun j => decide (i + 1 < (t.entries.map KindEntry.flag).toArray.getD j 0)) 0
      t.entries.length (by omega) (by
        intro j k le lt first
        rw [Nat.zero_add] at lt
        rw [flags j (by omega), decide_eq_true_eq] at first
        rw [flags k lt, decide_eq_true_eq]
        omega)
    have range := @halve_lt (fun j => decide (i + 1 <
      (t.entries.map KindEntry.flag).toArray.getD j 0)) 0 t.entries.length (by omega)
    generalize halve _ 0 _ = n at found behind range ⊢
    rw [Nat.zero_add] at range
    rw [flags n range.2, decide_eq_false_iff_not] at found
    apply Nat.le_antisymm
    · omega
    · apply Nat.le_of_not_lt
      intro early
      have wrong := behind i early (by omega)
      rw [flags i bound, decide_eq_true_eq] at wrong
      omega
  have entry : t.entries[i]? = some t.entries[i] := List.getElem?_eq_getElem bound
  simp only [kind?, List.size_toArray, List.length_map]
  rw [place, entry, Option.bind_some, if_pos (numbered i bound)]

end KindTable
end SparseStream
