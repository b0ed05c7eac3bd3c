import SparseStream.Proofs.Layout
import SparseStream.Proofs.Ranges
import SparseStream.Proofs.Stacked

/-! How entries are shared out over balanced ranges. Each range but the last ends at the first row
boundary at which it holds its share of what was left before it. What is left then is never more
than an even share for each range to come, so no range holds more than an even share and all but
one entry of a row. -/
namespace SparseStream

theorem exists_pos_of_total_pos {ns : List Nat} (positive : 0 < total ns) : ∃ n ∈ ns, 0 < n := by
  induction ns with
  | nil => contradiction
  | cons n ns ih =>
    rcases Nat.eq_zero_or_pos n with rfl | first
    · rw [total_cons, Nat.zero_add] at positive
      obtain ⟨later, member, holds⟩ := ih positive
      exact ⟨later, List.mem_cons_of_mem _ member, holds⟩
    · exact ⟨n, List.mem_cons_self, first⟩

namespace Csr

/-- How many entries the rows from `first` to before `last` hold. -/
def held (m : Csr α) (first last : Nat) : Nat :=
  total ((List.range' first (last - first)).map fun i => (m.rowEntries i).length)

/-- The most entries that a row holds. -/
def widestRow (m : Csr α) : Nat :=
  ((List.range m.nRows).map fun i => (m.rowEntries i).length).foldl max 0

@[simp] theorem held_self (m : Csr α) (row : Nat) : m.held row row = 0 := by simp [held]

@[simp] theorem held_one_row (m : Csr α) (row : Nat) :
    m.held row (row + 1) = (m.rowEntries row).length := by simp [held]

theorem held_add (m : Csr α) {a b c : Nat} (ab : a ≤ b) (bc : b ≤ c) :
    m.held a b + m.held b c = m.held a c := by
  have rows : List.range' a (b - a) ++ List.range' b (c - b) = List.range' a (c - a) := by
    have whole : c - a = (b - a) + (c - b) := by omega
    rw [whole, ← List.range'_append_1, Nat.add_sub_cancel' ab]
  simp only [held, ← rows, List.map_append, total_append]

theorem length_le_widestRow {m : Csr α} {i : Nat} (bound : i < m.nRows) :
    (m.rowEntries i).length ≤ m.widestRow :=
  le_foldl_max _ (List.mem_map_of_mem (List.mem_range.mpr bound))

theorem held_eq {m : Csr α} (sound : m.Sound) {first last : Nat} (order : first ≤ last)
    (bound : last ≤ m.nRows) : m.held first last = m.pointer last - m.pointer first := by
  induction last with
  | zero => simp [Nat.le_zero.mp order]
  | succ last ih =>
    rcases Nat.lt_or_ge last first with after | before
    · have same : first = last + 1 := by omega
      simp [same]
    · have step := (sound.bounds last bound).1
      have earlier := pointer_le sound before (Nat.le_of_lt bound)
      rw [← m.held_add before (Nat.le_succ last), ih before (Nat.le_of_lt bound), held_one_row,
        length_rowEntries sound bound]
      omega

theorem count_eq_held {m : Csr α} (accepted : m.Accepted) : m.count = m.held 0 m.nRows := by
  have sound := (sound_of_make accepted.made).1
  obtain ⟨start, stop⟩ := ends_of_make accepted.made
  rw [held_eq sound (Nat.zero_le _) (Nat.le_refl _), start, stop, Nat.sub_zero, count, sound.values]

/-- What the rows before `first` do not hold is left for the others. -/
theorem count_sub_held {m : Csr α} (accepted : m.Accepted) {first : Nat}
    (bound : first ≤ m.nRows) : m.count - m.held 0 first = m.held first m.nRows := by
  rw [count_eq_held accepted, ← m.held_add (Nat.zero_le first) bound, Nat.add_sub_cancel_left]

/-- The rows from `first` to before `last` end at the first row boundary at which they hold `share`
entries, or behind the last row when there is no such boundary. -/
structure EndsAt (m : Csr α) (share first last : Nat) : Prop where
  order : first ≤ last
  inside : last ≤ m.nRows
  short : ∀ row, first ≤ row → row < last → m.held first row < share
  full : last < m.nRows → share ≤ m.held first last

/-- Ranges from row `first` on, each with what it holds. A range before the last one ends by its
share of what is left, which is one entry at least. -/
inductive SharedOut (m : Csr α) : Nat → List RowRange → Prop
  | last {first : Nat} : first ≤ m.nRows →
      SharedOut m first [⟨first, m.nRows, m.held first m.nRows⟩]
  | cons {first last : Nat} {rest : List RowRange} :
      m.EndsAt (max 1 (m.held first m.nRows / (rest.length + 1))) first last →
      SharedOut m last rest → SharedOut m first (⟨first, last, m.held first last⟩ :: rest)

/-- Rows are taken until the share is reached, by induction along the rows that are taken. -/
theorem exists_takeRows {m : Csr α} (sound : m.Sound) (limit : Nat) {first last taken : Nat}
    (order : first ≤ last) (bound : last ≤ m.nRows) (counted : taken = m.held first last)
    (short : ∀ row, first ≤ row → row < last → m.held first row < max 1 limit) :
    ∃ stop, m.takeRows limit last taken = some (stop, m.held first stop) ∧
      m.EndsAt (max 1 limit) first stop := by
  fun_induction takeRows m limit last taken with
  | case1 last taken inside full =>
    refine ⟨last, by rw [counted], order, bound, short, fun _ => ?_⟩
    omega
  | case2 last taken inside wanting n found ih =>
    rw [rowCount?_eq sound inside, ← length_rowEntries sound inside, Option.some.injEq] at found
    apply ih (Nat.le_succ_of_le order) inside
    · rw [← m.held_add order (Nat.le_succ last), held_one_row, counted, found]
    · intro row after before
      rcases Nat.lt_or_eq_of_le (Nat.le_of_lt_succ before) with earlier | rfl
      · exact short row after earlier
      · omega
  | case3 last taken inside wanting none => simp [rowCount?_eq sound inside] at none
  | case4 last taken done =>
    exact ⟨last, by rw [counted], order, bound, short, fun more => absurd more done⟩

theorem exists_rangesFrom {m : Csr α} (accepted : m.Accepted) (n : Nat) {first : Nat}
    (bound : first ≤ m.nRows) :
    ∃ rs, m.rangesFrom n first (m.held 0 first) = (rs, none) ∧ rs.length = n + 1 ∧
      m.SharedOut first rs := by
  have sound := (sound_of_make accepted.made).1
  induction n generalizing first with
  | zero => exact ⟨_, rfl, rfl, count_sub_held accepted bound ▸ .last bound⟩
  | succ n ih =>
    obtain ⟨stop, taken, ends⟩ :=
      exists_takeRows sound (m.held first m.nRows / (n + 2)) (Nat.le_refl first) bound
        (m.held_self first).symm (fun row after before => absurd after (Nat.not_le_of_lt before))
    obtain ⟨rs, more, length, shared⟩ := ih ends.inside
    refine ⟨⟨first, stop, m.held first stop⟩ :: rs, ?_, congrArg (· + 1) length,
      .cons (length ▸ ends) shared⟩
    rw [← m.held_add (Nat.zero_le first) ends.order] at more
    simp only [rangesFrom, count_sub_held accepted bound, taken, more]

theorem exists_ranges {m : Csr α} (accepted : m.Accepted) (n : Nat) :
    ∃ rs, m.ranges n = (rs, none) ∧ rs.length = max n 1 ∧ m.SharedOut 0 rs := by
  obtain ⟨rs, found, length, shared⟩ := exists_rangesFrom accepted (n - 1) (Nat.zero_le m.nRows)
  rw [held_self] at found
  exact ⟨rs, found, by omega, shared⟩

namespace SharedOut

variable {m : Csr α} {first : Nat} {rs : List RowRange}

theorem tile (shared : m.SharedOut first rs) : RowRange.Tile first rs m.nRows := by
  induction shared with
  | last bound => exact .cons bound (.nil _)
  | cons ends _ ih => exact .cons ends.order ih

theorem count_eq (shared : m.SharedOut first rs) : ∀ r ∈ rs, r.count = m.held r.first r.last := by
  induction shared with
  | last => simp
  | cons ends _ ih => exact List.forall_mem_cons.mpr ⟨rfl, ih⟩

/-- A range but the last, by its place: what the ranges before it hold was left out of what there
is, and it ends by its share of the remainder. -/
theorem endsAt_getElem (shared : m.SharedOut first rs) {i : Nat} {r : RowRange}
    (found : rs[i]? = some r) (more : i + 1 < rs.length) :
    total ((rs.take i).map RowRange.count) ≤ m.held first m.nRows ∧
      m.EndsAt (max 1 ((m.held first m.nRows - total ((rs.take i).map RowRange.count))
        / (rs.length - i))) r.first r.last := by
  induction shared generalizing i with
  | last => simp at more
  | @cons first last rest ends later ih =>
    cases i with
    | zero =>
      cases found
      exact ⟨Nat.zero_le _, ends⟩
    | succ i =>
      rw [List.length_cons] at more ⊢
      obtain ⟨less, endsLater⟩ := ih found (Nat.lt_of_succ_lt_succ more)
      have parts := m.held_add ends.order ends.inside
      rw [List.take_succ_cons, List.map_cons, total_cons, ← parts, Nat.add_sub_add_left,
        Nat.add_sub_add_right]
      exact ⟨Nat.add_le_add_left less _, endsLater⟩

end SharedOut

end Csr

theorem RowRange.Tile.countP_eq {start stop : Nat} {rs : List RowRange} (tile : Tile start rs stop)
    (i : Nat) : rs.countP (fun r => r.first ≤ i ∧ i < r.last)
      = if start ≤ i ∧ i < stop then 1 else 0 := by
  induction tile with
  | nil => simp
  | @cons first last count stop rest order later ih =>
    have beyond := later.le
    rw [List.countP_cons, ih]
    simp only [decide_eq_true_eq]
    split <;> split <;> split <;> omega

namespace Csr

/-- The rows of an accepted matrix are cut into as many ranges as asked for, at least one, as long
as there is room for the list of them. The ranges follow each other from the first row to the last,
so that each row is in one of them. Each range but the last ends at the first row boundary at which
it holds an even share of the entries that the ranges before it left, rounded down, and one entry
at least; it ends behind the last row when there is no such boundary. What the ranges before it
hold is no more than there is, and there is a range left to share with. -/
theorem cutRows_shares_entries {m : Csr α} (accepted : m.Accepted) {n : Nat}
    (room : reserve n RowRange.bytes = .ok ()) :
    ∃ rs, (m.cutRows n).1 = .ok rs ∧ rs.length = max n 1 ∧ RowRange.Tile 0 rs m.nRows ∧
      (∀ i < m.nRows, rs.countP (fun r => r.first ≤ i ∧ i < r.last) = 1) ∧
      (∀ r ∈ rs, r.count = m.held r.first r.last) ∧
      ∀ (i : Nat) (r : RowRange), rs[i]? = some r → i + 1 < rs.length →
        let assigned := total ((rs.take i).map RowRange.count)
        assigned ≤ m.count ∧ 0 < rs.length - i ∧
          m.EndsAt (max 1 ((m.count - assigned) / (rs.length - i))) r.first r.last := by
  obtain ⟨rs, found, length, shared⟩ := exists_ranges accepted n
  refine ⟨rs, fst_cutRows found room, length, shared.tile, ?_, shared.count_eq, ?_⟩
  · intro i bound
    rw [shared.tile.countP_eq, if_pos ⟨Nat.zero_le i, bound⟩]
  · intro i r place more
    rw [count_eq_held accepted]
    obtain ⟨less, ends⟩ := shared.endsAt_getElem place more
    exact ⟨less, by omega, ends⟩

/-- A dense first row overshoots its share; the ranges after it share the rest, with an empty row
in front of the last one. -/
theorem cutRows_shares_entries_four_ranges :
    let m : Csr Unit :=
      ⟨5, 4, #[0, 4, 4, 5, 7, 8], #[0, 1, 2, 3, 0, 1, 3, 2], Array.replicate 8 ()⟩
    (m.cutRows 4).1 = .ok [⟨0, 1, 4⟩, ⟨1, 3, 1⟩, ⟨3, 4, 2⟩, ⟨4, 5, 1⟩] ∧
      m.EndsAt (max 1 ((8 - 4) / (4 - 1))) 1 3 := by
  intro m
  have accepted : m.Accepted := ⟨by decide, rfl⟩
  have cut : (m.cutRows 4).1 = .ok [⟨0, 1, 4⟩, ⟨1, 3, 1⟩, ⟨3, 4, 2⟩, ⟨4, 5, 1⟩] := by cbv
  obtain ⟨rs, found, -, -, -, -, share⟩ := cutRows_shares_entries accepted (n := 4) rfl
  rw [cut, Except.ok.injEq] at found
  subst found
  exact ⟨cut, (share 1 ⟨1, 3, 1⟩ rfl (by decide)).2.2⟩

/-- What is left after an even share was taken is no more than an even share for each of the
others. -/
theorem sub_le_mul_of_div_le {left others share taken : Nat}
    (even : left ≤ (others + 1) * share) (took : left / (others + 1) ≤ taken) :
    left - taken ≤ others * share := by
  have split := Nat.div_add_mod left (others + 1)
  have rest : left % (others + 1) < others + 1 := Nat.mod_lt left (Nat.succ_pos others)
  generalize left / (others + 1) = quotient at split took
  rcases Nat.lt_or_ge quotient share with below | above
  · have wide : others * (quotient + 1) ≤ others * share := Nat.mul_le_mul_left others below
    rw [Nat.add_mul, Nat.one_mul] at split
    rw [Nat.mul_add, Nat.mul_one] at wide
    omega
  · rw [Nat.add_mul, Nat.one_mul] at even
    omega

/-- A range that ends by its share overshoots it by less than a row. -/
theorem EndsAt.held_le {m : Csr α} {share first last : Nat} (ends : m.EndsAt share first last)
    (positive : 1 ≤ share) : m.held first last ≤ share - 1 + m.widestRow := by
  rcases Nat.lt_or_eq_of_le ends.order with filled | rfl
  · obtain ⟨row, rfl⟩ := Nat.exists_eq_succ_of_ne_zero (Nat.ne_zero_of_lt filled)
    have before : first ≤ row := Nat.le_of_lt_succ filled
    have short := ends.short row before (Nat.lt_succ_self row)
    have last := length_le_widestRow (m := m) ends.inside
    rw [← m.held_add before (Nat.le_succ row), held_one_row]
    omega
  · simp

/-- The bound for each range, by induction along the ranges: an even share for each range to come
covers what is left. -/
theorem SharedOut.held_le {m : Csr α} {first share : Nat} {rs : List RowRange}
    (shared : m.SharedOut first rs) (positive : 1 ≤ share) (wide : 1 ≤ m.widestRow)
    (even : m.held first m.nRows ≤ rs.length * share) :
    ∀ r ∈ rs, m.held r.first r.last ≤ share + m.widestRow - 1 := by
  induction shared with
  | last =>
    simp only [List.mem_singleton, forall_eq]
    rw [List.length_singleton, Nat.one_mul] at even
    omega
  | @cons first last rest ends later ih =>
    rw [List.length_cons] at even
    have quota : m.held first m.nRows / (rest.length + 1) ≤ share :=
      Nat.div_le_of_le_mul even
    have here := ends.held_le (Nat.le_max_left 1 _)
    have left : m.held last m.nRows ≤ rest.length * share := by
      have parts := m.held_add ends.order ends.inside
      rcases Nat.lt_or_eq_of_le ends.inside with more | rfl
      · have took := Nat.le_trans (Nat.le_max_right 1 _) (ends.full more)
        have less := sub_le_mul_of_div_le even took
        omega
      · simp
    refine List.forall_mem_cons.mpr ⟨?_, ih left⟩
    dsimp only
    omega

theorem one_le_widestRow {m : Csr α} (accepted : m.Accepted) (filled : 0 < m.count) :
    1 ≤ m.widestRow := by
  rw [count_eq_held accepted, held] at filled
  obtain ⟨n, member, positive⟩ := exists_pos_of_total_pos filled
  obtain ⟨i, inRows, rfl⟩ := List.mem_map.mp member
  have bound : i < m.nRows := by
    have place := List.mem_range'_1.mp inRows
    omega
  exact Nat.le_trans positive (length_le_widestRow bound)

/-- No range of a matrix with entries holds more than an even share of them, rounded up, and all but
one entry of the widest row. -/
theorem held_le_of_mem_ranges {m : Csr α} (accepted : m.Accepted) (filled : 0 < m.count) {n : Nat}
    (parts : 1 ≤ n) :
    ∃ rs, m.ranges n = (rs, none) ∧ rs.length = n ∧
      (reserve n RowRange.bytes = .ok () → (m.cutRows n).1 = .ok rs) ∧
      ∀ r ∈ rs, m.held r.first r.last ≤ (m.count + n - 1) / n + m.widestRow - 1 := by
  obtain ⟨rs, found, length, shared⟩ := exists_ranges accepted n
  rw [Nat.max_eq_left parts] at length
  have share : 1 ≤ (m.count + n - 1) / n := (Nat.one_le_div_iff parts).mpr (by omega)
  have even : m.held 0 m.nRows ≤ rs.length * ((m.count + n - 1) / n) := by
    rw [← count_eq_held accepted, length]
    have split := Nat.div_add_mod (m.count + n - 1) n
    have rest := Nat.mod_lt (m.count + n - 1) parts
    omega
  exact ⟨rs, found, length, fst_cutRows found,
    shared.held_le share (one_le_widestRow accepted filled) even⟩

/-- Two ranges of three rows: the second row brings the first range to the bound. -/
theorem held_le_of_mem_ranges_two :
    let m : Csr Unit := ⟨3, 3, #[0, 1, 4, 4], #[2, 0, 1, 2], Array.replicate 4 ()⟩
    0 < m.count ∧ m.held 0 2 = 4 ∧ (4 + 2 - 1) / 2 + m.widestRow - 1 = 4 ∧
      m.held 0 2 ≤ (m.count + 2 - 1) / 2 + m.widestRow - 1 := by
  intro m
  have accepted : m.Accepted := ⟨by decide, rfl⟩
  have filled : 0 < m.count := by decide
  obtain ⟨rs, found, -, -, bound⟩ := held_le_of_mem_ranges accepted filled (n := 2) (by decide)
  have cut : m.ranges 2 = ([⟨0, 2, 4⟩, ⟨2, 3, 0⟩], none) := by cbv
  rw [cut, Prod.mk.injEq] at found
  obtain ⟨rfl, -⟩ := found
  exact ⟨filled, by cbv, by cbv, bound ⟨0, 2, 4⟩ List.mem_cons_self⟩

end Csr
end SparseStream
