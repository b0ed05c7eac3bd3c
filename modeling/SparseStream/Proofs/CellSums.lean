import Mathlib.Data.List.Induction
import SparseStream.Proofs.Gathered

/-! Triplets summed by cell. The values that triplets give for a cell are added in the order in which
they come, whatever comes between them, for sorting keeps this order and neighbours are added from the
left. The matrix put together from triplets stores these sums and nothing else. -/
namespace SparseStream

section Sums

variable [Add α] {ts us : List (Triplet α)} {t : Triplet α} {c : Cell}

/-- The values for a cell, in the order in which they come. -/
def valuesAt (c : Cell) (ts : List (Triplet α)) : List α := (ts.filter (·.1 = c)).map Prod.snd

/-- The sum of the values for a cell, from the left. A cell without values has none. -/
def sumAt? (c : Cell) (ts : List (Triplet α)) : Option α :=
  match valuesAt c ts with
  | [] => none
  | v :: vs => some (vs.foldl (· + ·) v)

omit [Add α] in
theorem valuesAt_append (c : Cell) (ts us : List (Triplet α)) :
    valuesAt c (ts ++ us) = valuesAt c ts ++ valuesAt c us := by
  rw [valuesAt, List.filter_append, List.map_append]
  rfl

omit [Add α] in
theorem valuesAt_ne_nil_iff : valuesAt c ts ≠ [] ↔ ∃ t ∈ ts, t.1 = c := by
  rw [valuesAt, Ne, List.map_eq_nil_iff, List.filter_eq_nil_iff]
  simp only [decide_eq_true_eq, not_forall, not_not, exists_prop]

theorem sumAt?_ne_none_iff : sumAt? c ts ≠ none ↔ ∃ t ∈ ts, t.1 = c := by
  rw [← valuesAt_ne_nil_iff, sumAt?]
  cases valuesAt c ts <;> simp

/-- One triplet more: it is added to the sum for its cell, or begins one. -/
theorem sumAt?_snoc_self : sumAt? t.1 (ts ++ [t]) = some ((sumAt? t.1 ts).elim t.2 (· + t.2)) := by
  have last : valuesAt t.1 [t] = [t.2] := by simp [valuesAt]
  rw [sumAt?, sumAt?, valuesAt_append, last]
  cases valuesAt t.1 ts with
  | nil => rfl
  | cons v vs =>
    rw [List.cons_append]
    simp only [List.foldl_append, List.foldl_cons, List.foldl_nil, Option.elim_some]

theorem sumAt?_snoc_of_ne (other : t.1 ≠ c) : sumAt? c (ts ++ [t]) = sumAt? c ts := by
  have none : valuesAt c [t] = [] := by simp [valuesAt, other]
  rw [sumAt?, sumAt?, valuesAt_append, none, List.append_nil]

/-- What adding neighbours has come to, with the last cell first: each cell once, with its sum. -/
structure Summed (ts done : List (Triplet α)) : Prop where
  descending : done.Pairwise fun a b => b.1.Before a.1
  sums : ∀ c v, (c, v) ∈ done ↔ sumAt? c ts = some v

namespace Summed

variable {done : List (Triplet α)}

theorem nil : Summed ([] : List (Triplet α)) [] := ⟨List.Pairwise.nil, by simp [sumAt?, valuesAt]⟩

/-- A triplet behind all cells so far. -/
theorem push (summed : Summed ts done) (behind : ∀ d ∈ done, d.1.Before t.1) :
    Summed (ts ++ [t]) (t :: done) := by
  have fresh : ∀ v, (t.1, v) ∉ done := fun v member =>
    irrefl_of (fun a b : Triplet α => a.1.Before b.1) t (behind (t.1, v) member)
  have absent : sumAt? t.1 ts = none :=
    Option.eq_none_iff_forall_ne_some.mpr fun v found => fresh v ((summed.sums _ _).mpr found)
  refine ⟨List.pairwise_cons.mpr ⟨behind, summed.descending⟩, fun c v => ?_⟩
  rw [List.mem_cons]
  by_cases same : t.1 = c
  · subst same
    rw [sumAt?_snoc_self, absent, Option.elim_none, Option.some.injEq, Prod.ext_iff]
    simp [fresh v, eq_comm]
  · rw [sumAt?_snoc_of_ne same, ← summed.sums, or_iff_right]
    rintro rfl
    exact same rfl

/-- A triplet for the last cell. -/
theorem add {last : Triplet α} (summed : Summed ts (last :: done)) (same : last.1 = t.1) :
    Summed (ts ++ [t]) ((last.1, last.2 + t.2) :: done) := by
  obtain ⟨behind, descending⟩ := List.pairwise_cons.mp summed.descending
  have fresh : ∀ v, (t.1, v) ∉ done := fun v member =>
    irrefl_of (fun a b : Triplet α => a.1.Before b.1) last (same ▸ behind (t.1, v) member)
  have before : sumAt? t.1 ts = some last.2 :=
    (summed.sums _ _).mp (same ▸ List.mem_cons_self ..)
  refine ⟨List.pairwise_cons.mpr ⟨behind, descending⟩, fun c v => ?_⟩
  rw [List.mem_cons]
  by_cases here : t.1 = c
  · subst here
    rw [sumAt?_snoc_self, before, Option.elim_some, Option.some.injEq, Prod.ext_iff]
    simp [fresh v, same, eq_comm]
  · have other : ∀ w, (c, v) ≠ (last.1, w) := fun w equal =>
      here (same.symm.trans (congrArg Prod.fst equal).symm)
    rw [sumAt?_snoc_of_ne here, ← summed.sums, List.mem_cons, or_iff_right (other _),
      or_iff_right (other last.2)]

/-- Triplets that come in the order of their cells. -/
theorem step (summed : Summed ts done) (sorted : ∀ s ∈ ts, Cell.le s.1 t.1 = true) :
    Summed (ts ++ [t]) (addNeighbour done t) := by
  have upTo : ∀ d ∈ done, d.1 = t.1 ∨ d.1.Before t.1 := by
    intro d member
    have found : sumAt? d.1 ts = some d.2 := (summed.sums _ _).mp member
    obtain ⟨s, inTs, same⟩ := sumAt?_ne_none_iff.mp (found ▸ Option.some_ne_none d.2)
    exact same ▸ Cell.le_iff.mp (sorted s inTs)
  cases done with
  | nil => exact summed.push (List.forall_mem_nil _)
  | cons last before =>
    by_cases same : last.1 = t.1
    · rw [addNeighbour, if_pos same]
      exact summed.add same
    · rw [addNeighbour_of_ne (by simpa using same)]
      have next := (upTo last (List.mem_cons_self ..)).resolve_left same
      have behind := (List.pairwise_cons.mp summed.descending).1
      refine summed.push (List.forall_mem_cons.mpr ⟨next, fun d member => ?_⟩)
      have earlier := behind d member
      unfold Cell.Before at *
      omega

/-- Neighbours are added from the left, by induction from the right. -/
theorem foldl (sorted : ts.Pairwise fun a b => Cell.le a.1 b.1 = true) :
    Summed ts (ts.foldl addNeighbour []) := by
  induction ts using List.reverseRecOn with
  | nil => exact nil
  | append_singleton ts t ih =>
    obtain ⟨front, -, behind⟩ := List.pairwise_append.mp sorted
    rw [List.foldl_append]
    exact (ih front).step fun s member => behind s member t (List.mem_singleton_self t)

end Summed

omit [Add α] in
/-- Sorting keeps the values for a cell in their order. -/
theorem valuesAt_mergeSort (c : Cell) (ts : List (Triplet α)) :
    valuesAt c (ts.mergeSort fun a b => Cell.le a.1 b.1) = valuesAt c ts := by
  have equal : (ts.filter (·.1 = c)).Pairwise fun a b => Cell.le a.1 b.1 = true := by
    refine List.pairwise_of_forall_mem_list fun a first b second => ?_
    have sameFirst : a.1 = c := of_decide_eq_true (List.mem_filter.mp first).2
    have sameSecond : b.1 = c := of_decide_eq_true (List.mem_filter.mp second).2
    exact Cell.le_iff.mpr (.inl (sameFirst.trans sameSecond.symm))
  -- Values for one cell are equal to sorting, so they stay a sublist of what is sorted.
  have kept : (ts.filter (·.1 = c)).Sublist (ts.mergeSort fun a b => Cell.le a.1 b.1) := by
    apply List.sublist_mergeSort
    · exact fun _ _ _ => Cell.le_trans
    · exact fun a b => Cell.le_total a.1 b.1
    · exact equal
    · exact List.filter_sublist
  have count := ((List.mergeSort_perm ts fun a b => Cell.le a.1 b.1).filter (·.1 = c)).length_eq
  have whole := kept.filter (·.1 = c)
  rw [List.filter_filter] at whole
  simp only [Bool.and_self] at whole
  rw [valuesAt, valuesAt, ← whole.eq_of_length count.symm]

theorem sumAt?_congr (same : valuesAt c us = valuesAt c ts) : sumAt? c us = sumAt? c ts := by
  rw [sumAt?, sumAt?, same]

theorem summed_gather (ts : List (Triplet α)) :
    InOrder (gather ts) ∧ ∀ c v, (c, v) ∈ gather ts ↔ sumAt? c ts = some v := by
  have summed := Summed.foldl (pairwise_mergeSort_cells ts)
  rw [gather, combine_eq]
  refine ⟨List.pairwise_reverse.mpr summed.descending, fun c v => ?_⟩
  rw [List.mem_reverse, summed.sums, sumAt?_congr (valuesAt_mergeSort c ts)]

/-- Gathering looks at nothing but the values for each cell. -/
theorem gather_congr (same : ∀ c, valuesAt c us = valuesAt c ts) : gather us = gather ts := by
  obtain ⟨ordered, sums⟩ := summed_gather us
  obtain ⟨ordered', sums'⟩ := summed_gather ts
  refine ordered.eq_of_mem_iff ordered' fun ⟨c, v⟩ => ?_
  rw [sums, sums', sumAt?_congr (same c)]

theorem exists_of_mem_gather (member : t ∈ gather ts) : ∃ s ∈ ts, s.1 = t.1 := by
  have found := ((summed_gather ts).2 t.1 t.2).mp member
  exact sumAt?_ne_none_iff.mp (found ▸ Option.some_ne_none t.2)

end Sums

namespace Csr

variable [Add α] {nRows nCols : Nat} {ts us : List (Triplet α)}

/-- A cell inside of a shape. -/
def InShape (nRows nCols : Nat) (c : Cell) : Prop := c.1 < nRows ∧ c.2 < nCols

/-- A well-formed matrix that stores the sums of triplets: each of their cells once, with the sum of
its values, and no other cell. -/
structure Gathers (m : Csr α) (nRows nCols : Nat) (ts : List (Triplet α)) : Prop where
  nRows : m.nRows = nRows
  nCols : m.nCols = nCols
  sound : m.Sound
  start : m.pointer 0 = 0
  stop : m.pointer m.nRows = m.cols.size
  ordered : InOrder m.entries
  cells : ∀ c, c ∈ m.entries.map Prod.fst ↔ c ∈ ts.map Prod.fst
  sums : ∀ c v, (c, v) ∈ m.entries ↔ sumAt? c ts = some v

omit [Add α] in
theorem find?_outside_eq_none_iff :
    (ts.find? fun t => nRows ≤ t.1.1 || nCols ≤ t.1.2) = none ↔
      ∀ t ∈ ts, InShape nRows nCols t.1 := by
  simp [List.find?_eq_none, InShape]

theorem inShape_of_mem_gather (inside : ∀ t ∈ ts, InShape nRows nCols t.1) :
    ∀ t ∈ gather ts, InShape nRows nCols t.1 := by
  intro t member
  obtain ⟨s, inTs, same⟩ := exists_of_mem_gather member
  exact same ▸ inside s inTs

/-- Triplets inside of the shape are gathered, if there is room for the bounds of the rows. -/
theorem ofTriplets_of_inside (inside : ∀ t ∈ ts, InShape nRows nCols t.1) :
    ofTriplets nRows nCols ts = (do
      reserve (nRows + 1) wordBytes
      return ofEntries nRows nCols (gather ts)) := by
  have ordered := (summed_gather ts).1
  have within := inShape_of_mem_gather inside
  have made := make_ofEntries ordered within
  rw [ofEntries_eq ordered fun t member => (within t member).1] at made ⊢
  rw [ofTriplets, find?_outside_eq_none_iff.mpr inside]
  dsimp only at made ⊢
  rw [made]
  rfl

theorem ofTriplets_of_room (inside : ∀ t ∈ ts, InShape nRows nCols t.1)
    (room : (nRows + 1) * wordBytes < signedLimit) :
    ofTriplets nRows nCols ts = .ok (ofEntries nRows nCols (gather ts)) := by
  rw [ofTriplets_of_inside inside, reserve_eq_ok_iff.mpr room]
  rfl

theorem ofTriplets_of_no_room (inside : ∀ t ∈ ts, InShape nRows nCols t.1)
    (full : signedLimit ≤ (nRows + 1) * wordBytes) :
    ofTriplets nRows nCols ts = .error .outOfBounds := by
  have past : allocationLimit < (nRows + 1) * wordBytes :=
    Nat.lt_of_lt_of_le (by decide) full
  rw [ofTriplets_of_inside inside, reserve, if_pos past]
  rfl

theorem gathers_ofEntries (inside : ∀ t ∈ ts, InShape nRows nCols t.1) :
    (ofEntries nRows nCols (gather ts)).Gathers nRows nCols ts := by
  obtain ⟨ordered, sums⟩ := summed_gather ts
  have within := inShape_of_mem_gather inside
  have made := make_ofEntries ordered within
  have entries := entries_ofEntries (k := nCols) ordered fun t member => (within t member).1
  obtain ⟨sound, width⟩ := sound_of_make made
  obtain ⟨start, stop⟩ := ends_of_make made
  refine ⟨nRows_ofEntries, width, sound, start, stop, entries.symm ▸ ordered, ?_, entries.symm ▸ sums⟩
  intro c
  have known : c ∈ ts.map Prod.fst ↔ ∃ v, sumAt? c ts = some v := by
    rw [List.mem_map, ← sumAt?_ne_none_iff, Option.ne_none_iff_exists']
  rw [entries, known, List.mem_map]
  constructor
  · rintro ⟨⟨_, v⟩, member, rfl⟩
    exact ⟨v, (sums _ v).mp member⟩
  · rintro ⟨v, found⟩
    exact ⟨(c, v), (sums c v).mpr found, rfl⟩

/-- A triplet outside of the shape is refused, the first one by name. -/
theorem ofTriplets_of_outside {front back : List (Triplet α)} {t : Triplet α}
    (inside : ∀ s ∈ front, InShape nRows nCols s.1) (outside : ¬InShape nRows nCols t.1) :
    ofTriplets nRows nCols (front ++ t :: back)
      = .error (.error (.matrix (.entryBound t.1.1 t.1.2 nRows nCols))) := by
  have past : (nRows ≤ t.1.1 || nCols ≤ t.1.2) = true := by
    rw [Bool.or_eq_true, decide_eq_true_eq, decide_eq_true_eq]
    unfold InShape at outside
    omega
  have found : (front ++ t :: back).find? (fun t => nRows ≤ t.1.1 || nCols ≤ t.1.2) = some t := by
    rw [List.find?_append, find?_outside_eq_none_iff.mpr inside, Option.none_or]
    exact List.find?_cons_of_pos past
  rw [ofTriplets, found]
  rfl

omit [Add α] in
theorem exists_first_outside (outside : ∃ t ∈ ts, ¬InShape nRows nCols t.1) :
    ∃ front t back, ts = front ++ t :: back ∧ (∀ s ∈ front, InShape nRows nCols s.1) ∧
      ¬InShape nRows nCols t.1 := by
  obtain ⟨t, found⟩ : ∃ t, (ts.find? fun t => nRows ≤ t.1.1 || nCols ≤ t.1.2) = some t := by
    rw [← Option.ne_none_iff_exists', Ne, find?_outside_eq_none_iff]
    simpa using outside
  obtain ⟨past, front, back, parts, before⟩ := List.find?_eq_some_iff_append.mp found
  refine ⟨front, t, back, parts, fun s member => ?_, ?_⟩
  · have inside := before s member
    simpa [InShape] using inside
  · rw [Bool.or_eq_true, decide_eq_true_eq, decide_eq_true_eq] at past
    unfold InShape
    omega

/-- Triplets are refused for the first of them that lies outside of the shape, and for nothing else. -/
theorem refused_iff : (∃ fault, ofTriplets nRows nCols ts = .error (.error (.matrix fault))) ↔
    ∃ t ∈ ts, ¬InShape nRows nCols t.1 := by
  constructor
  · rintro ⟨fault, refused⟩
    by_contra all
    have inside : ∀ t ∈ ts, InShape nRows nCols t.1 := fun t member =>
      by_contra fun outside => all ⟨t, member, outside⟩
    rcases Nat.lt_or_ge ((nRows + 1) * wordBytes) signedLimit with room | full
    · rw [ofTriplets_of_room inside room] at refused
      cases refused
    · rw [ofTriplets_of_no_room inside full] at refused
      cases refused
  · intro outside
    obtain ⟨front, t, back, rfl, inside, past⟩ := exists_first_outside outside
    exact ⟨_, ofTriplets_of_outside inside past⟩

omit [Add α] in
theorem inShape_congr (same : ∀ c, valuesAt c us = valuesAt c ts)
    (inside : ∀ t ∈ ts, InShape nRows nCols t.1) : ∀ t ∈ us, InShape nRows nCols t.1 := by
  intro t member
  have given : valuesAt t.1 ts ≠ [] := same t.1 ▸ valuesAt_ne_nil_iff.mpr ⟨t, member, rfl⟩
  obtain ⟨s, inTs, cell⟩ := valuesAt_ne_nil_iff.mp given
  exact cell ▸ inside s inTs

/-- Two lists with the same values for each cell have the same outcome, once they lie inside. -/
theorem ofTriplets_congr (same : ∀ c, valuesAt c us = valuesAt c ts)
    (inside : ∀ t ∈ ts, InShape nRows nCols t.1) :
    ofTriplets nRows nCols us = ofTriplets nRows nCols ts := by
  rw [ofTriplets_of_inside inside, ofTriplets_of_inside (inShape_congr same inside),
    gather_congr same]

/-- Only triplets that lie inside of the shape make a matrix. -/
theorem inShape_of_ofTriplets {m : Csr α} (built : ofTriplets nRows nCols ts = .ok m) :
    ∀ t ∈ ts, InShape nRows nCols t.1 := by
  intro t member
  by_contra outside
  obtain ⟨fault, refused⟩ := refused_iff.mpr ⟨t, member, outside⟩
  rw [refused] at built
  cases built

/-- Two lists with the same values for each cell make the same matrix, if either makes one. -/
theorem ofTriplets_eq_ok_congr (same : ∀ c, valuesAt c us = valuesAt c ts) (m : Csr α) :
    ofTriplets nRows nCols us = .ok m ↔ ofTriplets nRows nCols ts = .ok m := by
  constructor
  · intro built
    have inside := inShape_congr (fun c => (same c).symm) (inShape_of_ofTriplets built)
    rw [← ofTriplets_congr same inside, built]
  · intro built
    rw [ofTriplets_congr same (inShape_of_ofTriplets built), built]

/-- What becomes of triplets. They are refused exactly when one of them lies outside of the shape, and
the error names the first that does. If all lie inside, the matrix stores their sums, where there is
room for the bounds of its rows; without room nothing is built. Another list with the same values for
each cell, in the same order, makes the same matrix; one of them may name another triplet than the
other does only where both are refused. -/
theorem ofTriplets_outcome (nRows nCols : Nat) (ts : List (Triplet α)) :
    ((∃ fault, ofTriplets nRows nCols ts = .error (.error (.matrix fault))) ↔
      ∃ t ∈ ts, ¬InShape nRows nCols t.1) ∧
    (∀ front t back, ts = front ++ t :: back → (∀ s ∈ front, InShape nRows nCols s.1) →
      ¬InShape nRows nCols t.1 → ofTriplets nRows nCols ts
        = .error (.error (.matrix (.entryBound t.1.1 t.1.2 nRows nCols)))) ∧
    ((∀ t ∈ ts, InShape nRows nCols t.1) → (nRows + 1) * wordBytes < signedLimit →
      ∃ m, ofTriplets nRows nCols ts = .ok m ∧ m.Gathers nRows nCols ts) ∧
    ((∀ t ∈ ts, InShape nRows nCols t.1) → signedLimit ≤ (nRows + 1) * wordBytes →
      ofTriplets nRows nCols ts = .error .outOfBounds) ∧
    (∀ us, (∀ c, valuesAt c us = valuesAt c ts) →
      (∀ m, ofTriplets nRows nCols us = .ok m ↔ ofTriplets nRows nCols ts = .ok m) ∧
      ((∀ t ∈ ts, InShape nRows nCols t.1) →
        ofTriplets nRows nCols us = ofTriplets nRows nCols ts)) := by
  refine ⟨refused_iff, ?_, ?_, ofTriplets_of_no_room, ?_⟩
  · rintro front t back rfl inside outside
    exact ofTriplets_of_outside inside outside
  · intro inside room
    exact ⟨_, ofTriplets_of_room inside room, gathers_ofEntries inside⟩
  · intro us same
    exact ⟨ofTriplets_eq_ok_congr same, ofTriplets_congr same⟩

/-- Two cells that are given twice, with a sum of zero that stays. The same list in another order, one
with two triplets outside, and a shape with too many rows. -/
theorem ofTriplets_outcome_given_twice :
    let ts : List (Triplet Int32) := [((1, 0), 5), ((0, 1), 2), ((1, 0), -5), ((0, 1), 3)]
    let us : List (Triplet Int32) := [((0, 1), 2), ((1, 0), 5), ((0, 1), 3), ((1, 0), -5)]
    (∃ m, ofTriplets 3 2 ts = .ok m ∧ ofTriplets 3 2 us = .ok m ∧ m.Gathers 3 2 ts ∧
      ((1, 0), 0) ∈ m.entries) ∧
    ofTriplets 3 2 (ts ++ [((0, 2), 1), ((3, 0), 1)])
      = .error (.error (.matrix (.entryBound 0 2 3 2))) ∧
    ofTriplets signedLimit 2 ts = .error .outOfBounds := by
  intro ts us
  have inside : ∀ t ∈ ts, InShape 3 2 t.1 := by simp [ts, InShape]
  have insideLarge : ∀ t ∈ ts, InShape signedLimit 2 t.1 := fun t member =>
    ⟨Nat.lt_trans (inside t member).1 (by decide), (inside t member).2⟩
  have same : ∀ c, valuesAt c us = valuesAt c ts := by
    intro c
    by_cases first : (1, 0) = c
    · subst first
      rfl
    · by_cases second : (0, 1) = c
      · subst second
        rfl
      · simp [valuesAt, ts, us, first, second]
  obtain ⟨-, -, build, -, order⟩ := ofTriplets_outcome 3 2 ts
  obtain ⟨-, name, -⟩ := ofTriplets_outcome 3 2 (ts ++ [((0, 2), 1), ((3, 0), 1)])
  obtain ⟨-, -, -, stop, -⟩ := ofTriplets_outcome signedLimit 2 ts
  obtain ⟨m, built, gathers⟩ := build inside (by decide)
  have zero : sumAt? (1, 0) ts = some 0 := rfl
  exact ⟨⟨m, built, ((order us same).1 m).mpr built, gathers, (gathers.sums _ _).mpr zero⟩,
    name ts _ _ rfl inside (by simp [InShape]), stop insideLarge (by decide)⟩

/-- A shape whose rows have more bounds than an array holds. No triplet lies outside of it, for there
is none, and still no matrix is built. -/
theorem ofTriplets_rows_past_memory :
    let nRows := 1152921504606846976
    let ts : List (Triplet Int64) := []
    nRows < wordLimit ∧ (∀ t ∈ ts, InShape nRows 1 t.1) ∧
      ofTriplets nRows 1 ts = .error .outOfBounds ∧ ¬∃ m, ofTriplets nRows 1 ts = .ok m := by
  intro nRows ts
  have inside : ∀ t ∈ ts, InShape nRows 1 t.1 := List.forall_mem_nil _
  have stopped := ofTriplets_of_no_room inside (by decide)
  refine ⟨by decide, inside, stopped, ?_⟩
  rintro ⟨m, built⟩
  rw [stopped] at built
  cases built

end Csr
end SparseStream
