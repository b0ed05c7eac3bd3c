import SparseStream.Proofs.History
import SparseStream.Proofs.Layout
import SparseStream.Proofs.Search

/-! Flags of a layout. The registry of an encoder that wrote a layout holds exactly the table of the
layout, a flag once given out names its kind for good, and the table finds the kind under it. -/
namespace SparseStream.Layout

/-- The flags asked for while a layout is written. -/
def calls (layout : List Placed) : List (Kind × Nat) :=
  layout.map fun x => (x.piece.kind, x.piece.size)

theorem calls_snoc (before : List Placed) (x : Placed) :
    calls (before ++ [x]) = calls before ++ [(x.piece.kind, x.piece.size)] :=
  List.map_append

theorem kinds_eq_seen (layout : List Placed) : kinds layout = Registry.seen (calls layout) := by
  rw [kinds, Registry.seen, calls, List.map_map]
  rfl

theorem entries_eq (layout : List Placed) : entries layout = Registry.entriesOf (calls layout) := by
  rw [entries, Registry.entriesOf, kinds_eq_seen]
  simp [entry, Registry.entryOf, calls, List.filter_map, Function.comp_def]

theorem kinds_snoc (before : List Placed) (x : Placed) :
    kinds (before ++ [x])
      = kinds before ++ if x.piece.kind ∈ kinds before then [] else [x.piece.kind] := by
  rw [kinds_eq_seen, kinds_eq_seen, calls_snoc]
  exact Registry.seen_snoc (calls before) (x.piece.kind, x.piece.size)

theorem nodup_kinds (layout : List Placed) : (kinds layout).Nodup := nodup_eraseDups _

theorem kinds_append (xs ys : List Placed) : ∃ more, kinds (xs ++ ys) = kinds xs ++ more := by
  rw [kinds, List.map_append, List.eraseDups_append]
  exact ⟨_, rfl⟩

theorem length_kinds_append_le (xs ys : List Placed) :
    (kinds xs).length ≤ (kinds (xs ++ ys)).length := by
  obtain ⟨more, same⟩ := kinds_append xs ys
  rw [same, List.length_append]
  exact Nat.le_add_right _ _

/-- Further pieces leave the flag of a piece as it is. -/
theorem idxOf_kinds_append (before rest : List Placed) (x : Placed) :
    (kinds (before ++ x :: rest)).idxOf x.piece.kind + 1 = flag before x := by
  have regroup : before ++ x :: rest = (before ++ [x]) ++ rest := by simp
  obtain ⟨more, same⟩ := kinds_append (before ++ [x]) rest
  rw [regroup, same, flag, kinds_snoc]
  by_cases known : x.piece.kind ∈ kinds before
  · rw [if_pos known, List.append_nil, List.idxOf_append, if_pos known]
  · rw [if_neg known, List.append_assoc, List.idxOf_append, if_neg known,
      List.idxOf_eq_length known]
    simp

theorem mem_kinds_append (before rest : List Placed) (x : Placed) :
    x.piece.kind ∈ kinds (before ++ x :: rest) :=
  mem_kinds.mpr ⟨x, by simp, rfl⟩

theorem flag_lt {before : List Placed} {x : Placed} (few : (kinds before).length ≤ Header.maxFlag)
    (room : x.piece.kind ∈ kinds before ∨ (kinds before).length < Header.maxFlag) :
    flag before x < 64 := by
  rw [flag]
  rw [Header.maxFlag_eq] at few room
  rcases room with known | room
  · have place := List.idxOf_lt_length_of_mem known
    omega
  · have place := List.idxOf_le_length (a := x.piece.kind) (l := kinds before)
    omega

theorem length_kinds_snoc_le {before : List Placed} {x : Placed}
    (few : (kinds before).length ≤ Header.maxFlag)
    (room : x.piece.kind ∈ kinds before ∨ (kinds before).length < Header.maxFlag) :
    (kinds (before ++ [x])).length ≤ Header.maxFlag := by
  rw [kinds_snoc]
  by_cases known : x.piece.kind ∈ kinds before
  · simp [known, few]
  · rcases room with seen | room
    · exact absurd seen known
    · simpa [known] using Nat.succ_le_of_lt room

theorem kinds_entries (layout : List Placed) :
    (entries layout).map KindEntry.kind = kinds layout := by
  rw [entries_eq, kinds_eq_seen, Registry.kinds_entriesOf]

theorem length_entries (layout : List Placed) :
    (entries layout).length = (kinds layout).length := by
  rw [← kinds_entries, List.length_map]

theorem kind_entries (layout : List Placed) (i : Nat) (bound : i < (entries layout).length)
    (inKinds : i < (kinds layout).length) : (entries layout)[i].kind = (kinds layout)[i] := by
  simp [entries, entry]

theorem flag_entries (layout : List Placed) (i : Nat) (bound : i < (entries layout).length) :
    (entries layout)[i].flag = i + 1 := by
  simp [entries, entry]

/-- The table of a whole layout finds the kind of each of its pieces under the flag of the piece. -/
theorem kind?_flag (before rest : List Placed) (x : Placed) :
    (table (before ++ x :: rest)).kind? (flag before x) = some x.piece.kind := by
  have member := mem_kinds_append before rest x
  rw [← idxOf_kinds_append before rest x]
  generalize before ++ x :: rest = layout at member ⊢
  have inKinds : (kinds layout).idxOf x.piece.kind < (kinds layout).length :=
    List.idxOf_lt_length_of_mem member
  have bound : (kinds layout).idxOf x.piece.kind < (entries layout).length :=
    length_entries layout ▸ inKinds
  rw [KindTable.kind?_of_numbered (table layout) (flag_entries layout) _ bound]
  exact congrArg some ((kind_entries layout _ bound inKinds).trans (List.getElem_idxOf inKinds))

theorem entries_snoc_of_mem {before : List Placed} {x : Placed}
    (known : x.piece.kind ∈ kinds before) :
    entries (before ++ [x])
      = (entries before).map (Registry.counted x.piece.kind x.piece.size) := by
  rw [entries_eq, entries_eq, calls_snoc]
  exact Registry.entriesOf_snoc_of_mem (kinds_eq_seen before ▸ known)

theorem entries_snoc_of_not_mem {before : List Placed} {x : Placed}
    (new : x.piece.kind ∉ kinds before) :
    entries (before ++ [x])
      = entries before ++ [⟨x.piece.kind, flag before x, 1, x.piece.size⟩] := by
  rw [flag, List.idxOf_eq_length new, kinds_eq_seen, entries_eq, entries_eq, calls_snoc]
  exact Registry.entriesOf_snoc_of_not_mem (kinds_eq_seen before ▸ new)

/-- The registry gives a unit its flag unless the kind is new and the flags are used up, and holds
the table of the longer layout then. -/
theorem assign_entries (before : List Placed) (x : Placed) :
    Registry.assign ⟨entries before⟩ x.piece.kind x.piece.size =
      if x.piece.kind ∉ kinds before ∧ Header.maxFlag ≤ (kinds before).length then
        .error .tooManyKinds
      else .ok (flag before x, ⟨entries (before ++ [x])⟩) := by
  rw [flag, kinds_eq_seen, entries_eq, entries_eq, calls_snoc]
  exact Registry.assign_entriesOf (calls before) (x.piece.kind, x.piece.size)

end SparseStream.Layout
