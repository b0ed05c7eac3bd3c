import Mathlib.Data.List.Induction
import Mathlib.Data.List.Nodup
import SparseStream.Proofs.Contents

/-! The table of an encoded partition as a description of its stream. The encoder counts units while
it writes them; a reader of the stream finds the same kinds in the same order, with as many units and
elements as the table says. -/
namespace SparseStream

/-- A table that tells all about the kinds of units: flags from one on in the order of first sight,
and for each flag how many units carry it and how many elements these cover. -/
structure KindTable.Describes (t : KindTable) (us : List StreamUnit) : Prop where
  flags : t.entries.map KindEntry.flag = List.range' 1 t.entries.length
  few : t.entries.length ≤ Header.maxFlag
  kinds : t.entries.map KindEntry.kind = (us.map StreamUnit.kind).eraseDups
  distinct : (t.entries.map KindEntry.kind).Nodup
  units : ∀ e ∈ t.entries, e.units = (us.filter (·.flag = e.flag)).length
  elements : ∀ e ∈ t.entries,
    e.elements = total ((us.filter (·.flag = e.flag)).map StreamUnit.size)
  known : ∀ u ∈ us, ∃ e ∈ t.entries, e.flag = u.flag ∧ e.kind = u.kind

namespace Layout

/-- Flag, kind and size of each unit, for the kinds of the whole layout. -/
theorem map_unitsAfter (mode : ColumnMode) (before : List Placed) (offset : Nat)
    (rest : List Placed) :
    (unitsAfter mode before offset rest).map (fun u => (u.flag, u.kind, u.size))
      = rest.map fun x =>
        ((kinds (before ++ rest)).idxOf x.piece.kind + 1, x.piece.kind, x.piece.size) := by
  induction rest generalizing before offset with
  | nil => rfl
  | cons x rest ih =>
    have regroup : before ++ x :: rest = (before ++ [x]) ++ rest := by simp
    rw [unitsAfter, List.map_cons, List.map_cons, ih, ← regroup, idxOf_kinds_append]
    rfl

theorem flags_entries (layout : List Placed) :
    (entries layout).map KindEntry.flag = List.range' 1 (entries layout).length := by
  apply List.ext_getElem
  · simp
  · intro i _ inside
    rw [List.getElem_map, flag_entries, List.getElem_range']
    omega

/-- The units under a flag are those of its kind. -/
theorem map_size_filter_units (mode : ColumnMode) {layout : List Placed} {i : Nat}
    (bound : i < (kinds layout).length) :
    ((units mode layout).filter (·.flag = i + 1)).map StreamUnit.size
      = (layout.filter (·.piece.kind = (kinds layout)[i])).map (·.piece.size) := by
  have place : ∀ x ∈ layout, (kinds layout).idxOf x.piece.kind = i ↔
      x.piece.kind = (kinds layout)[i] := by
    intro x member
    have known : x.piece.kind ∈ kinds layout := mem_kinds.mpr ⟨x, member, rfl⟩
    constructor
    · rintro rfl
      exact (List.getElem_idxOf (List.idxOf_lt_length_of_mem known)).symm
    · intro same
      rw [same, (nodup_kinds layout).idxOf_getElem]
  have all := map_unitsAfter mode [] 0 layout
  rw [List.nil_append] at all
  calc ((units mode layout).filter (·.flag = i + 1)).map StreamUnit.size
      = (((units mode layout).map fun u => (u.flag, u.kind, u.size)).filter (·.1 = i + 1)).map
          (·.2.2) := by simp [List.filter_map, Function.comp_def]
    _ = (layout.filter ((kinds layout).idxOf ·.piece.kind + 1 = i + 1)).map (·.piece.size) := by
      rw [units, all]
      simp [List.filter_map, Function.comp_def]
    _ = (layout.filter (·.piece.kind = (kinds layout)[i])).map (·.piece.size) := by
      congr 1
      apply List.filter_congr
      intro x member
      simp [place x member]

/-- The table of a layout describes the units of the layout. -/
theorem describes_units (mode : ColumnMode) {layout : List Placed}
    (few : (kinds layout).length ≤ Header.maxFlag) :
    (table layout).Describes (units mode layout) := by
  have all := map_unitsAfter mode [] 0 layout
  rw [List.nil_append] at all
  have each : ∀ e ∈ entries layout, ∃ i, ∃ _ : i < (kinds layout).length,
      e = entry layout (kinds layout)[i] i := by
    intro e member
    obtain ⟨⟨kind, i⟩, inKinds, rfl⟩ := List.mem_map.mp member
    obtain ⟨-, bound, same⟩ := List.mem_zipIdx inKinds
    exact ⟨i, by simpa using bound, by simp [same]⟩
  constructor
  · exact flags_entries layout
  · exact length_entries layout ▸ few
  · have same := congrArg (List.map fun s => s.2.1) all
    simp only [List.map_map, Function.comp_def] at same
    rw [units, same]
    exact kinds_entries layout
  · exact kinds_entries layout ▸ nodup_kinds layout
  · intro e member
    obtain ⟨i, bound, rfl⟩ := each e member
    have sizes := congrArg List.length (map_size_filter_units mode bound)
    rw [List.length_map, List.length_map] at sizes
    exact sizes.symm
  · intro e member
    obtain ⟨i, bound, rfl⟩ := each e member
    exact congrArg total (map_size_filter_units mode bound).symm
  · intro u member
    have inAll := List.mem_map_of_mem (f := fun u => (u.flag, u.kind, u.size)) member
    rw [units, all] at inAll
    obtain ⟨x, placed, same⟩ := List.mem_map.mp inAll
    simp only [Prod.mk.injEq] at same
    have inKinds : (kinds layout).idxOf x.piece.kind < (kinds layout).length :=
      List.idxOf_lt_length_of_mem (mem_kinds.mpr ⟨x, placed, rfl⟩)
    have bound : (kinds layout).idxOf x.piece.kind < (entries layout).length :=
      length_entries layout ▸ inKinds
    refine ⟨_, List.getElem_mem bound, ?_, ?_⟩
    · rw [flag_entries, same.1]
    · rw [kind_entries layout _ bound inKinds, List.getElem_idxOf inKinds, same.2.1]

end Layout

theorem total_map_filter (P : β → Bool) (f : β → Nat) (xs : List β) :
    total ((xs.filter P).map f) = total (xs.map fun x => if P x then f x else 0) := by
  induction xs with
  | nil => rfl
  | cons x xs ih => cases holds : P x <;> simp [holds, ih]

/-- The elements of an entry, if its kind is asked for. -/
def KindEntry.share (P : Kind → Bool) (e : KindEntry) : Nat := if P e.kind then e.elements else 0

namespace Layout

/-- One more unit of a kind adds its size once. -/
theorem total_share_counted (P : Kind → Bool) {kind : Kind} {n : Nat} {es : List KindEntry}
    (distinct : (es.map KindEntry.kind).Nodup) (known : kind ∈ es.map KindEntry.kind) :
    total ((es.map (Registry.counted kind n)).map (KindEntry.share P))
      = total (es.map (KindEntry.share P)) + if P kind then n else 0 := by
  induction es with
  | nil => cases known
  | cons e es ih =>
    rw [List.map_cons, List.nodup_cons] at distinct
    simp only [List.map_cons, total_cons]
    by_cases here : e.kind = kind
    · -- no other entry has this kind, so those behind count nothing
      have others : ∀ e' ∈ es, Registry.counted kind n e' = e' := by
        intro e' member
        rw [Registry.counted, if_neg]
        rintro rfl
        exact distinct.1 (here ▸ List.mem_map_of_mem member)
      have first : KindEntry.share P (Registry.counted kind n e)
          = KindEntry.share P e + if P kind then n else 0 := by
        cases asked : P kind <;> simp [KindEntry.share, Registry.counted, here, asked]
      rw [List.map_congr_left others, List.map_id', first]
      omega
    · have later : kind ∈ es.map KindEntry.kind :=
        (List.mem_cons.mp known).resolve_left (Ne.symm here)
      rw [ih distinct.2 later, Registry.counted, if_neg here]
      omega

/-- The entries of a table share out the elements of all units. -/
theorem total_share_entries (P : Kind → Bool) (layout : List Placed) :
    total ((entries layout).map (KindEntry.share P))
      = total (layout.map fun x => if P x.piece.kind then x.piece.size else 0) := by
  induction layout using List.reverseRecOn with
  | nil => rfl
  | append_singleton before x ih =>
    rw [List.map_append, total_append, ← ih]
    by_cases known : x.piece.kind ∈ kinds before
    · rw [entries_snoc_of_mem known, total_share_counted P (kinds_entries before ▸ nodup_kinds before)
        (kinds_entries before ▸ known)]
      simp
    · rw [entries_snoc_of_not_mem known, List.map_append, total_append]
      simp [KindEntry.share]

end Layout

namespace Piece

/-- A count of pieces that goes along with a count of elements, wherever stretches of columns are
cut: the same for each column of a run, and the same for a pattern as for its element. -/
structure CountsAs (f : Piece → Nat) (g : Element α → Nat) (each : Nat) : Prop where
  run : ∀ cols, f (run cols) = each * cols.length
  plain : ∀ col value, g (.plain col value) = each
  pattern : ∀ col p values, g (.pattern col p values) = f (pattern col p)

variable {f : Piece → Nat} {g : Element α → Nat} {each : Nat}

theorem CountsAs.total_runs (counts : CountsAs f g each) (cols : List Nat) :
    total ((runs cols).map f) = each * cols.length := by
  induction cols using stretch_induction with
  | nil => rfl
  | short cols nonempty fits => simp [runs_of_short nonempty fits, counts.run]
  | long full held length nonempty ih =>
    rw [runs_append length nonempty, List.map_cons, total_cons, ih, counts.run, List.length_append,
      Nat.mul_add]

theorem CountsAs.total_ofRowAfter (counts : CountsAs f g each) (held : List Nat)
    (row : List (Element α)) :
    total ((ofRowAfter held row).map f) = each * held.length + total (row.map g) := by
  induction row generalizing held with
  | nil => simp [ofRowAfter, counts.total_runs]
  | cons x row ih =>
    cases x with
    | plain col value =>
      rw [ofRowAfter, ih, List.length_append, List.map_cons, total_cons, counts.plain]
      simp [Nat.mul_add, Nat.add_assoc]
    | pattern col p values =>
      rw [ofRowAfter, List.map_append, total_append, counts.total_runs, List.map_cons, total_cons,
        ih, List.map_cons, total_cons, counts.pattern]
      simp

theorem CountsAs.total_ofRow (counts : CountsAs f g each) (row : List (Element α)) :
    total ((ofRow row).map f) = total (row.map g) :=
  (counts.total_ofRowAfter [] row).trans (Nat.zero_add _)

theorem CountsAs.total_ofSymmetricRow (counts : CountsAs f g each) (row : List (Element α))
    (rowStart : Nat) : total ((ofSymmetricRow row rowStart).map f) = total (row.map g) := by
  rw [ofSymmetricRow, List.map_append, total_append, counts.total_ofRow, counts.total_ofRow,
    ← total_append, ← List.map_append, List.takeWhile_append_dropWhile]

end Piece

/-- The pieces of a partition count as its elements do. -/
theorem Partition.total_layout {f : Piece → Nat} {g : Element α → Nat} {each : Nat}
    (counts : Piece.CountsAs f g each) (symmetric : Bool) (p : Partition α) :
    total ((p.layout symmetric).map fun x => f x.piece) = total (p.rows.flatten.map g) := by
  have one : ∀ row : List (Element α),
      total ((Operation.ofRow symmetric p.rowStart row).pieces.map f) = total (row.map g) := by
    intro row
    unfold Operation.ofRow
    cases row with
    | nil => rfl
    | cons x row =>
      cases symmetric with
      | false => exact counts.total_ofRow _
      | true => exact counts.total_ofSymmetricRow _ _
  unfold layout operations
  generalize 0 = first
  induction p.rows generalizing first with
  | nil => rfl
  | cons row rows ih =>
    rw [List.map_cons, Operation.layout_cons, List.map_append, total_append, ih, List.flatten_cons,
      List.map_append, total_append, ← one row, List.map_map]
    rfl

/-- Elements that patterns stand for. -/
def Partition.patternCount (p : Partition α) : Nat :=
  total ((p.rows.flatten.filter Element.isPattern).map Element.count)

/-- The table of an encoded partition says what the stream holds and what the partition held. -/
theorem Encoded.Holds.table_describes {m : Encoded α} {mode : ColumnMode} {symmetric : Bool}
    {p : Partition α} (sound : p.Sound) (holds : m.Holds mode symmetric p) :
    m.table.Describes (Layout.units mode (p.layout symmetric)) ∧ m.table.elements = p.count ∧
      m.table.patternElements = p.patternCount := by
  rw [holds.table]
  refine ⟨Layout.describes_units mode holds.few, ?_, ?_⟩
  · have shares := Layout.total_share_entries (fun _ => true) (p.layout symmetric)
    have counts : Piece.CountsAs Piece.size (Element.count (α := α)) 1 :=
      ⟨fun _ => (Nat.one_mul _).symm, fun _ _ => rfl, fun _ _ _ => rfl⟩
    have sizes := p.total_layout counts symmetric
    rw [sound.count] at sizes
    exact shares.trans sizes
  · have shares := Layout.total_share_entries Kind.isPattern (p.layout symmetric)
    have counts : Piece.CountsAs (fun piece => if piece.kind.isPattern then piece.size else 0)
        (fun x : Element α => if x.isPattern then x.count else 0) 0 :=
      ⟨fun _ => (Nat.zero_mul _).symm, fun _ _ => rfl, fun _ _ _ => rfl⟩
    rw [KindTable.patternElements, Partition.patternCount, total_map_filter, total_map_filter]
    exact shares.trans (p.total_layout counts symmetric)

/-- The table of an encoded partition describes its stream: flags in the order of first sight, and
the units and elements of each kind. Its elements are the entries of the partition, each of which has
its value, and those under patterns are the entries that stand in patterns. -/
theorem table_describes_units_of_encode [Zero α] [Stored α] (s : Settings) (limit : Nat) :
    (∀ (p : Partition α) (m : Encoded α), p.Accepted → p.nRows < wordLimit →
      (p.encode s limit).1 = .ok m →
      (∃ us, m.units = (us, none) ∧ m.table.Describes us) ∧ m.table.elements = p.count ∧
        m.count = p.count ∧ m.values.size = p.count ∧ m.table.patternElements = p.patternCount) ∧
    (∀ (p : SymmetricPartition α) (m : EncodedSymmetric α), p.Accepted → p.lower.nRows < wordLimit →
      (p.encode s limit).1 = .ok m →
      (∃ us, m.lower.units = (us, none) ∧ m.lower.table.Describes us) ∧
        m.lower.table.elements = p.lower.count ∧ m.lower.count = p.lower.count ∧
        m.lower.values.size = p.lower.count ∧
        m.lower.table.patternElements = p.lower.patternCount) := by
  have lower : ∀ (symmetric : Bool) (p : Partition α) (m : Encoded α), p.Accepted →
      p.nRows < wordLimit → (p.encodeWith s limit symmetric).1 = .ok m →
      (∃ us, m.units = (us, none) ∧ m.table.Describes us) ∧ m.table.elements = p.count ∧
        m.count = p.count ∧ m.values.size = p.count ∧
        m.table.patternElements = p.patternCount := by
    intro symmetric p m accepted rows encoded
    have holds := Partition.holds_of_encodeWith accepted.sound encoded
    obtain ⟨describes, elements, patterns⟩ := holds.table_describes accepted.sound
    exact ⟨⟨_, Partition.units_of_encodeWith accepted.sound rows encoded, describes⟩, elements,
      holds.count, holds.size_values accepted.sound, patterns⟩
  constructor
  · exact lower false
  · intro p m accepted rows encoded
    obtain ⟨_, below, rfl⟩ := SymmetricPartition.exists_below_of_encode encoded
    exact lower true p.lower _ accepted.lower rows below

/-- A run and a diagonal in two rows, and two runs below the diagonal of a symmetric partition. -/
theorem table_describes_run_and_diagonal :
    let diagonal : Pattern := ⟨.simple .diagonal 2, 2⟩
    let p : Partition Int32 :=
      ⟨0, 9, 4, [[.plain 1 10, .plain 4 20], [.pattern 0 diagonal [1, 2]], [], []], 0⟩
    let q : SymmetricPartition Int32 := ⟨⟨5, 10, 2, [[.plain 1 7], [.plain 5 8]], 0⟩, [1, 2]⟩
    (∃ m, (p.encode {} allocationLimit).1 = .ok m ∧ m.table.elements = 4 ∧
      m.table.patternElements = 2) ∧
    ∃ m us, (q.encode { mode := .full } allocationLimit).1 = .ok m ∧ m.lower.units = (us, none) ∧
      m.lower.table.Describes us := by
  intro diagonal p q
  have admitted : diagonal.Admitted :=
    .line (by decide : 2 < strideLimit) (by decide : 2 < wordLimit)
      (rfl : Pattern.line .diagonal 2 2 = _)
  have made : Partition.ofRows 0 9 p.rows = .ok p := rfl
  have accepted : p.Accepted :=
    .rows (by decide) (by simp [p, Element.Admitted, admitted]) made
  have madeBelow : Partition.ofRows 5 10 q.lower.rows = .ok q.lower := rfl
  have below : q.lower.Accepted := .rows (by decide) (by simp [q, Element.Admitted]) madeBelow
  have symmetric : q.Accepted :=
    .make below (rfl : SymmetricPartition.make q.lower [1, 2] = .ok q)
  constructor
  · obtain ⟨m, encoded⟩ := exists_ok_of_isOk
      (by decide +kernel : (p.encode {} allocationLimit).1.isOk = true)
    obtain ⟨-, elements, -, -, patterns⟩ :=
      (table_describes_units_of_encode {} allocationLimit).1 p m accepted (by decide) encoded
    exact ⟨m, encoded, elements, patterns⟩
  · obtain ⟨m, encoded⟩ := exists_ok_of_isOk
      (by decide +kernel : (q.encode { mode := .full } allocationLimit).1.isOk = true)
    obtain ⟨⟨us, read, describes⟩, -⟩ :=
      (table_describes_units_of_encode { mode := .full } allocationLimit).2 q m symmetric
        (by decide) encoded
    exact ⟨m, us, encoded, read, describes⟩

end SparseStream
