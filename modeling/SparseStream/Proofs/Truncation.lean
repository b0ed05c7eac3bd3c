import SparseStream.Proofs.Grammar

/-! Streams that were cut off. What is left of a sound stream reads as the units that it still holds
whole. A cut between two units goes unnoticed; any other cut is met as an early end of the bytes, by
the unit that it goes through. -/
namespace SparseStream

/-- The bytes were over before a field was. -/
inductive StreamFault.EndsEarly : StreamFault → Prop
  | varint : EndsEarly .endsInVarint
  | field (field : Field) : EndsEarly (.endsInField field)

namespace Reader

/-- The reader is left with some of the bytes, but not with all of them. -/
def CutIn (r : Reader) (bytes : List UInt8) : Prop :=
  ∃ missing, missing ≠ [] ∧ bytes = r.rest ++ missing

/-- Reading failed because the bytes of the reader were over. -/
def Exhausts (r : Reader) (outcome : Except Corruption α) : Prop :=
  ∃ c, outcome = .error c ∧ c.fault.EndsEarly ∧
    r.offset ≤ c.offset ∧ c.offset ≤ r.offset + r.rest.length

theorem CutIn.length_lt {r : Reader} {bytes : List UInt8} (cut : r.CutIn bytes) :
    r.rest.length < bytes.length := by
  obtain ⟨missing, lost, rfl⟩ := cut
  have := List.length_pos_iff.mpr lost
  rw [List.length_append]
  omega

theorem not_cutIn_nil (r : Reader) : ¬r.CutIn [] :=
  fun cut => Nat.not_lt_zero _ cut.length_lt

/-- A cut goes through the first of two fields, or the first one is left whole. -/
theorem CutIn.append {r : Reader} {xs ys : List UInt8} (cut : r.CutIn (xs ++ ys)) :
    r.CutIn xs ∨ ∃ r', r.Before xs r' ∧ r'.CutIn ys := by
  obtain ⟨missing, lost, same⟩ := cut
  rcases List.append_eq_append_iff.mp same with ⟨more, left, rfl⟩ | ⟨more, rfl, rfl⟩
  · exact .inr ⟨⟨r.offset + xs.length, more⟩, ⟨left, rfl⟩, missing, lost, rfl⟩
  · cases more with
    | nil =>
      rw [List.append_nil]
      exact .inr ⟨⟨r.offset + r.rest.length, []⟩, ⟨(List.append_nil _).symm, rfl⟩, ys, lost, rfl⟩
    | cons b more => exact .inl ⟨b :: more, List.cons_ne_nil b more, rfl⟩

theorem Exhausts.bind {r : Reader} {first : Except Corruption α} (next : α → Except Corruption β)
    (exhausts : r.Exhausts first) : r.Exhausts (first >>= next) := by
  obtain ⟨c, rfl, early, place⟩ := exhausts
  exact ⟨c, rfl, early, place⟩

/-- The end of the bytes is met by a later field. -/
theorem Before.exhausts {r r' : Reader} {bytes : List UInt8} {outcome : Except Corruption α}
    (before : r.Before bytes r') (exhausts : r'.Exhausts outcome) : r.Exhausts outcome := by
  obtain ⟨c, failed, early, low, high⟩ := exhausts
  refine ⟨c, failed, early, ?_, ?_⟩
  · rw [before.offset] at low
    omega
  · rw [before.offset] at high
    rw [before.rest, List.length_append]
    omega

theorem exhausts_byte {r : Reader} {b : UInt8} (cut : r.CutIn [b]) : r.Exhausts r.byte := by
  have short := cut.length_lt
  rw [List.length_singleton] at short
  have empty : r.rest = [] := List.eq_nil_of_length_eq_zero (by omega)
  refine ⟨⟨r.offset, .endsInField .byte⟩, ?_, .field .byte, Nat.le_refl _, Nat.le_add_right _ _⟩
  rw [byte, empty]

theorem exhausts_take {r : Reader} {n : Nat} (field : Field) (short : r.rest.length < n) :
    r.Exhausts (r.take n field) := by
  refine ⟨⟨r.offset, .endsInField field⟩, ?_, .field field, Nat.le_refl _, Nat.le_add_right _ _⟩
  rw [take, cut_eq_none_iff.mpr short]

end Reader

/-- Groups of a number without its last one are no number. -/
theorem Varint.decodeFrom_cut {i acc n groups : Nat} {front missing : List UInt8}
    (lost : missing ≠ []) (whole : decodeFrom i acc (front ++ missing) = .ok (n, groups, [])) :
    decodeFrom i acc front = .error (.cut (i + front.length)) := by
  induction front generalizing i acc with
  | nil => rfl
  | cons b front ih =>
    simp only [List.cons_append, decodeFrom] at whole ⊢
    split at whole
    · contradiction
    · next narrow =>
      rw [if_neg narrow]
      split at whole
      · simp [lost] at whole
      · next goesOn =>
        rw [if_neg goesOn, ih whole, List.length_cons, Nat.add_right_comm, Nat.add_assoc]

theorem Reader.exhausts_varint {r : Reader} {bytes : List UInt8} {n : Nat}
    (spells : SpellsNumber bytes n) (cut : r.CutIn bytes) : r.Exhausts r.varint := by
  obtain ⟨missing, lost, rfl⟩ := cut
  have failed : Varint.decode r.rest = .error (.cut (0 + r.rest.length)) :=
    Varint.decodeFrom_cut lost spells
  rw [Nat.zero_add] at failed
  refine ⟨⟨r.offset + r.rest.length, .endsInVarint⟩, ?_, .varint, Nat.le_add_right _ _,
    Nat.le_refl _⟩
  rw [varint, failed]

/-! ### The fields of a unit -/

theorem SpellsRow.exhausts {flags : UInt8} {offset row row' : Nat} {bytes : List UInt8}
    {jump : Option Nat} {r : Reader} (spells : SpellsRow flags row bytes jump row')
    (cut : r.CutIn bytes) : r.Exhausts (readRow flags offset row r) := by
  cases spells with
  | same => exact absurd cut r.not_cutIn_nil
  | next => exact absurd cut r.not_cutIn_nil
  | jump starts marked number =>
    rw [readRow, if_pos starts, readJump, if_pos marked]
    exact ((Reader.exhausts_varint number cut).bind _).bind _

theorem SpellsColumn.exhausts {mode : ColumnMode} {offset cursor col : Nat} {bytes : List UInt8}
    {r : Reader} (spells : SpellsColumn cursor mode bytes col) (cut : r.CutIn bytes) :
    r.Exhausts (readColumn mode offset cursor r) := by
  cases spells with
  | full length =>
    have short : r.rest.length < 4 := length ▸ cut.length_lt
    exact (Reader.exhausts_take .fullColumn short).bind _
  | jump number => exact (Reader.exhausts_varint number cut).bind _

/-- Differences up to the one that the cut goes through are read, by induction on them. -/
theorem exhausts_readDeltas {offset col : Nat} {w : Width} {deltas : List Nat} {r : Reader}
    (fit : ∀ d ∈ deltas, d < w.limit) (word : col + total deltas < wordLimit)
    (cut : r.CutIn (deltas.flatMap w.pack)) :
    r.Exhausts (readDeltas offset w deltas.length col r) := by
  induction deltas generalizing col r with
  | nil => exact absurd cut r.not_cutIn_nil
  | cons d ds ih =>
    rw [List.forall_mem_cons] at fit
    rw [total_cons, ← Nat.add_assoc] at word
    rw [List.flatMap_cons] at cut
    rw [List.length_cons, readDeltas]
    rcases cut.append with first | ⟨r', before, later⟩
    · have short : r.rest.length < w.bytes := w.length_pack d ▸ first.length_lt
      exact ((Reader.exhausts_take .packedDelta short).bind _).bind _
    · have read : r.packed w = .ok (d, r') := Reader.packed_eq_ok_iff.mpr ⟨fit.1, before⟩
      have next : advanceColumn offset col d = .ok (col + d) :=
        advanceColumn_eq_ok_iff.mpr ⟨by omega, rfl⟩
      have failed : r.Exhausts (readDeltas offset w ds.length (col + d) r') :=
        before.exhausts (ih fit.2 word later)
      simp only [read, next, bind, Except.bind]
      exact failed.bind _

theorem SpellsPayload.exhausts {kind : Kind} {offset size col : Nat} {bytes : List UInt8}
    {deltas : List Nat} {r : Reader} (spells : SpellsPayload size col kind bytes deltas)
    (cut : r.CutIn bytes) : r.Exhausts (readPayload kind offset size col r) := by
  cases spells with
  | run length fit word =>
    have steps : size - 1 = deltas.length := by omega
    rw [readPayload, steps]
    exact exhausts_readDeltas fit word cut
  | pattern => exact absurd cut r.not_cutIn_nil

/-- A cut through a unit is met by the field that it goes through; the fields before it are read as
they are in the whole unit, so no shorter unit appears. -/
theorem SpellsUnit.exhausts {table : KindTable} {mode : ColumnMode} {here : Position}
    {bytes : List UInt8} {u : StreamUnit} {r : Reader}
    (spells : SpellsUnit table mode here r.offset bytes u) (cut : r.CutIn bytes) :
    r.Exhausts (readUnit table mode here r) := by
  cases spells with
  | @intro flags size jump column payload kind rowJump row col deltas known covers spellsRow
      spellsColumn spellsPayload =>
    have fields : flags :: size :: (jump ++ column ++ payload)
        = [flags] ++ ([size] ++ (jump ++ (column ++ payload))) := by simp
    rw [fields] at cut
    rw [readUnit]
    rcases cut.append with inFlags | ⟨r₁, first, cut⟩
    · exact (Reader.exhausts_byte inFlags).bind _
    have flagsRead : r.byte = .ok (flags, r₁) := Reader.byte_eq_ok_iff.mpr first
    simp only [flagsRead, bind, Except.bind]
    apply first.exhausts
    rcases cut.append with inSize | ⟨r₂, second, cut⟩
    · exact (Reader.exhausts_byte inSize).bind _
    have sizeRead : r₁.byte = .ok (size, r₂) := Reader.byte_eq_ok_iff.mpr second
    have kindRead : readKind table r.offset flags size = .ok kind :=
      readKind_eq_ok_iff.mpr ⟨known, covers⟩
    simp only [sizeRead, kindRead]
    apply second.exhausts
    rcases cut.append with inJump | ⟨r₃, third, cut⟩
    · exact (spellsRow.exhausts inJump).bind _
    have rowRead : readRow flags r.offset here.row r₂ = .ok (rowJump, row, r₃) :=
      readRow_eq_ok_iff.mpr ⟨jump, spellsRow, third⟩
    simp only [rowRead]
    apply third.exhausts
    rcases cut.append with inColumn | ⟨r₄, fourth, cut⟩
    · exact (spellsColumn.exhausts inColumn).bind _
    have columnRead : readColumn mode r.offset
        (if Header.startsRow flags then 0 else here.cursor) r₃ = .ok (col, r₄) :=
      readColumn_eq_ok_iff.mpr ⟨column, spellsColumn, fourth⟩
    simp only [columnRead]
    apply fourth.exhausts
    exact (spellsPayload.exhausts cut).bind _

/-! ### The units of a stream -/

namespace StreamUnit

/-- Where the units of a stream of some length start, and where the stream ends. -/
def bounds (length : Nat) (us : List StreamUnit) : List Nat := us.map offset ++ [length]

/-- The units of a stream of some length, each with the offset right behind it. -/
def withEnds (length : Nat) (us : List StreamUnit) : List (StreamUnit × Nat) :=
  us.zip (bounds length us).tail

end StreamUnit

open StreamUnit

namespace SpellsUnits

variable {table : KindTable} {mode : ColumnMode} {here : Position} {offset : Nat}
  {bytes : List UInt8} {us : List StreamUnit}

theorem bounds_eq (spells : SpellsUnits table mode here offset bytes us) :
    bounds (offset + bytes.length) us
      = offset :: (bounds (offset + bytes.length) us).tail := by
  cases spells with
  | nil => rfl
  | cons first _ => simp [bounds, first.offset_eq]

theorem le_of_mem_bounds (spells : SpellsUnits table mode here offset bytes us) :
    ∀ place ∈ bounds (offset + bytes.length) us, offset ≤ place := by
  induction spells with
  | nil => simp [bounds]
  | @cons here offset bytes rest u us first _ ih =>
    rw [List.length_append, ← Nat.add_assoc]
    intro place member
    rcases List.mem_cons.mp member with rfl | later
    · exact Nat.le_of_eq first.offset_eq.symm
    · exact Nat.le_trans (Nat.le_add_right _ _) (ih place later)

/-- The first unit ends where the units after it start. -/
theorem withEnds_cons (spells : SpellsUnits table mode here offset bytes us) (u : StreamUnit) :
    withEnds (offset + bytes.length) (u :: us)
      = (u, offset) :: withEnds (offset + bytes.length) us := by
  have tail : (bounds (offset + bytes.length) (u :: us)).tail
      = bounds (offset + bytes.length) us := rfl
  rw [withEnds, tail, spells.bounds_eq, List.zip_cons_cons, withEnds]

theorem le_of_mem_withEnds (spells : SpellsUnits table mode here offset bytes us) :
    ∀ p ∈ withEnds (offset + bytes.length) us, offset ≤ p.2 := by
  intro p member
  have inTail : p.2 ∈ (bounds (offset + bytes.length) us).tail := (List.of_mem_zip member).2
  exact spells.le_of_mem_bounds p.2 (List.mem_of_mem_tail inTail)

end SpellsUnits

/-- What reading the first `kept` bytes of a stream gives, when the whole stream has the units
`us`: the units that end within these bytes, and a fault unless the cut is on a bound. The fault is
an early end inside of the unit that the cut goes through. -/
structure CutOff (length kept : Nat) (us : List StreamUnit)
    (found : List StreamUnit × Option Corruption) : Prop where
  whole : found.1 = ((withEnds length us).filter (·.2 ≤ kept)).map Prod.fst
  unnoticed : found.2 = none ↔ kept ∈ bounds length us
  broken : ∀ c, found.2 = some c → c.fault.EndsEarly ∧
    ∃ p ∈ withEnds length us, p.1.offset ≤ c.offset ∧ c.offset ≤ kept ∧ kept < p.2

/-- A cut through the first unit, or right in front of it. -/
theorem cutOff_first {table : KindTable} {mode : ColumnMode} {here : Position} {r : Reader}
    {bytes rest : List UInt8} {u : StreamUnit} {us : List StreamUnit}
    (first : SpellsUnit table mode here r.offset bytes u)
    (later : SpellsUnits table mode u.next (r.offset + bytes.length) rest us)
    (cut : r.CutIn bytes) :
    CutOff (r.offset + bytes.length + rest.length) (r.offset + r.rest.length) (u :: us)
      (unitsFrom table mode here r) := by
  have short := cut.length_lt
  have nothing : (withEnds (r.offset + bytes.length + rest.length) (u :: us)).filter
      (·.2 ≤ r.offset + r.rest.length) = [] := by
    rw [later.withEnds_cons, List.filter_eq_nil_iff]
    intro p member
    have behind : r.offset + bytes.length ≤ p.2 := by
      rcases List.mem_cons.mp member with rfl | inLater
      · exact Nat.le_refl _
      · exact later.le_of_mem_withEnds p inLater
    simp only [decide_eq_true_eq]
    omega
  rw [unitsFrom]
  split
  · next stop =>
    rw [Reader.atEnd, List.isEmpty_iff] at stop
    rw [stop] at nothing ⊢
    refine ⟨by rw [nothing]; rfl, ?_, by simp⟩
    simp [bounds, first.offset_eq]
  · next more =>
    obtain ⟨c, failed, early, low, high⟩ := first.exhausts cut
    split
    · next error =>
      rw [failed, Except.error.injEq] at error
      subst error
      refine ⟨by rw [nothing]; rfl, ?_, ?_⟩
      · have inside : r.offset < r.offset + r.rest.length := by
          rw [Reader.atEnd, List.isEmpty_iff] at more
          have := List.length_pos_iff.mpr more
          omega
        simp only [reduceCtorEq, false_iff]
        intro member
        rcases List.mem_cons.mp member with onStart | onLater
        · rw [first.offset_eq] at onStart
          omega
        · have := later.le_of_mem_bounds _ onLater
          omega
      · intro c' same
        rw [Option.some.injEq] at same
        subst same
        refine ⟨early, (u, r.offset + bytes.length), ?_, ?_, high, ?_⟩
        · rw [later.withEnds_cons]
          exact List.mem_cons_self
        · rw [first.offset_eq]
          exact low
        · dsimp only
          omega
    · next read =>
      rw [failed] at read
      contradiction

/-- A cut anywhere, by induction along the units: those before the cut are read as they were. -/
theorem SpellsUnits.cutOff {table : KindTable} {mode : ColumnMode} {here : Position}
    {offset : Nat} {bytes : List UInt8} {us : List StreamUnit}
    (spells : SpellsUnits table mode here offset bytes us) {r : Reader} (start : r.offset = offset)
    (cut : r.CutIn bytes) :
    CutOff (offset + bytes.length) (r.offset + r.rest.length) us (unitsFrom table mode here r) := by
  induction spells generalizing r with
  | nil => exact absurd cut r.not_cutIn_nil
  | @cons here offset bytes rest u us first later ih =>
    subst start
    rw [List.length_append, ← Nat.add_assoc]
    rcases cut.append with through | ⟨r', before, cut⟩
    · exact cutOff_first first later through
    · have read : readUnit table mode here r = .ok (u, u.next, r') :=
        readUnit_eq_ok_iff.mpr ⟨bytes, first, rfl, before⟩
      have kept : r.offset + r.rest.length = r'.offset + r'.rest.length := by
        rw [before.rest, before.offset, List.length_append, Nat.add_assoc]
      have reached : r.offset + bytes.length ≤ r'.offset + r'.rest.length := by
        rw [before.offset]
        exact Nat.le_add_right _ _
      have more := ih before.offset cut
      have covers : 0 < bytes.length := List.length_pos_iff.mpr first.ne_nil
      rw [unitsFrom_of_readUnit read, kept]
      refine ⟨?_, ?_, ?_⟩
      · rw [later.withEnds_cons, List.filter_cons, if_pos (decide_eq_true reached),
          List.map_cons, ← more.whole]
      · have elsewhere : r'.offset + r'.rest.length ≠ u.offset := by
          rw [first.offset_eq]
          omega
        rw [more.unnoticed]
        simp [bounds, elsewhere]
      · intro c fault
        obtain ⟨early, p, member, place⟩ := more.broken c fault
        refine ⟨early, p, ?_, place⟩
        rw [later.withEnds_cons]
        exact List.mem_cons_of_mem _ member

/-- A sound stream that loses bytes at its end still yields the units that end before the cut, as
they were, and nothing else. If the cut is not between two units, one fault follows: an early end,
in the unit that is cut through. -/
theorem units_of_cut_stream {table : KindTable} {mode : ColumnMode}
    {bytes kept missing : List UInt8} {us : List StreamUnit}
    (sound : units table mode bytes = (us, none)) (cut : bytes = kept ++ missing)
    (lost : missing ≠ []) : CutOff bytes.length kept.length us (units table mode kept) := by
  have spells : SpellsUnits table mode {} 0 bytes us :=
    (unitsFrom_eq_iff table mode {} ⟨0, bytes⟩ us).mp sound
  have off := spells.cutOff (r := ⟨0, kept⟩) rfl ⟨missing, lost, cut⟩
  rw [Nat.zero_add, Nat.zero_add] at off
  exact off

/-- A run of two columns and one of a single column on the next row; the cut leaves the header of
the second. -/
theorem units_of_cut_second_header :
    let table : KindTable := ⟨[⟨.run .u8, 1, 2, 3⟩]⟩
    let kept : List UInt8 := [1, 2, 0, 1, 0x81, 1]
    let us : List StreamUnit :=
      [⟨0, 1, .run .u8, 2, false, none, 0, 0, [1]⟩, ⟨4, 1, .run .u8, 1, true, none, 1, 3, []⟩]
    units table .jump (kept ++ [3]) = (us, none) ∧ CutOff 7 6 us (units table .jump kept) := by
  intro table kept us
  have sound : units table .jump (kept ++ [3]) = (us, none) := by decide +kernel
  exact ⟨sound, units_of_cut_stream sound rfl (List.cons_ne_nil 3 [])⟩

end SparseStream
