import SparseStream.Proofs.Operations

/-! Encoders that go on after a refusal. Every step, a refused one included, leaves an encoder that
only grew: what was written, the values taken and the flags given out stay as they are. What it
counts grows by no more than the elements of the step account for. -/
namespace SparseStream

/-- An entry that counted no more than `units` units, none of them longer than a header can say. -/
structure KindEntry.Within (units : Nat) (entry : KindEntry) : Prop where
  flag : entry.flag ≤ Header.maxFlag
  fewUnits : entry.units ≤ units
  fewElements : entry.elements ≤ Header.maxSize * units

theorem KindEntry.Within.mono {entry : KindEntry} {units units' : Nat}
    (within : entry.Within units) (more : units ≤ units') : entry.Within units' where
  flag := within.flag
  fewUnits := Nat.le_trans within.fewUnits more
  fewElements := Nat.le_trans within.fewElements (Nat.mul_le_mul_left _ more)

namespace Registry

/-- The kinds and their flags, in the order in which the kinds were met. -/
def flags (r : Registry) : List (Kind × Nat) := r.entries.map fun entry => (entry.kind, entry.flag)

/-- The flag that a kind was given. -/
def flag? (r : Registry) (kind : Kind) : Option Nat := r.flags.lookup kind

/-- A registry that counted no more than `units` units of any kind. -/
structure Within (units : Nat) (r : Registry) : Prop where
  few : r.entries.length ≤ Header.maxFlag
  counts : ∀ entry ∈ r.entries, entry.Within units

variable {r r' : Registry} {kind : Kind} {units n flag : Nat}

theorem Within.mono {units' : Nat} (within : r.Within units) (more : units ≤ units') :
    r.Within units' :=
  ⟨within.few, fun entry member => (within.counts entry member).mono more⟩

/-- A flag comes from the entry of a kind seen before, or with a new entry. -/
theorem assign_cases (assigned : r.assign kind n = .ok (flag, r')) :
    count? kind n r.entries = some (flag, r'.entries) ∨
      r.entries.length < Header.maxFlag ∧
        r'.entries = r.entries ++ [⟨kind, r.entries.length + 1, 1, n⟩] := by
  simp only [assign] at assigned
  split at assigned
  · rename_i counted
    cases assigned
    exact .inl counted
  · split at assigned
    · contradiction
    · rename_i room
      cases assigned
      exact .inr ⟨Nat.lt_of_not_le room, rfl⟩

/-- A registry refuses only when it is full. -/
theorem error_of_assign {error : Error} (refused : r.assign kind n = .error error) :
    error = .tooManyKinds := by
  simp only [assign] at refused
  split at refused
  · contradiction
  · split at refused
    · cases refused
      rfl
    · contradiction

/-- A flag once given out is never given up. -/
theorem flags_of_assign (assigned : r.assign kind n = .ok (flag, r')) :
    ∃ more, r'.flags = r.flags ++ more := by
  rcases assign_cases assigned with counted | ⟨-, added⟩
  · obtain ⟨kinds, numbers⟩ := kinds_of_count? counted
    refine ⟨[], ?_⟩
    simp only [flags, ← List.zip_map', kinds, numbers, List.append_nil]
  · rw [flags, added, List.map_append]
    exact ⟨_, rfl⟩

theorem flag?_of_assign {kind' : Kind} {flag' : Nat} (assigned : r.assign kind n = .ok (flag, r'))
    (given : r.flag? kind' = some flag') : r'.flag? kind' = some flag' := by
  obtain ⟨more, appended⟩ := flags_of_assign assigned
  rw [flag?] at given
  rw [flag?, appended, List.lookup_append, given, Option.some_or]

theorem within_of_count? {entries entries' : List KindEntry} (short : n ≤ Header.maxSize)
    (within : ∀ entry ∈ entries, entry.Within units)
    (counted : count? kind n entries = some (flag, entries')) :
    ∀ entry ∈ entries', entry.Within (units + 1) := by
  induction entries generalizing entries' with
  | nil => cases counted
  | cons first rest ih =>
    rw [List.forall_mem_cons] at within
    simp only [count?] at counted
    split at counted
    · cases counted
      have more : ∀ entry ∈ rest, entry.Within (units + 1) :=
        fun entry member => (within.2 entry member).mono (Nat.le_succ units)
      refine List.forall_mem_cons.mpr ⟨⟨within.1.flag, ?_, ?_⟩, more⟩
      · exact Nat.succ_le_succ within.1.fewUnits
      · exact Nat.add_le_add within.1.fewElements short
    · simp only [Option.map_eq_some_iff, Prod.exists, Prod.mk.injEq] at counted
      obtain ⟨_, rest', found, rfl, rfl⟩ := counted
      exact List.forall_mem_cons.mpr ⟨within.1.mono (Nat.le_succ units), ih within.2 found⟩

theorem Within.assign (within : r.Within units) (short : n ≤ Header.maxSize)
    (assigned : r.assign kind n = .ok (flag, r')) : r'.Within (units + 1) := by
  rcases assign_cases assigned with counted | ⟨room, added⟩
  · have sameLength : r'.entries.length = r.entries.length := by
      have same := congrArg List.length (kinds_of_count? counted).1
      rwa [List.length_map, List.length_map] at same
    exact ⟨sameLength ▸ within.few, within_of_count? short within.counts counted⟩
  · constructor
    · rw [added, List.length_append, List.length_singleton]
      exact room
    · rw [added]
      intro entry member
      rcases List.mem_append.mp member with before | new
      · exact (within.counts entry before).mono (Nat.le_succ units)
      · cases List.mem_singleton.mp new
        refine ⟨room, Nat.le_add_left 1 units, ?_⟩
        exact Nat.le_trans short (Nat.le_mul_of_pos_right _ (Nat.succ_pos units))

end Registry

theorem Buffer.bytes_append (b : Buffer) (more : List UInt8) :
    b.bytes.toList <+: (b.append more).bytes.toList := by
  rw [toList_append]
  exact List.prefix_append _ _

theorem length_differences (previous : Nat) (cols : List Nat) :
    (differences previous cols).1.length = cols.length := by
  induction cols generalizing previous with
  | nil => rfl
  | cons col rest ih =>
    have shorter := ih col
    simp only [differences]
    split
    · rename_i found
      rw [found] at shorter
      exact congrArg (· + 1) shorter
    · rename_i found
      rw [found] at shorter
      split <;> exact congrArg (· + 1) shorter

namespace Encoder

/-- The encoder that a step leaves, refused or not. -/
def left : Except (Stopped α) (Encoder α) → Encoder α
  | .ok e => e
  | .error stopped => stopped.left

/-- Nothing written, taken or given out before was changed since. -/
structure GrewTo (e e' : Encoder α) : Prop where
  bytes : e.buffer.bytes.toList <+: e'.buffer.bytes.toList
  values : e.values.toList <+: e'.values.toList
  flags : ∀ kind flag, e.registry.flag? kind = some flag → e'.registry.flag? kind = some flag

theorem GrewTo.refl (e : Encoder α) : e.GrewTo e :=
  ⟨List.prefix_rfl, List.prefix_rfl, fun _ _ given => given⟩

theorem GrewTo.trans {e e' e'' : Encoder α} (first : e.GrewTo e') (next : e'.GrewTo e'') :
    e.GrewTo e'' where
  bytes := first.bytes.trans next.bytes
  values := first.values.trans next.values
  flags kind flag given := next.flags kind flag (first.flags kind flag given)

/-- An encoder that opened no more than `units` units and saw no more than `rows` rows. -/
structure Within (rows units : Nat) (e : Encoder α) : Prop where
  registry : e.registry.Within units
  pending : e.pending.length ≤ Header.maxSize
  row : e.row ≤ rows
  emptyRows : e.emptyRows ≤ rows

variable {e : Encoder α} {rows units : Nat} {elems : List (Element α)}

theorem Within.mono {units' : Nat} (within : e.Within rows units) (more : units ≤ units') :
    e.Within rows units' :=
  { within with registry := within.registry.mono more }

/-- What holds of a step, refused or not. A unit that is too long comes from one of the elements at
hand; a run never is. -/
structure Keeps (e : Encoder α) (rows units : Nat) (elems : List (Element α))
    (outcome : Except (Stopped α) (Encoder α)) : Prop where
  grew : e.GrewTo (left outcome)
  within : (left outcome).Within rows units
  blames : ∀ size e', outcome = .error ⟨.unitTooLong size, e'⟩ →
    ∃ x ∈ elems, x.isPattern ∧ x.count = size ∧ Header.maxSize < size

namespace Keeps

theorem ok {e' : Encoder α} (grew : e.GrewTo e') (within : e'.Within rows units) :
    Keeps e rows units elems (.ok e') :=
  ⟨grew, within, fun _ _ refused => nomatch refused⟩

/-- A refusal for any other reason than a unit that is too long. -/
theorem error {e' : Encoder α} {failure : Error} (other : ∀ size, failure ≠ .unitTooLong size)
    (grew : e.GrewTo e') (within : e'.Within rows units) :
    Keeps e rows units elems (.error ⟨failure, e'⟩) := by
  refine ⟨grew, within, ?_⟩
  intro size e'' same
  cases same
  exact absurd rfl (other size)

theorem mono {units' : Nat} {outcome : Except (Stopped α) (Encoder α)}
    (keeps : Keeps e rows units elems outcome) (more : units ≤ units') :
    Keeps e rows units' elems outcome :=
  { keeps with within := keeps.within.mono more }

theorem within_of_ok {e' : Encoder α} {step : Except (Stopped α) (Encoder α)}
    (keeps : Keeps e rows units elems step) (done : step = .ok e') : e'.Within rows units := by
  subst done
  exact keeps.within

theorem after {e' : Encoder α} {outcome : Except (Stopped α) (Encoder α)} (grew : e.GrewTo e')
    (keeps : Keeps e' rows units elems outcome) : Keeps e rows units elems outcome :=
  { keeps with grew := grew.trans keeps.grew }

/-- Two steps, the second one compared with what was there before both. -/
theorem andThen {units' : Nat} {step : Except (Stopped α) (Encoder α)}
    {next : Encoder α → Except (Stopped α) (Encoder α)} (first : Keeps e rows units elems step)
    (more : units ≤ units')
    (rest : ∀ e', step = .ok e' → e.GrewTo e' → e'.Within rows units →
      Keeps e rows units' elems (next e')) :
    Keeps e rows units' elems (step >>= next) := by
  cases step with
  | error stopped => exact first.mono more
  | ok e' => exact rest e' rfl first.grew first.within

theorem bind {units' : Nat} {step : Except (Stopped α) (Encoder α)}
    {next : Encoder α → Except (Stopped α) (Encoder α)} (first : Keeps e rows units elems step)
    (more : units ≤ units')
    (rest : ∀ e', step = .ok e' → e'.Within rows units → Keeps e' rows units' elems (next e')) :
    Keeps e rows units' elems (step >>= next) :=
  first.andThen more fun e' done grew within => (rest e' done within).after grew

end Keeps

/-- A refused request changes nothing that was written or taken. -/
theorem Within.request_keeps (within : e.Within rows units) (bytes : Nat) :
    Keeps e rows units elems (e.request bytes) := by
  have grew : e.GrewTo { e with answers := e.answers.tail } := { GrewTo.refl e with }
  simp only [request]
  split
  · exact .ok grew { within with }
  · exact .error (by simp) grew { within with }

theorem Within.write_keeps {put : Buffer → Buffer} (within : e.Within rows units) (n : Nat)
    (adds : ∀ b : Buffer, b.bytes.toList <+: (put b).bytes.toList) :
    Keeps e rows units elems (e.write n put) := by
  apply (within.request_keeps _).bind (Nat.le_refl _)
  intro e' _ asked
  exact .ok { GrewTo.refl e' with bytes := adds e'.buffer } { asked with }

theorem Within.keep_keeps (within : e.Within rows units) (more : List α) :
    Keeps e rows units elems (e.keep more) := by
  apply (within.request_keeps _).bind (Nat.le_refl _)
  intro e' _ asked
  refine .ok { GrewTo.refl e' with values := ?_ } { asked with }
  rw [Array.toList_appendList]
  exact List.prefix_append _ _

/-- What a write that had room leaves in the buffer. -/
theorem buffer_of_write {e' : Encoder α} {n : Nat} {put : Buffer → Buffer}
    (written : e.write n put = .ok e') : e'.buffer = put e.buffer := by
  simp only [write, request, bind_eq_ok] at written
  obtain ⟨asked, met, done⟩ := written
  split at met
  · cases met
    cases done
    rfl
  · contradiction

/-- Marking a row changes nothing in front of the header, with room for the jump or without. -/
theorem Within.startRow_keeps {e₀ : Encoder α} {flags : UInt8} {back : List UInt8}
    (within : e.Within rows units) (grew : e₀.GrewTo e)
    (bytes : e.buffer.bytes.toList = e₀.buffer.bytes.toList ++ flags :: back) :
    Keeps e₀ rows units elems (e.startRow e₀.buffer.size) := by
  have place : e₀.buffer.size = e₀.buffer.bytes.toList.length := by simp [Buffer.size]
  cases starts : e.newRow with
  | false =>
    have off : (!e.newRow) = true := by rw [starts, Bool.not_false]
    rw [startRow, if_pos off]
    exact .ok grew within
  | true =>
    have on : ¬(!e.newRow) = true := by simp [starts]
    have marked := Buffer.toList_setBit Header.rowBit bytes
    rw [startRow, if_neg on, place]
    dsimp only
    split
    · exact .ok { grew with bytes := ⟨_, marked.symm⟩ } { within with }
    · have twice := Buffer.toList_setBit Header.jumpBit marked
      let both := (e.buffer.setBit e₀.buffer.bytes.toList.length Header.rowBit).setBit
        e₀.buffer.bytes.toList.length Header.jumpBit
      have grewTwice : e₀.GrewTo { e with buffer := both, newRow := false } :=
        { grew with bytes := ⟨_, twice.symm⟩ }
      have withinTwice : { e with buffer := both, newRow := false }.Within rows units :=
        { within with }
      apply ((withinTwice.write_keeps _ fun b => b.bytes_append _).after grewTwice).bind
        (Nat.le_refl _)
      intro e' _ jumped
      exact .ok { GrewTo.refl e' with } { jumped with emptyRows := Nat.zero_le _ }

theorem Within.putColumn_keeps (within : e.Within rows units) (col : Nat) :
    Keeps e rows units elems (e.putColumn col) := by
  simp only [putColumn]
  split
  · exact within.write_keeps _ fun b => b.bytes_append _
  · split
    · exact .error (by simp) (.refl e) within
    · exact within.write_keeps _ fun b => b.bytes_append _

theorem Within.putDifferences_keeps (within : e.Within rows units) (width : Width)
    (steps : List Nat) : Keeps e rows units elems (e.putDifferences width steps) := by
  rw [putDifferences]
  split
  · exact .ok (.refl e) within
  · exact within.write_keeps _ fun b => b.bytes_append _

/-- A unit is opened, and finished by a step that only adds to it. -/
theorem Within.openUnit_keeps {size : Nat} (within : e.Within rows units)
    (short : size ≤ Header.maxSize) (kind : Kind) (col : Nat)
    (finish : Nat → Encoder α → Except (Stopped α) (Encoder α))
    (finished : ∀ flag e', e'.Within rows (units + 1) →
      Keeps e' rows (units + 1) elems (finish flag e')) :
    Keeps e rows (units + 1) elems (do
      let (flag, e') ← e.openUnit kind size col
      finish flag e') := by
  cases assigned : e.registry.assign kind size with
  | error failure =>
    cases Registry.error_of_assign assigned
    have refused : e.openUnit kind size col = .error ⟨.tooManyKinds, e⟩ := by
      rw [openUnit, assigned]
      rfl
    rw [refused]
    exact .error (by simp) (.refl e) (within.mono (Nat.le_succ units))
  | ok given =>
    obtain ⟨flag, registry⟩ := given
    let counted : Encoder α := { e with registry := registry }
    have grew : e.GrewTo counted :=
      ⟨List.prefix_rfl, List.prefix_rfl, fun _ _ => Registry.flag?_of_assign assigned⟩
    have within' : counted.Within rows (units + 1) :=
      { within with registry := within.registry.assign short assigned }
    have opened : e.openUnit kind size col = (do
        let e' ← counted.write 2 (·.header flag size)
        let e' ← e'.startRow e.buffer.size
        let e' ← e'.putColumn col
        return (flag, e')) := by
      rw [openUnit, assigned]
    rw [opened]
    simp only [bind_assoc, pure_bind]
    have header : Keeps e rows (units + 1) elems (counted.write 2 (·.header flag size)) :=
      (within'.write_keeps 2 fun b => b.bytes_append _).after grew
    apply header.andThen (Nat.le_refl _)
    intro named written grew' named'
    have bytes : named.buffer.bytes.toList
        = e.buffer.bytes.toList ++ flag.toUInt8 :: [size.toUInt8] := by
      rw [buffer_of_write written]
      exact Buffer.toList_append _ _
    apply (named'.startRow_keeps grew' bytes).bind (Nat.le_refl _)
    intro started _ started'
    apply (started'.putColumn_keeps col).bind (Nat.le_refl _)
    intro placed _ placed'
    exact finished flag placed placed'

/-- The checks that each unit passes before it is opened. -/
theorem Within.keeps_of_checked {size col : Nat} {next : Except (Stopped α) (Encoder α)}
    (within : e.Within rows units)
    (blame : Header.maxSize < size → ∃ x ∈ elems, x.isPattern ∧ x.count = size)
    (keeps : size ≤ Header.maxSize → Keeps e rows units elems next) :
    Keeps e rows units elems (do
      e.checkSize size
      e.checkColumn col
      next) := by
  by_cases long : Header.maxSize < size
  · have refused : e.checkSize size = .error ⟨.unitTooLong size, e⟩ := if_pos long
    rw [refused]
    refine ⟨.refl e, within, ?_⟩
    intro size' e' same
    cases same
    obtain ⟨x, member, pattern, count⟩ := blame long
    exact ⟨x, member, pattern, count, long⟩
  · have fits : e.checkSize size = .ok () := if_neg long
    rw [fits]
    by_cases behind : col < e.cursor
    · have refused : e.checkColumn col = .error ⟨.behindCursor e.row col e.cursor, e⟩ :=
        if_pos behind
      rw [refused]
      exact .error (by simp) (.refl e) within
    · have ahead : e.checkColumn col = .ok () := if_neg behind
      rw [ahead]
      exact keeps (Nat.le_of_not_lt long)

/-- What is pending turns into as many differences, all of it or from some column on. -/
theorem Within.turn {first : Nat} {rest steps : List Nat} {fault : Option (Nat × Nat)}
    (within : e.Within rows units) (pending : e.pending = first :: rest)
    (found : differences first rest = (steps, fault)) :
    { e with pending := first :: steps }.Within rows units := by
  have same : steps.length = rest.length := by rw [← length_differences first rest, found]
  refine { within with pending := ?_ }
  rw [List.length_cons, same, ← List.length_cons, ← pending]
  exact within.pending

/-- A run is never too long, since what is pending never is. -/
theorem Within.flush_keeps (within : e.Within rows units) :
    Keeps e rows (units + 1) elems e.flush := by
  have more := within.mono (Nat.le_succ units)
  simp only [flush]
  split
  · exact .ok (.refl e) more
  · rename_i first rest pending
    have short := within.pending
    rw [pending, List.length_cons] at short
    apply more.keeps_of_checked (fun long => absurd short (Nat.not_le_of_lt long))
    intro _
    rcases found : differences first rest with ⟨steps, fault⟩
    have turned := within.turn pending found
    cases fault with
    | some fault => exact .error (by simp) { GrewTo.refl e with } (turned.mono (Nat.le_succ units))
    | none =>
      let width := Width.classify (steps.foldl max 0)
      let finish (flag : Nat) (e' : Encoder α) : Except (Stopped α) (Encoder α) := do
        let packed ← e'.putDifferences width steps
        let noted := packed.note
          (.unit (.run width) flag (rest.length + 1) first (first - e.cursor))
        return { noted with cursor := rest.getLastD first, pending := [] }
      have grew : e.GrewTo { e with pending := first :: steps } := { GrewTo.refl e with }
      apply Keeps.after grew
      apply turned.openUnit_keeps short _ first finish
      intro flag e' opened
      apply (opened.putDifferences_keeps width steps).bind (Nat.le_refl _)
      intro e'' _ packed
      exact .ok { GrewTo.refl e'' with } { packed with pending := Nat.zero_le _ }

theorem pending_of_flush {e' : Encoder α} (flushed : e.flush = .ok e') : e'.pending = [] := by
  simp only [flush] at flushed
  split at flushed
  · cases flushed
    assumption
  · simp only [bind_eq_ok] at flushed
    obtain ⟨_, -, _, -, flushed⟩ := flushed
    split at flushed
    · contradiction
    · simp only [bind_eq_ok] at flushed
      obtain ⟨_, -, _, -, done⟩ := flushed
      cases done
      rfl

theorem Within.putPattern_keeps {col : Nat} {p : Pattern} {values : List α}
    (within : e.Within rows units) (member : .pattern col p values ∈ elems) :
    Keeps e rows (units + 1) elems (e.putPattern col p) := by
  apply (within.mono (Nat.le_succ units)).keeps_of_checked (fun _ => ⟨_, member, rfl, rfl⟩)
  intro short
  let finish (flag : Nat) (e' : Encoder α) : Except (Stopped α) (Encoder α) :=
    let noted := e'.note (.unit (.pattern p.shape) flag p.size col (col - e.cursor))
    return { noted with cursor := col + p.shape.advance p.size }
  apply within.openUnit_keeps short _ col finish
  intro flag e' opened
  exact .ok { GrewTo.refl e' with } { opened with }

/-- One element opens a unit for what was pending, and one more if it is a pattern. -/
theorem Within.element_keeps {x : Element α} (within : e.Within rows units) (member : x ∈ elems) :
    Keeps e rows (units + 2) elems (e.element x) := by
  cases x with
  | plain col value =>
    -- the column is pending before there is room for its value
    have hold : ∀ e' : Encoder α, e'.Within rows (units + 1) → e'.pending.length < Header.maxSize →
        Keeps e' rows (units + 2) elems
          ({ e' with pending := e'.pending ++ [col] }.keep [value]) := by
      intro e' within' room
      have held : { e' with pending := e'.pending ++ [col] }.Within rows (units + 2) := by
        refine { within'.mono (Nat.le_succ _) with pending := ?_ }
        rwa [List.length_append, List.length_singleton]
      have grew : e'.GrewTo { e' with pending := e'.pending ++ [col] } := { GrewTo.refl e' with }
      exact (held.keep_keeps [value]).after grew
    simp only [element]
    split
    · apply within.flush_keeps.bind (Nat.le_succ _)
      intro e' flushed within'
      apply hold e' within'
      rw [pending_of_flush flushed]
      decide
    · rename_i short
      exact hold e (within.mono (Nat.le_succ _)) (Nat.lt_of_le_of_ne within.pending short)
  | pattern col p values =>
    apply within.flush_keeps.bind (Nat.le_succ _)
    intro e' _ flushed
    split
    · exact .error (by simp) (.refl e') (flushed.mono (Nat.le_succ _))
    · apply (flushed.putPattern_keeps member).bind (Nat.le_refl _)
      intro e'' _ put
      exact put.keep_keeps values

/-- The elements of a row, by induction along them. -/
theorem Within.elements_keeps {row : List (Element α)} (within : e.Within rows units)
    (sub : ∀ x ∈ row, x ∈ elems) :
    Keeps e rows (units + 2 * row.length) elems (e.elements row) := by
  induction row generalizing e units with
  | nil => exact .ok (.refl e) within
  | cons x row ih =>
    rw [List.forall_mem_cons] at sub
    rw [elements, List.foldlM_cons, List.length_cons]
    apply (within.element_keeps sub.1).bind (by omega)
    intro e' _ taken
    exact (ih taken sub.2).mono (by omega)

/-- Elements that share no run with the ones after them. -/
theorem Within.stretch_keeps {row : List (Element α)} (within : e.Within rows units)
    (sub : ∀ x ∈ row, x ∈ elems) :
    Keeps e rows (units + 2 * row.length + 1) elems (e.elements row >>= flush) := by
  apply (within.elements_keeps sub).bind (Nat.le_succ _)
  intro e' _ taken
  exact taken.flush_keeps

/-- A row that was taken is over; one that was refused is not. -/
theorem Keeps.endRow {step : Except (Stopped α) (Encoder α)}
    (keeps : Keeps e rows units elems step) :
    Keeps e (rows + 1) units elems (step >>= fun e' => pure e'.endRow) := by
  cases step with
  | error stopped =>
    have within : stopped.left.Within rows units := keeps.within
    exact { keeps with
      within := { within with
        row := Nat.le_succ_of_le within.row
        emptyRows := Nat.le_succ_of_le within.emptyRows } }
  | ok e' =>
    have within : e'.Within rows units := keeps.within
    refine .ok { keeps.grew with } { within with
      row := Nat.succ_le_succ within.row
      emptyRows := Nat.le_succ_of_le within.emptyRows }

theorem Within.skipRow (within : e.Within rows units) :
    e.GrewTo e.skipRow ∧ e.skipRow.Within (rows + 1) units := by
  have row := Nat.succ_le_succ within.row
  cases starts : e.newRow with
  | true =>
    rw [Encoder.skipRow, note, starts]
    exact ⟨{ GrewTo.refl e with },
      { within with row := row, emptyRows := Nat.succ_le_succ within.emptyRows }⟩
  | false =>
    rw [Encoder.skipRow, note, starts]
    exact ⟨{ GrewTo.refl e with },
      { within with row := row, emptyRows := Nat.le_succ_of_le within.emptyRows }⟩

theorem Within.putRow_keeps (within : e.Within rows units) (elems : List (Element α)) :
    Keeps e (rows + 1) (units + 2 * (elems.length + 1)) elems (e.putRow elems) := by
  let entered : Encoder α := { e.note (.row e.row elems.length false) with cursor := 0 }
  have grew : e.GrewTo entered := { GrewTo.refl e with }
  have start : entered.Within rows units := { within with }
  have written := start.stretch_keeps (fun x (member : x ∈ elems) => member)
  have done := (written.after grew).endRow
  rw [bind_assoc] at done
  exact done.mono (by omega)

theorem Within.putSymmetricRow_keeps (within : e.Within rows units) (elems : List (Element α))
    (rowStart : Nat) :
    Keeps e (rows + 1) (units + 2 * (elems.length + 1)) elems
      (e.putSymmetricRow elems rowStart) := by
  let n := splitPoint (fun x : Element α => x.col < rowStart) elems
  let entered : Encoder α := { e.note (.row e.row elems.length true) with cursor := 0 }
  have grew : e.GrewTo entered := { GrewTo.refl e with }
  have start : entered.Within rows units := { within with }
  have parts : 2 * (elems.take n).length + 1 + (2 * (elems.drop n).length + 1)
      = 2 * (elems.length + 1) := by
    rw [List.length_take, List.length_drop]
    omega
  have written : Keeps entered rows (units + 2 * (elems.length + 1)) elems (do
      let e' ← entered.elements (elems.take n) >>= flush
      e'.elements (elems.drop n) >>= flush) := by
    apply (start.stretch_keeps fun _ member => List.mem_of_mem_take member).bind (by omega)
    intro e' _ outer
    exact (outer.stretch_keeps fun _ member => List.mem_of_mem_drop member).mono (by omega)
  have done := (written.after grew).endRow
  simp only [bind_assoc] at done
  exact done

end Encoder

namespace Operation

open Encoder

theorem run_keeps {e : Encoder α} {rows units : Nat} (within : e.Within rows units)
    (op : Operation α) :
    Keeps e (rows + 1) (units + 2 * (op.elements.length + 1)) op.elements (op.run e) := by
  cases op with
  | skip =>
    obtain ⟨grew, skipped⟩ := within.skipRow
    exact .ok grew (skipped.mono (Nat.le_add_right _ _))
  | row elems => exact within.putRow_keeps elems
  | symmetricRow elems rowStart => exact within.putSymmetricRow_keeps elems rowStart

/-- The encoder after operations of which any may have been refused. -/
def after (e : Encoder α) (ops : List (Operation α)) : Encoder α :=
  ops.foldl (fun e op => left (op.run e)) e

/-- How many units operations open at most. -/
def unitLimit (ops : List (Operation α)) : Nat :=
  2 * total (ops.map fun op => op.elements.length + 1)

/-- Any number of operations, refused or not, by induction along them. -/
theorem after_keeps {e : Encoder α} {rows units : Nat} (within : e.Within rows units)
    (ops : List (Operation α)) :
    e.GrewTo (after e ops) ∧ (after e ops).Within (rows + ops.length) (units + unitLimit ops) := by
  induction ops generalizing e rows units with
  | nil => exact ⟨.refl e, within⟩
  | cons op ops ih =>
    have first := op.run_keeps within
    obtain ⟨grew, still⟩ := ih first.within
    refine ⟨first.grew.trans grew, ?_⟩
    have counts : units + 2 * (op.elements.length + 1) + unitLimit ops
        = units + unitLimit (op :: ops) := by
      simp only [unitLimit, List.map_cons, total_cons]
      omega
    rw [counts, Nat.add_assoc, Nat.add_comm 1] at still
    exact still

end Operation
end SparseStream
