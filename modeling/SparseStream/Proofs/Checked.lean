import SparseStream.Proofs.Frame

/-! The encoder with the rules of its machine checked: an access is inside of its array, a counter,
a column and a number of bytes are words, a flag is a byte, a difference fits the width it is packed
at. A step that breaks a rule ends with a fault. Within its bounds the encoder breaks none, so the
checks change nothing, whether there is room for what it writes or not. -/
namespace SparseStream

/-- Why a step has no answer. -/
inductive Halted (α : Type) where
  | refused (stopped : Stopped α)
  | fault

abbrev Checked (α β : Type) := Except (Halted α) β

/-- The last column of an element on its row. -/
def Element.lastCol : Element α → Nat
  | plain col _ => col
  | pattern col p _ => col + p.shape.advance p.size

/-- The values taken and `n` more are so few that their bytes can be counted in a word. -/
def Encoder.CountsBytes (e : Encoder α) (n : Nat) : Prop :=
  (e.values.size + n) * e.valueBytes < wordLimit

instance (e : Encoder α) (n : Nat) : Decidable (e.CountsBytes n) :=
  inferInstanceAs (Decidable (_ < _))

theorem Encoder.CountsBytes.fewer {e : Encoder α} {n m : Nat} (counts : e.CountsBytes n)
    (less : m ≤ n) : e.CountsBytes m :=
  Nat.lt_of_le_of_lt (Nat.mul_le_mul_right _ (Nat.add_le_add_left less _)) counts

/-- Values that were taken count as taken. -/
theorem Encoder.CountsBytes.after {e e' : Encoder α} {more : List α} {n : Nat}
    (counts : e.CountsBytes (more.length + n)) (gains : e.Gains more e') : e'.CountsBytes n := by
  have size := congrArg List.length gains.values
  rw [Array.length_toList, List.length_append, Array.length_toList] at size
  rw [CountsBytes, size, gains.valueBytes, Nat.add_assoc]
  exact counts

namespace Checked

/-- A rule of the machine. -/
def need (rule : Prop) [Decidable rule] : Checked α Unit := if rule then .ok () else .error .fault

/-- A step that breaks no rule. -/
def sound (step : Except (Stopped α) β) : Checked α β := step.mapError .refused

/-- A unit was counted for its kind, and the next flag to give out is still a byte. -/
def Counts (entry : KindEntry) : Prop :=
  entry.flag + 1 < byteLimit 1 ∧ entry.units < wordLimit ∧ entry.elements < wordLimit

instance : DecidablePred Counts := fun _ => inferInstanceAs (Decidable (_ ∧ _ ∧ _))

/-- Takes values. The bytes that a refused request names are counted without a limit. -/
def keep (e : Encoder α) (more : List α) : Checked α (Encoder α) := do
  need (e.answers.head? = some false → (e.values.size + more.length) * e.valueBytes < wordLimit)
  sound (e.keep more)

def startRow (e : Encoder α) (offset : Nat) : Checked α (Encoder α) :=
  if !e.newRow then .ok e
  else do
    let some marked := e.buffer.setBit? offset Header.rowBit | .error .fault
    let e := { e with buffer := marked, newRow := false }
    if e.emptyRows = 0 then return e
    else
      let some twice := e.buffer.setBit? offset Header.jumpBit | .error .fault
      need (e.emptyRows + 1 < wordLimit)
      let jump := e.emptyRows + 1
      let e := { e with buffer := twice }
      let e ← sound (e.write (Varint.length jump) (·.varint jump))
      return { e with emptyRows := 0 }

def openUnit (e : Encoder α) (kind : Kind) (size col : Nat) : Checked α (Nat × Encoder α) :=
  match e.registry.assign kind size with
  | .error error => sound (e.stop error)
  | .ok (flag, registry) => do
    need (∀ entry ∈ registry.entries, Counts entry)
    let offset := e.buffer.size
    let e ← sound (Encoder.write { e with registry := registry } 2 (·.header flag size))
    let e ← startRow e offset
    let e ← sound (e.putColumn col)
    return (flag, e)

def putDifferences (e : Encoder α) (width : Width) (steps : List Nat) : Checked α (Encoder α) := do
  need (width.bytes * steps.length < wordLimit)
  need (∀ n ∈ steps, (Width.classify n).bytes ≤ width.bytes)
  sound (e.putDifferences width steps)

def flush (e : Encoder α) : Checked α (Encoder α) :=
  match e.pending with
  | [] => .ok e
  | first :: rest => do
    let size := rest.length + 1
    sound (e.checkSize size)
    sound (e.checkColumn first)
    let jump := first - e.cursor
    match differences first rest with
    | (steps, some (col, previous)) =>
      sound (Encoder.stop { e with pending := first :: steps } (.behindCursor e.row col previous))
    | (steps, none) =>
      let width := Width.classify (steps.foldl max 0)
      let kind := Kind.run width
      let (flag, e) ← openUnit { e with pending := first :: steps } kind size first
      let e ← putDifferences e width steps
      let e := e.note (.unit kind flag size first jump)
      return { e with cursor := rest.getLastD first, pending := [] }

def putPattern (e : Encoder α) (col : Nat) (p : Pattern) : Checked α (Encoder α) := do
  sound (e.checkSize p.size)
  sound (e.checkColumn col)
  let jump := col - e.cursor
  let kind := Kind.pattern p.shape
  let (flag, e) ← openUnit e kind p.size col
  let e := e.note (.unit kind flag p.size col jump)
  need (col + p.shape.advance p.size < wordLimit)
  return { e with cursor := col + p.shape.advance p.size }

def element (e : Encoder α) : Element α → Checked α (Encoder α)
  | .plain col value => do
    let e ← if e.pending.length = Header.maxSize then flush e else .ok e
    keep { e with pending := e.pending ++ [col] } [value]
  | .pattern col p values => do
    let e ← flush e
    if values.length ≠ p.size then
      sound (e.stop (.pattern (.valueCountInRow e.row col p.size values.length)))
    else
      let e ← putPattern e col p
      keep e values

def elements (e : Encoder α) (row : List (Element α)) : Checked α (Encoder α) :=
  row.foldlM element e

def endRow (e : Encoder α) : Checked α (Encoder α) := do
  need (e.row + 1 < wordLimit)
  return e.endRow

def skipRow (e : Encoder α) : Checked α (Encoder α) := do
  need (e.newRow → e.emptyRows + 1 < wordLimit)
  need (e.row + 1 < wordLimit)
  return e.skipRow

def putRow (e : Encoder α) (row : List (Element α)) : Checked α (Encoder α) := do
  let e := e.note (.row e.row row.length false)
  let e ← elements { e with cursor := 0 } row
  let e ← flush e
  endRow e

def putSymmetricRow (e : Encoder α) (row : List (Element α)) (rowStart : Nat) :
    Checked α (Encoder α) := do
  let e := e.note (.row e.row row.length true)
  let n := splitPoint (fun x : Element α => x.col < rowStart) row
  need (n ≤ row.length)
  let e ← elements { e with cursor := 0 } (row.take n)
  let e ← flush e
  let e ← elements e (row.drop n)
  let e ← flush e
  endRow e

def run (e : Encoder α) : Operation α → Checked α (Encoder α)
  | .skip => skipRow e
  | .row elems => putRow e elems
  | .symmetricRow elems rowStart => putSymmetricRow e elems rowStart

theorem need_of {rule : Prop} [Decidable rule] (holds : rule) :
    (need rule : Checked α Unit) = .ok () := if_pos holds

/-- Steps that break no rule break none together. -/
theorem sound_bind {step : Except (Stopped α) β} {next : β → Except (Stopped α) γ}
    {checked : β → Checked α γ} (same : ∀ b, step = .ok b → checked b = sound (next b)) :
    sound step >>= checked = sound (step >>= next) := by
  cases step with
  | error stopped => rfl
  | ok b => exact same b rfl

/-- Numbers of rows and of units that can be counted in words. -/
structure Countable (rows units : Nat) : Prop where
  rows : rows < wordLimit
  elements : Header.maxSize * units < wordLimit

theorem Countable.mono {rows units units' : Nat} (countable : Countable rows units)
    (fewer : units' ≤ units) : Countable rows units' :=
  ⟨countable.rows, Nat.lt_of_le_of_lt (Nat.mul_le_mul_left _ fewer) countable.elements⟩

variable {e : Encoder α} {rows units : Nat}

theorem counts_of_within {entry : KindEntry} (within : entry.Within units)
    (countable : Countable rows units) : Counts entry := by
  have elements := countable.elements
  have flag := within.flag
  have few := within.fewUnits
  rw [Header.maxFlag_eq] at flag
  rw [Header.maxSize_eq] at elements
  refine ⟨?_, by omega, Nat.lt_of_le_of_lt within.fewElements countable.elements⟩
  rw [byteLimit, byteLimit]
  omega

/-- The row counters have room for one row more. -/
theorem counters_lt {units' : Nat} (within : e.Within rows units)
    (countable : Countable (rows + 1) units') :
    e.row + 1 < wordLimit ∧ e.emptyRows + 1 < wordLimit :=
  ⟨Nat.lt_of_le_of_lt (Nat.succ_le_succ within.row) countable.rows,
    Nat.lt_of_le_of_lt (Nat.succ_le_succ within.emptyRows) countable.rows⟩

theorem startRow_eq {offset : Nat} (inside : offset < e.buffer.size)
    (countable : e.emptyRows + 1 < wordLimit) : startRow e offset = sound (e.startRow offset) := by
  have marked : e.buffer.setBit? offset Header.rowBit
      = some (e.buffer.setBit offset Header.rowBit) := if_pos inside
  have twice : (e.buffer.setBit offset Header.rowBit).setBit? offset Header.jumpBit
      = some ((e.buffer.setBit offset Header.rowBit).setBit offset Header.jumpBit) := by
    apply if_pos
    rwa [Buffer.size_setBit]
  simp only [startRow, Encoder.startRow, marked, twice, need_of countable]
  split
  · rfl
  · split
    · rfl
    · exact sound_bind fun _ _ => rfl

theorem openUnit_eq {size : Nat} (within : e.Within rows units)
    (countable : Countable (rows + 1) (units + 1)) (short : size ≤ Header.maxSize) (kind : Kind)
    (col : Nat) : openUnit e kind size col = sound (e.openUnit kind size col) := by
  cases assigned : e.registry.assign kind size with
  | error failure => rw [openUnit, Encoder.openUnit, assigned]
  | ok given =>
    obtain ⟨flag, registry⟩ := given
    let counted : Encoder α := { e with registry := registry }
    have within' : counted.Within rows (units + 1) :=
      { within with registry := within.registry.assign short assigned }
    have counts : ∀ entry ∈ registry.entries, Counts entry :=
      fun entry member => counts_of_within (within'.registry.counts entry member) countable
    rw [openUnit, Encoder.openUnit, assigned]
    dsimp only
    rw [need_of counts]
    apply sound_bind
    intro named written
    have inside : e.buffer.size < named.buffer.size := by
      have two : named.buffer.size = e.buffer.size + 2 := by
        simp [Encoder.buffer_of_write written, Buffer.size, Buffer.header, Buffer.append]
      omega
    have keeps : counted.Keeps rows (units + 1) [] (.ok named) :=
      written ▸ within'.write_keeps 2 fun b => b.bytes_append _
    rw [startRow_eq inside (counters_lt keeps.within countable).2]
    apply sound_bind
    intro started _
    exact sound_bind fun _ _ => rfl

theorem bytes_classify_mono {n m : Nat} (less : n ≤ m) :
    (Width.classify n).bytes ≤ (Width.classify m).bytes := by
  simp only [Width.classify]
  repeat' split
  all_goals first | decide | omega

/-- A run is packed at a width that holds each of its differences. -/
theorem bytes_classify_le {steps : List Nat} :
    ∀ n ∈ steps, (Width.classify n).bytes ≤ (Width.classify (steps.foldl max 0)).bytes :=
  fun n member => bytes_classify_mono (le_foldl_max n member)

theorem putDifferences_eq {steps : List Nat} (short : steps.length ≤ Header.maxSize) :
    putDifferences e (Width.classify (steps.foldl max 0)) steps
      = sound (e.putDifferences (Width.classify (steps.foldl max 0)) steps) := by
  have word : (Width.classify (steps.foldl max 0)).bytes * steps.length < wordLimit := by
    have widest : (Width.classify (steps.foldl max 0)).bytes ≤ 8 := by
      cases Width.classify (steps.foldl max 0) <;> decide
    have most : 8 * Header.maxSize < wordLimit := by decide
    exact Nat.lt_of_le_of_lt (Nat.mul_le_mul widest short) most
  rw [putDifferences, need_of word, need_of bytes_classify_le]
  rfl

theorem keep_eq {more : List α} (bytes : e.CountsBytes more.length) :
    keep e more = sound (e.keep more) := by
  have word : (e.values.size + more.length) * e.valueBytes < wordLimit := bytes
  rw [keep, need_of fun _ => word]
  rfl

theorem flush_eq (within : e.Within rows units)
    (countable : Countable (rows + 1) (units + 1)) : flush e = sound e.flush := by
  rw [flush, Encoder.flush]
  have short := within.pending
  rcases pending : e.pending with _ | ⟨first, rest⟩
  · rfl
  · rw [pending, List.length_cons] at short
    apply sound_bind
    intro _ _
    apply sound_bind
    intro _ _
    rcases found : differences first rest with ⟨steps, _ | fault⟩
    · dsimp only
      rw [openUnit_eq (within.turn pending found) countable short]
      apply sound_bind
      intro opened _
      have fewer : steps.length ≤ Header.maxSize := by
        have same := length_differences first rest
        rw [found] at same
        exact same ▸ Nat.le_of_succ_le short
      rw [putDifferences_eq fewer]
      exact sound_bind fun _ _ => rfl
    · rfl

theorem putPattern_eq {col : Nat} {p : Pattern} (within : e.Within rows units)
    (countable : Countable (rows + 1) (units + 1))
    (word : col + p.shape.advance p.size < wordLimit) :
    putPattern e col p = sound (e.putPattern col p) := by
  rw [putPattern, Encoder.putPattern]
  apply sound_bind
  intro _ fits
  have short : p.size ≤ Header.maxSize := by
    apply Nat.le_of_not_lt
    intro long
    rw [Encoder.checkSize, if_pos long] at fits
    contradiction
  apply sound_bind
  intro _ _
  dsimp only
  rw [openUnit_eq within countable short]
  apply sound_bind
  intro opened _
  rw [need_of word]
  rfl

theorem element_eq {x : Element α} (within : e.Within rows units)
    (countable : Countable (rows + 1) (units + 2)) (word : x.lastCol < wordLimit)
    (bytes : e.CountsBytes x.values.length) : element e x = sound (e.element x) := by
  have flushed := flush_eq within (countable.mono (Nat.le_succ _))
  cases x with
  | plain col value =>
    -- where the columns held back are written first, no value is taken with them
    have hold : ∀ e' : Encoder α, e.Gains [] e' →
        keep { e' with pending := e'.pending ++ [col] } [value]
          = sound ({ e' with pending := e'.pending ++ [col] }.keep [value]) := by
      intro e' before
      have counts : e'.CountsBytes 1 := bytes.after before
      exact keep_eq counts
    simp only [element, Encoder.element]
    split
    · rw [flushed]
      exact sound_bind fun e' done => hold e' (Encoder.gains_of_flush done)
    · exact hold e (.refl e)
  | pattern col p values =>
    simp only [element, Encoder.element]
    rw [flushed]
    apply sound_bind
    intro e' done
    split
    · rfl
    · have keeps : e.Keeps rows (units + 1) [] e.flush := within.flush_keeps
      rw [putPattern_eq (keeps.within_of_ok done) countable word]
      apply sound_bind
      intro e'' put
      have before : e.Gains [] e'' :=
        (Encoder.gains_of_flush done).trans (Encoder.gains_of_putPattern put)
      have counts : e''.CountsBytes values.length := by
        apply Encoder.CountsBytes.after _ before
        rw [List.length_nil, Nat.zero_add]
        exact bytes
      exact keep_eq counts

/-- The elements of a row, by induction along them. -/
theorem elements_eq {row : List (Element α)} (within : e.Within rows units)
    (countable : Countable (rows + 1) (units + 2 * row.length))
    (words : ∀ x ∈ row, x.lastCol < wordLimit)
    (bytes : e.CountsBytes (row.flatMap Element.values).length) :
    elements e row = sound (e.elements row) := by
  induction row generalizing e units with
  | nil => rfl
  | cons x row ih =>
    rw [List.forall_mem_cons] at words
    rw [List.length_cons] at countable
    rw [List.flatMap_cons, List.length_append] at bytes
    rw [elements, Encoder.elements, List.foldlM_cons, List.foldlM_cons,
      element_eq within (countable.mono (by omega)) words.1 (bytes.fewer (Nat.le_add_right _ _))]
    apply sound_bind
    intro e' done
    have keeps : e.Keeps rows (units + 2) [x] (e.element x) :=
      within.element_keeps List.mem_cons_self
    exact ih (keeps.within_of_ok done) (countable.mono (by omega)) words.2
      (bytes.after (Encoder.gains_of_element done))

/-- Elements that share no run with the ones after them. -/
theorem stretch_eq {row : List (Element α)} (within : e.Within rows units)
    (countable : Countable (rows + 1) (units + 2 * row.length + 1))
    (words : ∀ x ∈ row, x.lastCol < wordLimit)
    (bytes : e.CountsBytes (row.flatMap Element.values).length) :
    elements e row >>= flush = sound (e.elements row >>= Encoder.flush) := by
  rw [elements_eq within (countable.mono (Nat.le_succ _)) words bytes]
  apply sound_bind
  intro e' done
  have keeps := within.elements_keeps (fun x (member : x ∈ row) => member)
  exact flush_eq (keeps.within_of_ok done) countable

theorem endRow_eq (within : e.Within rows units)
    (countable : Countable (rows + 1) units) : endRow e = sound (.ok e.endRow) := by
  rw [endRow, need_of (counters_lt within countable).1]
  rfl

theorem skipRow_eq (within : e.Within rows units)
    (countable : Countable (rows + 1) units) : skipRow e = sound (.ok e.skipRow) := by
  obtain ⟨row, skipped⟩ := counters_lt within countable
  rw [skipRow, need_of row, need_of fun _ => skipped]
  rfl

theorem putRow_eq {row : List (Element α)} (within : e.Within rows units)
    (countable : Countable (rows + 1) (units + 2 * (row.length + 1)))
    (words : ∀ x ∈ row, x.lastCol < wordLimit)
    (bytes : e.CountsBytes (row.flatMap Element.values).length) :
    putRow e row = sound (e.putRow row) := by
  let entered : Encoder α := { e.note (.row e.row row.length false) with cursor := 0 }
  have start : entered.Within rows units := { within with }
  have written := stretch_eq start (countable.mono (by omega)) words bytes
  have keeps := start.stretch_keeps (fun x (member : x ∈ row) => member)
  have ended : (elements entered row >>= flush) >>= endRow
      = sound ((entered.elements row >>= Encoder.flush) >>= fun e' => pure e'.endRow) := by
    rw [written]
    apply sound_bind
    intro e' done
    exact endRow_eq (keeps.within_of_ok done) (countable.mono (by omega))
  rw [bind_assoc, bind_assoc] at ended
  exact ended

theorem putSymmetricRow_eq {rowStart : Nat} {row : List (Element α)}
    (within : e.Within rows units)
    (countable : Countable (rows + 1) (units + 2 * (row.length + 1)))
    (words : ∀ x ∈ row, x.lastCol < wordLimit)
    (bytes : e.CountsBytes (row.flatMap Element.values).length) :
    putSymmetricRow e row rowStart = sound (e.putSymmetricRow row rowStart) := by
  let n := splitPoint (fun x : Element α => x.col < rowStart) row
  have inside : n ≤ row.length := splitPoint_le_length _ row
  let entered : Encoder α := { e.note (.row e.row row.length true) with cursor := 0 }
  have start : entered.Within rows units := { within with }
  have front : (row.take n).length = n := List.length_take_of_le inside
  have back : (row.drop n).length = row.length - n := List.length_drop
  have both : entered.CountsBytes (((row.take n).flatMap Element.values).length
      + ((row.drop n).flatMap Element.values).length) := by
    rw [← List.length_append, ← List.flatMap_append, List.take_append_drop]
    exact bytes
  have outer : elements entered (row.take n) >>= flush
      = sound (entered.elements (row.take n) >>= Encoder.flush) :=
    stretch_eq start (countable.mono (by omega))
      (fun x member => words x (List.mem_of_mem_take member))
      (both.fewer (Nat.le_add_right _ _))
  have keeps := start.stretch_keeps (fun x (member : x ∈ row.take n) => member)
  have ended : (elements entered (row.take n) >>= flush) >>=
        (fun e' => (elements e' (row.drop n) >>= flush) >>= endRow)
      = sound ((entered.elements (row.take n) >>= Encoder.flush) >>= fun e' =>
        (e'.elements (row.drop n) >>= Encoder.flush) >>= fun e'' => pure e''.endRow) := by
    rw [outer]
    apply sound_bind
    intro e' done
    have inner := keeps.within_of_ok done
    rw [stretch_eq inner (countable.mono (by omega))
      (fun x member => words x (List.mem_of_mem_drop member))
      (both.after (Encoder.gains_of_stretch done))]
    apply sound_bind
    intro e'' done'
    have keeps' := inner.stretch_keeps (fun x (member : x ∈ row.drop n) => member)
    exact endRow_eq (keeps'.within_of_ok done') (countable.mono (by omega))
  simp only [bind_assoc] at ended
  rw [putSymmetricRow, need_of inside]
  exact ended

theorem run_eq {op : Operation α} (within : e.Within rows units)
    (countable : Countable (rows + 1) (units + 2 * (op.elements.length + 1)))
    (words : ∀ x ∈ op.elements, x.lastCol < wordLimit)
    (bytes : e.CountsBytes (op.elements.flatMap Element.values).length) :
    run e op = sound (op.run e) := by
  cases op with
  | skip => exact skipRow_eq within (countable.mono (Nat.le_add_right _ _))
  | row elems => exact putRow_eq within countable words bytes
  | symmetricRow elems rowStart => exact putSymmetricRow_eq within countable words bytes

/-- The bound on columns is needed: a line that ends behind the last word is a fault. -/
example :
    run ({ mode := .jump } : Encoder Unit)
        (.row [.pattern (wordLimit - 1) ⟨.simple .horizontal 1, 2⟩ [(), ()]])
      = .error .fault := rfl

end Checked

namespace Operation

open Encoder

theorem unitLimit_append (ops more : List (Operation α)) :
    unitLimit (ops ++ more) = unitLimit ops + unitLimit more := by
  simp only [unitLimit, List.map_append, total_append, Nat.mul_add]

theorem length_le_unitLimit (ops : List (Operation α)) : ops.length ≤ unitLimit ops := by
  induction ops with
  | nil => exact Nat.zero_le _
  | cons op ops ih =>
    simp only [unitLimit, List.map_cons, total_cons, List.length_cons] at ih ⊢
    omega

/-- An encoder that goes on whatever was refused, for want of memory too: its requests may be
answered in any way. It never changes what it wrote, took or gave out, holds no more kinds than
there are flags and no more columns than a unit takes, and refuses a unit as too long only for a
pattern that is. No step breaks a rule of its machine, provided that the columns are words up to the
last one of each line, that its counters stay words, which count no more units than the operations
so far can open, and that the values it holds and those it is handed are so few that a word counts
their bytes, as all that lies in one memory at a time is. -/
theorem grows_after_any_operations (mode : ColumnMode) (buffer : Buffer) (values : Array α)
    (valueBytes : Nat) (answers : List Bool) (ops : List (Operation α)) :
    let start : Encoder α :=
      { mode := mode, buffer := buffer, values := values, valueBytes := valueBytes,
        answers := answers }
    let e := after start ops
    (∀ more, e.GrewTo (after e more)) ∧
      e.registry.entries.length ≤ Header.maxFlag ∧ e.pending.length ≤ Header.maxSize ∧
      ∀ op : Operation α,
        (∀ size e', op.run e = .error ⟨.unitTooLong size, e'⟩ →
          ∃ x ∈ op.elements, x.isPattern ∧ x.count = size ∧ Header.maxSize < size) ∧
        ((∀ x ∈ op.elements, x.lastCol < wordLimit) →
          Header.maxSize * unitLimit (ops ++ [op]) < wordLimit →
          e.CountsBytes (op.elements.flatMap Element.values).length →
          Checked.run e op = Checked.sound (op.run e)) := by
  intro start e
  have fresh : start.Within 0 0 := by
    refine ⟨⟨Nat.zero_le _, ?_⟩, Nat.zero_le _, Nat.le_refl _, Nat.le_refl _⟩
    exact fun entry member => absurd member List.not_mem_nil
  obtain ⟨-, within⟩ := after_keeps fresh ops
  rw [Nat.zero_add, Nat.zero_add] at within
  refine ⟨fun more => (after_keeps within more).1, within.registry.few, within.pending, ?_⟩
  intro op
  refine ⟨(op.run_keeps within).blames, ?_⟩
  intro words small bytes
  have limit : unitLimit (ops ++ [op]) = unitLimit ops + 2 * (op.elements.length + 1) := by
    rw [unitLimit_append]
    simp [unitLimit]
  rw [limit] at small
  have rows := length_le_unitLimit ops
  have bounded : ops.length + 1 < wordLimit := by
    rw [Header.maxSize_eq] at small
    omega
  exact Checked.run_eq within ⟨bounded, small⟩ words bytes

set_option maxRecDepth 2000 in
/-- A row whose first run got room for its header only, a skipped row, and then a row with a pattern
that no unit can hold. The column that waited is written with the last row. -/
theorem grows_after_refused_rows :
    let line : Pattern := ⟨.simple .horizontal 2, 3⟩
    let long : Pattern := ⟨.simple .vertical 1, 300⟩
    let start : Encoder Unit := { mode := .jump, answers := [true, true, false] }
    let ops : List (Operation Unit) := [.row [.plain 3 (), .pattern 8 line []], .skip]
    let op : Operation Unit := .row [.plain 5 (), .pattern 20 long (List.replicate 300 ())]
    let e := after start ops
    e.buffer.bytes.toList = [1, 1] ∧ e.pending = [3] ∧
      (after e [op]).buffer.bytes.toList = [1, 1, 129, 2, 3, 2] ∧ e.GrewTo (after e [op]) ∧
      op.run e = .error ⟨.unitTooLong 300, after e [op]⟩ ∧
      (∃ x ∈ op.elements, x.isPattern ∧ x.count = 300 ∧ Header.maxSize < 300) ∧
      Checked.run e op = Checked.sound (op.run e) := by
  intro line long start ops op e
  have refused : op.run e = .error ⟨.unitTooLong 300, after e [op]⟩ := rfl
  obtain ⟨grows, -, -, step⟩ :=
    grows_after_any_operations .jump {} #[] 8 [true, true, false] ops
  obtain ⟨blames, faultless⟩ := step op
  exact ⟨by decide +kernel, by decide +kernel, by decide +kernel, grows [op], refused,
    blames 300 _ refused, faultless (by decide) (by decide) (by decide +kernel)⟩

end Operation
end SparseStream
