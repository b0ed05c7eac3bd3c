import SparseStream.Proofs.Growth

/-! What the steps of an encoder leave alone, refused or not, and what they can be refused for. A
unit is written with the columns, values and counters as they are; the values taken stay as they are
until an element brings some. -/
namespace SparseStream.Encoder

/-- What stays as it is while one unit is written. Answers are used up one after another. -/
structure Frame (e e' : Encoder α) : Prop where
  reserved : e'.buffer.reserved = e.buffer.reserved
  values : e'.values = e.values
  valueBytes : e'.valueBytes = e.valueBytes
  pending : e'.pending = e.pending
  events : e'.events = e.events
  answers : e'.answers <:+ e.answers

theorem Frame.refl (e : Encoder α) : e.Frame e := ⟨rfl, rfl, rfl, rfl, rfl, List.suffix_rfl⟩

theorem Frame.trans {e e' e'' : Encoder α} (first : e.Frame e') (next : e'.Frame e'') :
    e.Frame e'' where
  reserved := next.reserved.trans first.reserved
  values := next.values.trans first.values
  valueBytes := next.valueBytes.trans first.valueBytes
  pending := next.pending.trans first.pending
  events := next.events.trans first.events
  answers := next.answers.trans first.answers

/-- An answer that is still to come refuses memory, and an error reports that. -/
def RunsShort (e : Encoder α) (error : Error) : Prop :=
  ∃ bytes, error = .allocation bytes ∧ false ∈ e.answers

/-- A part of writing a unit, which is refused for some causes or for want of memory. -/
structure Framed (e : Encoder α) (causes : List Error) (outcome : Except (Stopped α) (Encoder α)) :
    Prop where
  frame : e.Frame (left outcome)
  cause : ∀ stopped, outcome = .error stopped →
    stopped.error ∈ causes ∨ e.RunsShort stopped.error

namespace Framed

variable {e e' : Encoder α} {causes : List Error} {step : Except (Stopped α) (Encoder α)}

theorem ok (frame : e.Frame e') : e.Framed causes (.ok e') :=
  ⟨frame, fun _ refused => nomatch refused⟩

theorem after (frame : e.Frame e') (framed : e'.Framed causes step) : e.Framed causes step where
  frame := frame.trans framed.frame
  cause stopped refused := by
    refine (framed.cause stopped refused).imp_right ?_
    rintro ⟨bytes, short, refuses⟩
    exact ⟨bytes, short, frame.answers.subset refuses⟩

theorem widen {more : List Error} (framed : e.Framed causes step) (sub : causes ⊆ more) :
    e.Framed more step where
  frame := framed.frame
  cause stopped refused := (framed.cause stopped refused).imp_left (sub ·)

theorem bind {next : Encoder α → Except (Stopped α) (Encoder α)} (first : e.Framed causes step)
    (rest : ∀ e', e.Frame e' → e'.Framed causes (next e')) : e.Framed causes (step >>= next) := by
  cases step with
  | error stopped => exact first
  | ok e' => exact (rest e' first.frame).after first.frame

end Framed

variable {e e' : Encoder α} {causes : List Error}

theorem framed_request (e : Encoder α) (bytes : Nat) : e.Framed [] (e.request bytes) := by
  have frame : e.Frame { e with answers := e.answers.tail } :=
    { Frame.refl e with answers := List.tail_suffix _ }
  cases answers : e.answers with
  | nil => simpa [request, answers] using Framed.ok frame
  | cons met rest =>
    cases met with
    | true => simpa [request, answers] using Framed.ok frame
    | false =>
      have refused : e.request bytes
          = .error ⟨.allocation bytes, { e with answers := e.answers.tail }⟩ := by
        simp [request, answers, stop]
      rw [refused]
      refine ⟨frame, ?_⟩
      rintro stopped ⟨⟩
      exact .inr ⟨bytes, rfl, answers ▸ List.mem_cons_self⟩

theorem framed_write (e : Encoder α) (n : Nat) {put : Buffer → Buffer}
    (keeps : ∀ b : Buffer, (put b).reserved = b.reserved) : e.Framed causes (e.write n put) := by
  apply ((e.framed_request _).widen (List.nil_subset _)).bind
  intro e' _
  exact .ok { Frame.refl e' with reserved := keeps e'.buffer }

theorem framed_startRow (e : Encoder α) (offset : Nat) : e.Framed [] (e.startRow offset) := by
  rw [startRow]
  split
  · exact .ok (.refl e)
  · dsimp only
    split
    · exact .ok { Frame.refl e with }
    · let both := (e.buffer.setBit offset Header.rowBit).setBit offset Header.jumpBit
      have frame : e.Frame { e with buffer := both, newRow := false } := { Frame.refl e with }
      refine Framed.after frame (Framed.bind (framed_write _ _ ?_) ?_)
      · exact fun _ => rfl
      · intro e' _
        exact .ok { Frame.refl e' with }

theorem framed_putColumn (e : Encoder α) (col : Nat) :
    e.Framed [.columnTooWide col] (e.putColumn col) := by
  rw [putColumn]
  split
  · apply framed_write
    exact fun _ => rfl
  · split
    · refine ⟨.refl e, ?_⟩
      rintro stopped ⟨⟩
      exact .inl (List.mem_singleton.mpr rfl)
    · apply framed_write
      exact fun _ => rfl

theorem framed_putDifferences (e : Encoder α) (width : Width) (steps : List Nat) :
    e.Framed [] (e.putDifferences width steps) := by
  rw [putDifferences]
  split
  · exact .ok (.refl e)
  · apply framed_write
    exact fun _ => rfl

theorem framed_openUnit (e : Encoder α) (kind : Kind) (size col : Nat) :
    e.Framed [.tooManyKinds, .columnTooWide col] ((e.openUnit kind size col).map Prod.snd) := by
  cases assigned : e.registry.assign kind size with
  | error failure =>
    cases Registry.error_of_assign assigned
    rw [openUnit, assigned]
    refine ⟨.refl e, ?_⟩
    rintro stopped ⟨⟩
    exact .inl List.mem_cons_self
  | ok given =>
    obtain ⟨flag, registry⟩ := given
    have opened : (e.openUnit kind size col).map Prod.snd = (do
        let e' ← write { e with registry := registry } 2 (·.header flag size)
        let e' ← e'.startRow e.buffer.size
        e'.putColumn col) := by
      change Prod.snd <$> e.openUnit kind size col = _
      rw [openUnit, assigned]
      simp only [map_bind, map_pure, bind_pure]
    have frame : e.Frame { e with registry := registry } := { Frame.refl e with }
    rw [opened]
    refine Framed.after frame (Framed.bind (framed_write _ 2 ?_) ?_)
    · exact fun _ => rfl
    intro named _
    apply ((named.framed_startRow _).widen (List.nil_subset _)).bind
    intro started _
    exact (started.framed_putColumn col).widen (List.subset_cons_self _ _)

theorem frame_of_openUnit {kind : Kind} {size col flag : Nat}
    (opened : e.openUnit kind size col = .ok (flag, e')) : e.Frame e' := by
  have framed := e.framed_openUnit kind size col
  rw [opened] at framed
  exact framed.frame

theorem framed_of_openUnit {kind : Kind} {size col : Nat} {stopped : Stopped α}
    (refused : e.openUnit kind size col = .error stopped) :
    e.Framed [.tooManyKinds, .columnTooWide col] (.error stopped) := by
  have framed := e.framed_openUnit kind size col
  rw [refused] at framed
  exact framed

/-- What a step does to the values, which are taken one after another, and what stays as it is until
the row is over. Nothing but units is told. -/
structure Gains (e : Encoder α) (more : List α) (e' : Encoder α) : Prop where
  values : e'.values.toList = e.values.toList ++ more
  valueBytes : e'.valueBytes = e.valueBytes
  reserved : e'.buffer.reserved = e.buffer.reserved
  told : ∀ event ∈ e'.events.toList, event ∈ e.events.toList ∨ event.level = .trace

theorem Gains.refl (e : Encoder α) : e.Gains [] e :=
  ⟨(List.append_nil _).symm, rfl, rfl, fun _ member => .inl member⟩

theorem Gains.trans {e'' : Encoder α} {more more' : List α} (first : e.Gains more e')
    (next : e'.Gains more' e'') : e.Gains (more ++ more') e'' where
  values := by rw [next.values, first.values, List.append_assoc]
  valueBytes := next.valueBytes.trans first.valueBytes
  reserved := next.reserved.trans first.reserved
  told event member := (next.told event member).elim (first.told event) .inr

/-- A unit that was written is told. -/
theorem Frame.gains {e₁ : Encoder α} (frame : e.Frame e₁) (kind : Kind)
    (flag size col jump cursor : Nat) (pending : List Nat) :
    e.Gains [] { e₁.note (.unit kind flag size col jump) with
      cursor := cursor, pending := pending } where
  values := by rw [note, frame.values, List.append_nil]
  valueBytes := frame.valueBytes
  reserved := frame.reserved
  told event member := by
    rw [note, Array.toList_push, List.mem_append, frame.events] at member
    refine member.imp_right fun new => ?_
    rw [List.mem_singleton.mp new]
    rfl

theorem gains_of_keep {more : List α} (kept : e.keep more = .ok e') : e.Gains more e' := by
  simp only [keep, bind_eq_ok] at kept
  obtain ⟨asked, met, done⟩ := kept
  have framed := e.framed_request ((e.values.size + more.length) * e.valueBytes)
  rw [met] at framed
  cases done
  have frame : e.Frame asked := framed.frame
  refine ⟨?_, frame.valueBytes, frame.reserved, fun _ member => .inl (frame.events ▸ member)⟩
  rw [Array.toList_appendList, frame.values]

theorem gains_of_flush (flushed : e.flush = .ok e') : e.Gains [] e' := by
  unfold flush at flushed
  split at flushed
  · cases flushed
    exact .refl e
  · rename_i first rest _
    simp only [bind_eq_ok] at flushed
    obtain ⟨_, -, _, -, flushed⟩ := flushed
    split at flushed
    · contradiction
    · rename_i steps _
      simp only [bind_eq_ok] at flushed
      obtain ⟨⟨flag, e₁⟩, opened, e₂, packed, done⟩ := flushed
      cases done
      have framed := e₁.framed_putDifferences (.classify (steps.foldl max 0)) steps
      rw [packed] at framed
      have frame : Frame { e with pending := first :: steps } e₂ :=
        (frame_of_openUnit opened).trans framed.frame
      have written := frame.gains (.run (.classify (steps.foldl max 0))) flag (rest.length + 1)
        first (first - e.cursor) (rest.getLastD first) []
      exact ⟨written.values, written.valueBytes, written.reserved, written.told⟩

theorem gains_of_putPattern {col : Nat} {p : Pattern} (put : e.putPattern col p = .ok e') :
    e.Gains [] e' := by
  simp only [putPattern, bind_eq_ok] at put
  obtain ⟨_, -, _, -, ⟨flag, e₁⟩, opened, done⟩ := put
  cases done
  exact (frame_of_openUnit opened).gains ..

theorem gains_of_element {x : Element α} (taken : e.element x = .ok e') :
    e.Gains x.values e' := by
  cases x with
  | plain col value =>
    -- where the columns held back are written first, no value is taken with them
    have hold : ∀ {e₁ : Encoder α}, e.Gains [] e₁ →
        { e₁ with pending := e₁.pending ++ [col] }.keep [value] = .ok e' → e.Gains [value] e' := by
      intro e₁ before kept
      have last := gains_of_keep kept
      exact before.trans ⟨last.values, last.valueBytes, last.reserved, last.told⟩
    simp only [element] at taken
    split at taken
    · simp only [bind_eq_ok] at taken
      obtain ⟨e₁, flushed, kept⟩ := taken
      exact hold (gains_of_flush flushed) kept
    · exact hold (.refl e) taken
  | pattern col p values =>
    simp only [element, bind_eq_ok] at taken
    obtain ⟨e₁, flushed, taken⟩ := taken
    split at taken
    · contradiction
    · simp only [bind_eq_ok] at taken
      obtain ⟨e₂, put, kept⟩ := taken
      exact (gains_of_flush flushed).trans ((gains_of_putPattern put).trans (gains_of_keep kept))

/-- The elements of a row, by induction along them. -/
theorem gains_of_elements {row : List (Element α)} (taken : e.elements row = .ok e') :
    e.Gains (row.flatMap Element.values) e' := by
  induction row generalizing e with
  | nil =>
    cases taken
    exact .refl _
  | cons x row ih =>
    simp only [elements, List.foldlM_cons, bind_eq_ok] at taken
    obtain ⟨e₁, first, rest⟩ := taken
    exact (gains_of_element first).trans (ih rest)

theorem gains_of_stretch {row : List (Element α)} (taken : e.elements row >>= flush = .ok e') :
    e.Gains (row.flatMap Element.values) e' := by
  simp only [bind_eq_ok] at taken
  obtain ⟨e₁, inRow, flushed⟩ := taken
  have both := (gains_of_elements inRow).trans (gains_of_flush flushed)
  rwa [List.append_nil] at both

end SparseStream.Encoder
