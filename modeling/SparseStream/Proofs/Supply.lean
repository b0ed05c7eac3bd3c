import SparseStream.Encoder

/-! Memory decides how far an encoder comes, never what it writes: a step that succeeds under some
answers to its requests does the same when all of them are met. -/
namespace SparseStream.Encoder

/-- The encoder with all of its requests met. -/
def granted (e : Encoder α) : Encoder α := { e with answers := [] }

variable {e e' : Encoder α}

theorem met_granted (e : Encoder α) : e.granted.Met := rfl

theorem granted_of_request {bytes : Nat} (asked : e.request bytes = .ok e') :
    e'.granted = e.granted := by
  simp only [request] at asked
  split at asked
  · cases asked
    rfl
  · contradiction

theorem granted_of_write {n : Nat} {put : Buffer → Buffer} (written : e.write n put = .ok e') :
    e.granted.write n put = .ok e'.granted := by
  simp only [write, bind_eq_ok] at written
  obtain ⟨asked, met, done⟩ := written
  cases done
  rw [write_of_met e.met_granted, ← granted_of_request met]
  rfl

theorem granted_of_keep {more : List α} (kept : e.keep more = .ok e') :
    e.granted.keep more = .ok e'.granted := by
  simp only [keep, bind_eq_ok] at kept
  obtain ⟨asked, met, done⟩ := kept
  cases done
  rw [keep_of_met e.met_granted, ← granted_of_request met]
  rfl

theorem granted_of_startRow {offset : Nat} (started : e.startRow offset = .ok e') :
    e.granted.startRow offset = .ok e'.granted := by
  unfold startRow at started ⊢
  split at started
  · rename_i off
    cases started
    exact if_pos off
  · rename_i on
    rw [if_neg (by exact on)]
    dsimp only at started ⊢
    split at started
    · rename_i adjacent
      cases started
      exact if_pos adjacent
    · rename_i apart
      simp only [bind_eq_ok] at started
      obtain ⟨e₁, written, done⟩ := started
      cases done
      rw [if_neg (by exact apart), bind_eq_ok]
      exact ⟨_, granted_of_write written, rfl⟩

theorem granted_of_putColumn {col : Nat} (put : e.putColumn col = .ok e') :
    e.granted.putColumn col = .ok e'.granted := by
  have same : e.granted.mode = e.mode := rfl
  unfold putColumn at put ⊢
  rw [same]
  cases mode : e.mode with
  | jump =>
    rw [mode] at put
    exact granted_of_write put
  | full =>
    rw [mode] at put
    dsimp only at put ⊢
    split at put
    · contradiction
    · rename_i narrow
      rw [if_neg narrow]
      exact granted_of_write put

theorem granted_of_putDifferences {width : Width} {steps : List Nat}
    (packed : e.putDifferences width steps = .ok e') :
    e.granted.putDifferences width steps = .ok e'.granted := by
  cases steps with
  | nil =>
    cases packed
    rfl
  | cons step steps =>
    rw [putDifferences_cons] at packed ⊢
    exact granted_of_write packed

theorem granted_of_openUnit {kind : Kind} {size col flag : Nat}
    (opened : e.openUnit kind size col = .ok (flag, e')) :
    e.granted.openUnit kind size col = .ok (flag, e'.granted) := by
  have same : e.granted.registry = e.registry := rfl
  unfold openUnit at opened ⊢
  rw [same]
  cases assigned : e.registry.assign kind size with
  | error failure =>
    rw [assigned] at opened
    contradiction
  | ok given =>
    rw [assigned] at opened
    simp only [bind_eq_ok] at opened ⊢
    obtain ⟨e₁, header, e₂, started, e₃, column, done⟩ := opened
    cases done
    exact ⟨_, granted_of_write header, _, granted_of_startRow started, _,
      granted_of_putColumn column, rfl⟩

theorem granted_of_checkSize {size : Nat} (fits : e.checkSize size = .ok ()) :
    e.granted.checkSize size = .ok () := by
  unfold checkSize at fits ⊢
  split at fits
  · contradiction
  · rename_i short
    exact if_neg short

theorem granted_of_checkColumn {col : Nat} (ahead : e.checkColumn col = .ok ()) :
    e.granted.checkColumn col = .ok () := by
  unfold checkColumn at ahead ⊢
  split at ahead
  · contradiction
  · rename_i past
    exact if_neg past

theorem granted_of_flush (flushed : e.flush = .ok e') : e.granted.flush = .ok e'.granted := by
  have same : e.granted.pending = e.pending := rfl
  unfold flush at flushed ⊢
  rw [same]
  cases pending : e.pending with
  | nil =>
    rw [pending] at flushed
    cases flushed
    rfl
  | cons first rest =>
    rw [pending] at flushed
    simp only [bind_eq_ok] at flushed ⊢
    obtain ⟨_, short, _, ahead, flushed⟩ := flushed
    refine ⟨_, granted_of_checkSize short, _, granted_of_checkColumn ahead, ?_⟩
    generalize differences first rest = turned at flushed ⊢
    rcases turned with ⟨steps, _ | fault⟩
    · simp only [bind_eq_ok] at flushed ⊢
      obtain ⟨⟨flag, e₁⟩, opened, e₂, packed, done⟩ := flushed
      cases done
      exact ⟨_, granted_of_openUnit opened, _, granted_of_putDifferences packed, rfl⟩
    · contradiction

theorem granted_of_putPattern {col : Nat} {p : Pattern} (put : e.putPattern col p = .ok e') :
    e.granted.putPattern col p = .ok e'.granted := by
  simp only [putPattern, bind_eq_ok] at put ⊢
  obtain ⟨_, short, _, ahead, ⟨flag, e₁⟩, opened, done⟩ := put
  cases done
  exact ⟨_, granted_of_checkSize short, _, granted_of_checkColumn ahead, _,
    granted_of_openUnit opened, rfl⟩

theorem granted_of_element {x : Element α} (taken : e.element x = .ok e') :
    e.granted.element x = .ok e'.granted := by
  cases x with
  | plain col value =>
    simp only [element] at taken ⊢
    change (if e.pending.length = Header.maxSize then _ else _) = _
    split at taken
    · rename_i full
      simp only [bind_eq_ok] at taken
      obtain ⟨e₁, flushed, kept⟩ := taken
      rw [if_pos full, bind_eq_ok]
      exact ⟨_, granted_of_flush flushed, granted_of_keep kept⟩
    · rename_i short
      rw [if_neg short]
      exact granted_of_keep taken
  | pattern col p values =>
    simp only [element, bind_eq_ok] at taken ⊢
    obtain ⟨e₁, flushed, taken⟩ := taken
    refine ⟨_, granted_of_flush flushed, ?_⟩
    split at taken
    · contradiction
    · rename_i counted
      rw [if_neg counted]
      simp only [bind_eq_ok] at taken ⊢
      obtain ⟨e₂, put, kept⟩ := taken
      exact ⟨_, granted_of_putPattern put, granted_of_keep kept⟩

/-- The elements of a row, by induction along them. -/
theorem granted_of_elements {row : List (Element α)} (taken : e.elements row = .ok e') :
    e.granted.elements row = .ok e'.granted := by
  induction row generalizing e with
  | nil =>
    cases taken
    rfl
  | cons x row ih =>
    simp only [elements, List.foldlM_cons, bind_eq_ok] at taken ⊢
    obtain ⟨e₁, first, rest⟩ := taken
    exact ⟨_, granted_of_element first, ih rest⟩

theorem granted_skipRow (e : Encoder α) : e.granted.skipRow = e.skipRow.granted := by
  cases starts : e.newRow <;> simp [skipRow, note, granted, starts]

theorem granted_of_putRow {row : List (Element α)} (taken : e.putRow row = .ok e') :
    e.granted.putRow row = .ok e'.granted := by
  simp only [putRow, bind_eq_ok] at taken ⊢
  obtain ⟨e₁, inRow, e₂, flushed, done⟩ := taken
  cases done
  exact ⟨_, granted_of_elements inRow, _, granted_of_flush flushed, rfl⟩

theorem granted_of_putSymmetricRow {row : List (Element α)} {rowStart : Nat}
    (taken : e.putSymmetricRow row rowStart = .ok e') :
    e.granted.putSymmetricRow row rowStart = .ok e'.granted := by
  simp only [putSymmetricRow, bind_eq_ok] at taken ⊢
  obtain ⟨e₁, outer, e₂, between, e₃, inner, e₄, flushed, done⟩ := taken
  cases done
  exact ⟨_, granted_of_elements outer, _, granted_of_flush between, _, granted_of_elements inner, _,
    granted_of_flush flushed, rfl⟩

end SparseStream.Encoder
