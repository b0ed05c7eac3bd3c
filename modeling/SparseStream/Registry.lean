import SparseStream.Error
import SparseStream.Kind

/-!
Giving out flags. The first kind seen gets flag 1, each new kind the next one, and a kind seen
before keeps its flag. There are 63 flags.
-/
namespace SparseStream

/-- The kinds met so far, in the order of their flags. -/
structure Registry where
  entries : List KindEntry := []
  deriving DecidableEq, Repr

namespace Registry

/-- Counts a unit of `n` elements towards the entry of a kind, if the kind is known. -/
def count? (kind : Kind) (n : Nat) : List KindEntry → Option (Nat × List KindEntry)
  | [] => none
  | e :: rest =>
    if e.kind = kind then
      some (e.flag, { e with units := e.units + 1, elements := e.elements + n } :: rest)
    else (count? kind n rest).map fun (flag, rest) => (flag, e :: rest)

/-- The flag of a kind, given out on first sight, with a unit of `n` elements counted for it. -/
def assign (r : Registry) (kind : Kind) (n : Nat) : Except Error (Nat × Registry) :=
  match count? kind n r.entries with
  | some (flag, entries) => .ok (flag, ⟨entries⟩)
  | none =>
    if Header.maxFlag ≤ r.entries.length then .error .tooManyKinds
    else
      let flag := r.entries.length + 1
      .ok (flag, ⟨r.entries ++ [⟨kind, flag, 1, n⟩]⟩)

/-- The flag asked for, and the registry that is left. A call that is refused changes nothing. -/
def call (r : Registry) (kind : Kind) (n : Nat) : Except Error Nat × Registry :=
  match r.assign kind n with
  | .ok (flag, r') => (.ok flag, r')
  | .error error => (.error error, r)

def table (r : Registry) : KindTable := ⟨r.entries⟩

/-- The table of entries that come in any order, as out of a hash table: they are put in the order
of their flags. -/
def tableOf (entries : List KindEntry) : KindTable :=
  ⟨entries.mergeSort fun a b => a.flag ≤ b.flag⟩

theorem kinds_of_count? {kind n es flag es'} (h : count? kind n es = some (flag, es')) :
    es'.map KindEntry.kind = es.map KindEntry.kind
      ∧ es'.map KindEntry.flag = es.map KindEntry.flag := by
  induction es generalizing es' with
  | nil => simp [count?] at h
  | cons e rest ih =>
    simp only [count?] at h
    split at h
    · cases h
      simp
    · simp only [Option.map_eq_some_iff, Prod.exists, Prod.mk.injEq] at h
      obtain ⟨f, rest', found, rfl, rfl⟩ := h
      simp [ih found]

theorem count?_eq_none_iff {kind n es} :
    count? kind n es = none ↔ ∀ e ∈ es, e.kind ≠ kind := by
  induction es with
  | nil => simp [count?]
  | cons e rest ih =>
    simp only [count?]
    split <;> simp_all

end Registry
end SparseStream
