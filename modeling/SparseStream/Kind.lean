import SparseStream.Halving
import SparseStream.Shape
import SparseStream.Sums
import SparseStream.Width

/-!
Kinds of units, and the table that gives each kind its flag. A plain run is known by the width of
its packed differences, so runs share the flags with patterns.
-/
namespace SparseStream

inductive Kind where
  | run (width : Width)
  | pattern (shape : Shape)
  deriving DecidableEq, Repr

namespace Kind

def text : Kind → String
  | run w => "delta " ++ w.text
  | pattern s => s.text

def isPattern : Kind → Bool
  | run _ => false
  | pattern _ => true

end Kind

/-- A kind with its flag, the number of units of that kind, and the elements they cover. -/
structure KindEntry where
  kind : Kind
  flag : Nat
  units : Nat
  elements : Nat
  deriving DecidableEq, Repr

/-- The entries of a table are in the order of their flags when an encoder made it; a table from
elsewhere may hold anything. -/
structure KindTable where
  entries : List KindEntry
  deriving DecidableEq, Repr

namespace KindTable

def empty : KindTable := ⟨[]⟩

/-- The kind under a flag, found by halving. In a table out of order it may miss an entry. -/
def kind? (t : KindTable) (flag : Nat) : Option Kind :=
  let flags := (t.entries.map KindEntry.flag).toArray
  let i := halve (fun i => flag < flags.getD i 0) 0 flags.size
  t.entries[i]?.bind fun e => if e.flag = flag then some e.kind else none

/-- What a lookup finds is in the table. -/
theorem mem_of_kind? {t : KindTable} {flag : Nat} {k : Kind} (h : t.kind? flag = some k) :
    ∃ e ∈ t.entries, e.flag = flag ∧ e.kind = k := by
  simp only [kind?, Option.bind_eq_some_iff] at h
  obtain ⟨e, found, h⟩ := h
  split at h <;> simp_all
  exact ⟨e, List.mem_of_getElem? found, ‹_›, ‹_›⟩

/-- Elements covered by all units. -/
def elements (t : KindTable) : Nat := total (t.entries.map KindEntry.elements)

/-- Elements covered by patterns rather than runs. -/
def patternElements (t : KindTable) : Nat :=
  total ((t.entries.filter (·.kind.isPattern)).map KindEntry.elements)

end KindTable
end SparseStream
