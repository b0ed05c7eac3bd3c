import SparseStream.Proofs.Forms
import SparseStream.Proofs.Printed

/-! Handing a table over as a document. Whoever reads the document, in one line or laid out over
many, has the same table and so the same units of any bytes; all it takes is that each number of the
table fits its field. -/
namespace SparseStream

/-- A table survives being handed over. Its document, in one line or laid out over many, is read as
an equal table, and with it any bytes have the same units. -/
theorem table_handed_over {lib : Json.Library} {forms : TableForms} (prints : lib.Prints)
    (parses : lib.Parses) (tagged : forms.ExternallyTagged) {t : KindTable} (narrow : t.Narrow) :
    ∀ text ∈ [t.document lib forms, t.sheet lib forms], ∃ reloaded,
      KindTable.parse? lib forms text = some reloaded ∧ reloaded = t ∧
      ∀ mode bytes, units reloaded mode bytes = units t mode bytes := by
  intro text member
  obtain ⟨known, read⟩ : forms.table.Carries Json.nestingLimit t :=
    tagged.table_carries (n := 120) narrow
  have parsed : lib.parse? text = some (forms.table.write t) := by
    simp only [List.mem_cons, List.not_mem_nil, or_false] at member
    rcases member with rfl | rfl
    · rw [KindTable.document, prints.compact _ known]
      exact parses.parse?_print Json.Layout.blank_compact known
    · rw [KindTable.sheet, prints.pretty _ known]
      exact parses.parse?_print Json.Layout.blank_indented known
  refine ⟨t, ?_, rfl, fun _ _ => rfl⟩
  rw [KindTable.parse?, parsed, Option.bind_some, read]

/-- The largest number in each field, a block with a dimension of zero, and entries out of order. -/
theorem table_handed_over_largest_numbers :
    let t : KindTable := ⟨[
      ⟨.pattern (.block (.blockRow 255) (strideLimit - 1)), 255, wordLimit - 1, 0⟩,
      ⟨.pattern (.simple (.blockCol 0) 0), 0, 1, wordLimit - 1⟩, ⟨.run .u64, 7, 0, 0⟩]⟩
    t.Narrow ∧ KindTable.parse? .plain .plain (t.document .plain .plain) = some t ∧
      KindTable.parse? .plain .plain (t.sheet .plain .plain) = some t := by
  intro t
  have narrow : t.Narrow := by
    simp only [KindTable.Narrow, t, List.forall_mem_cons]
    refine ⟨⟨⟨?_, by decide⟩, by decide, by decide, by decide⟩,
      ⟨⟨?_, by decide⟩, by decide, by decide, by decide⟩,
      ⟨trivial, by decide, by decide, by decide⟩, nofun⟩
    · simp [Order.Narrow, Order.blockDim?, byteLimit]
    · simp [Order.Narrow, Order.blockDim?, byteLimit]
  clear_value t
  have both := table_handed_over Json.Library.prints_plain Json.Library.parses_plain
    TableForms.plain_externallyTagged narrow
  obtain ⟨one, readOne, rfl, -⟩ := both _ List.mem_cons_self
  obtain ⟨many, readMany, rfl, -⟩ := both _ (List.mem_cons_of_mem _ List.mem_cons_self)
  exact ⟨narrow, readOne, readMany⟩

end SparseStream
