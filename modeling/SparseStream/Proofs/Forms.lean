import Mathlib.Data.List.Nodup
import SparseStream.Proofs.ForeignTable
import SparseStream.Proofs.Spelling

/-! Forms that tag their cases from outside. A bare case is written as its name, a case with
something to it as an object with one field, a record as an object with its fields. This is what is
assumed of the forms of a table, and it is enough for each value whose numbers are in range to be
read back. The plain forms tag their cases so. -/
namespace SparseStream

namespace Form

/-- A number below a limit is written in digits; reading refuses the numbers from the limit on. -/
structure Number (f : Form Nat) (limit : Nat) : Prop where
  write : ∀ n < limit, f.write n = .ofNat n
  read : ∀ n, f.read (.ofNat n) = if n < limit then some n else none

/-- A case with nothing to it is its name. -/
structure Bare (f : Form α) (name : String) (a : α) : Prop where
  write : f.write a = .ofString name
  read : f.read (.ofString name) = some a

/-- A case with something to it is an object whose one field has the name of the case. -/
structure Tagged (f : Form α) (name : String) (inner : Form β) (make : β → α) : Prop where
  write : ∀ b, f.write (make b) = .fields [(name, inner.write b)]
  read : ∀ v, f.read (.fields [(name, v)]) = (inner.read v).map make

/-- A record is an object with a field for each part. Its fields are read by name: one that is
missing or given twice is not found, and other fields do not matter. -/
structure Record (f : Form α) (parts : α → List (String × Json))
    (make : (String → Option Json) → Option α) : Prop where
  write : ∀ a, f.write a = .fields (parts a)
  read : ∀ fs, fs.all (·.1.isSome) → f.read (.object fs) = make (Json.field? fs)

/-- A list is an array of its items. -/
structure Items (f : Form (List α)) (item : Form α) : Prop where
  write : ∀ as, f.write as = .array (as.map item.write)
  read : ∀ vs, f.read (.array vs) = vs.mapM item.read

/-- An order, and a number under a name of its own. -/
def Parts (f : Form (Order × Nat)) (order : Form Order) (name : String) (number : Form Nat) :
    Prop :=
  f.Record (fun p => [("order", order.write p.1), (name, number.write p.2)]) fun get => do
    let o ← get "order"
    let n ← get name
    return (← order.read o, ← number.read n)

end Form

/-- The cases and records of a table, and the numbers that fit their fields. -/
structure TableForms.ExternallyTagged (f : TableForms) : Prop where
  byte : f.byte.Number (byteLimit 1)
  stride : f.stride.Number strideLimit
  count : f.count.Number wordLimit
  width : ∀ w : Width, f.width.Bare w.name w
  horizontal : f.order.Bare "Horizontal" .horizontal
  vertical : f.order.Bare "Vertical" .vertical
  diagonal : f.order.Bare "Diagonal" .diagonal
  antiDiagonal : f.order.Bare "AntiDiagonal" .antiDiagonal
  blockRow : f.order.Tagged "BlockRow" f.byte .blockRow
  blockCol : f.order.Tagged "BlockCol" f.byte .blockCol
  lineParts : f.line.Parts f.order "stride" f.stride
  simple : f.shape.Tagged "Simple" f.line fun (o, s) => .simple o s
  blockParts : f.block.Parts f.order "other_dim" f.stride
  block : f.shape.Tagged "Block" f.block fun (o, d) => .block o d
  run : f.kind.Tagged "Delta" f.width .run
  pattern : f.kind.Tagged "Pattern" f.shape .pattern
  stats : f.stats.Record
    (fun s => [("flag", f.byte.write s.1), ("npatterns", f.count.write s.2.1),
      ("nnz", f.count.write s.2.2)])
    fun get => do
      let flag ← get "flag"
      let units ← get "npatterns"
      let elements ← get "nnz"
      return (← f.byte.read flag, ← f.count.read units, ← f.count.read elements)
  entry : f.entry.Record
    (fun e => [("kind", f.kind.write e.kind),
      ("stats", f.stats.write (e.flag, e.units, e.elements))])
    fun get => do
      let kind ← get "kind"
      let stats ← get "stats"
      let kind ← f.kind.read kind
      let (flag, units, elements) ← f.stats.read stats
      return ⟨kind, flag, units, elements⟩
  entries : f.entries.Items f.entry
  table : f.table.Record (fun t => [("entries", f.entries.write t.entries)]) fun get => do
    return ⟨← f.entries.read (← get "entries")⟩

namespace Json

theorem known_fields {n : Nat} {fs : List (String × Json)} (each : ∀ f ∈ fs, Known n f.2) :
    Known (n + 1) (fields fs) :=
  .object (List.forall_mem_map.mpr fun _ _ => rfl) (List.forall_mem_map.mpr each)

/-- Only one entry has the name. -/
theorem filter_name {entries : List (String × β)} {k : String} {v : β}
    (distinct : (entries.map Prod.fst).Nodup) (member : (k, v) ∈ entries) :
    entries.filter (fun f => f.1.toList == k.toList) = [(k, v)] := by
  simp only [Bool.beq_eq_decide_eq, String.toList_inj]
  induction entries with
  | nil => contradiction
  | cons f entries ih =>
    rw [List.map_cons, List.nodup_cons] at distinct
    rcases List.mem_cons.mp member with rfl | later
    · have others : entries.filter (fun f => f.1 = k) = [] := by
        rw [List.filter_eq_nil_iff]
        intro f inside
        simp only [decide_eq_true_eq]
        intro same
        exact distinct.1 (List.mem_map.mpr ⟨f, inside, same⟩)
      rw [List.filter_cons_of_pos (by simp), others]
    · have other : f.1 ≠ k := by
        intro same
        exact distinct.1 (List.mem_map.mpr ⟨(k, v), later, same.symm⟩)
      rw [List.filter_cons_of_neg (by simpa using other)]
      exact ih distinct.2 later

/-- A name stands for what is listed under it. -/
theorem name?_ofString {names : List (String × α)} {s : String} {a : α}
    (distinct : (names.map Prod.fst).Nodup) (member : (s, a) ∈ names) :
    (ofString s).name? names = some a := by
  have found : names.find? (fun f => f.1.toList == s.toList) = some (s, a) := by
    rw [← List.head?_filter, filter_name distinct member, List.head?_cons]
  simp [name?, choice?, ofString, found]

/-- A field is found under its name. -/
theorem field?_fields {fs : List (String × Json)} {k : String} {v : Json}
    (distinct : (fs.map Prod.fst).Nodup) (member : (k, v) ∈ fs) :
    field? (fs.map fun (k, v) => (some k.toList, v)) k = some v := by
  have same : (fun f : Option (List Char) × Json => f.1 == some k.toList) ∘
      (fun f : String × Json => (some f.1.toList, f.2)) = fun f => f.1.toList == k.toList := rfl
  rw [field?, List.filter_map, same, filter_name distinct member]
  rfl

end Json

namespace Form

/-- A value is written as a document that is nested at most so deep, and read back from it. -/
structure Carries (f : Form α) (levels : Nat) (a : α) : Prop where
  known : Json.Known levels (f.write a)
  read : f.read (f.write a) = some a

variable {n : Nat}

theorem Number.carries {f : Form Nat} {limit k : Nat} (number : f.Number limit)
    (words : limit ≤ wordLimit) (small : k < limit) : f.Carries n k := by
  have written := number.write k small
  refine ⟨written ▸ .number (Nat.lt_of_lt_of_le small words), ?_⟩
  rw [written, number.read, if_pos small]

theorem Bare.carries {f : Form α} {name : String} {a : α} (bare : f.Bare name a) :
    f.Carries n a :=
  ⟨bare.write ▸ .text name.toList, bare.write ▸ bare.read⟩

theorem Tagged.carries {f : Form α} {name : String} {inner : Form β} {make : β → α} {b : β}
    (tagged : f.Tagged name inner make) (within : inner.Carries n b) :
    f.Carries (n + 1) (make b) := by
  have written := tagged.write b
  refine ⟨written ▸ Json.known_fields (List.forall_mem_singleton.mpr within.known), ?_⟩
  rw [written, tagged.read, within.read]
  rfl

/-- A record is read from its own fields, each found under its name. -/
theorem Record.carries {f : Form α} {parts : α → List (String × Json)}
    {make : (String → Option Json) → Option α} {a : α} (record : f.Record parts make)
    (distinct : ((parts a).map Prod.fst).Nodup) (each : ∀ p ∈ parts a, Json.Known n p.2)
    (made : ∀ get, (∀ p ∈ parts a, get p.1 = some p.2) → make get = some a) :
    f.Carries (n + 1) a := by
  have written := record.write a
  refine ⟨written ▸ Json.known_fields each, ?_⟩
  rw [written, Json.fields, record.read _ (by simp)]
  exact made _ fun p member => Json.field?_fields distinct member

theorem Items.carries {f : Form (List α)} {item : Form α} {as : List α} (items : f.Items item)
    (each : ∀ a ∈ as, item.Carries n a) : f.Carries (n + 1) as := by
  have written := items.write as
  refine ⟨written ▸ .array (List.forall_mem_map.mpr fun a member => (each a member).known), ?_⟩
  rw [written, items.read, mapM_eq_some_iff, List.map_map]
  exact List.map_congr_left fun a member => (each a member).read

theorem Parts.carries {f : Form (Order × Nat)} {order : Form Order} {name : String}
    {number : Form Nat} {o : Order} {k : Nat} (parts : f.Parts order name number)
    (other : "order" ≠ name) (first : order.Carries n o) (second : number.Carries n k) :
    f.Carries (n + 1) (o, k) := by
  refine Record.carries parts (by simpa using other) ?_ fun get found => ?_
  · simp only [List.forall_mem_cons]
    exact ⟨first.known, second.known, nofun⟩
  · simp only [List.forall_mem_cons] at found
    simp [found.1, found.2.1, first.read, second.read]

end Form

namespace TableForms.ExternallyTagged

variable {f : TableForms} (tagged : f.ExternallyTagged) {n : Nat}

include tagged

theorem order_carries {o : Order} (narrow : o.Narrow) : f.order.Carries (n + 1) o := by
  cases o with
  | horizontal => exact tagged.horizontal.carries
  | vertical => exact tagged.vertical.carries
  | diagonal => exact tagged.diagonal.carries
  | antiDiagonal => exact tagged.antiDiagonal.carries
  | blockRow r => exact tagged.blockRow.carries (tagged.byte.carries (by decide) (narrow r rfl))
  | blockCol c => exact tagged.blockCol.carries (tagged.byte.carries (by decide) (narrow c rfl))

theorem shape_carries {s : Shape} (narrow : s.Narrow) : f.shape.Carries (n + 3) s := by
  cases s with
  | simple o k =>
    have order := tagged.order_carries (n := n) narrow.1
    exact tagged.simple.carries
      (tagged.lineParts.carries (by decide) order (tagged.stride.carries (by decide) narrow.2))
  | block o k =>
    have order := tagged.order_carries (n := n) narrow.1
    exact tagged.block.carries
      (tagged.blockParts.carries (by decide) order (tagged.stride.carries (by decide) narrow.2))

theorem kind_carries {k : Kind} (narrow : k.Narrow) : f.kind.Carries (n + 4) k := by
  cases k with
  | run w => exact tagged.run.carries (tagged.width w).carries
  | pattern s => exact tagged.pattern.carries (tagged.shape_carries narrow)

theorem stats_carries {flag units elements : Nat} (byte : flag < byteLimit 1)
    (word : units < wordLimit) (word' : elements < wordLimit) :
    f.stats.Carries (n + 1) (flag, units, elements) := by
  have first := tagged.byte.carries (n := n) (by decide) byte
  have second := tagged.count.carries (n := n) (Nat.le_refl _) word
  have third := tagged.count.carries (n := n) (Nat.le_refl _) word'
  refine tagged.stats.carries (by simp) ?_ fun get found => ?_
  · simp only [List.forall_mem_cons]
    exact ⟨first.known, second.known, third.known, nofun⟩
  · simp only [List.forall_mem_cons] at found
    simp [found.1, found.2.1, found.2.2.1, first.read, second.read, third.read]

theorem entry_carries {e : KindEntry} (narrow : e.Narrow) : f.entry.Carries (n + 5) e := by
  have kind := tagged.kind_carries (n := n) narrow.kind
  have stats := tagged.stats_carries (n := n + 3) narrow.flag narrow.units narrow.elements
  refine tagged.entry.carries (by simp) ?_ fun get found => ?_
  · simp only [List.forall_mem_cons]
    exact ⟨kind.known, stats.known, nofun⟩
  · simp only [List.forall_mem_cons] at found
    simp [found.1, found.2.1, kind.read, stats.read]

/-- A table whose numbers fit their fields is carried over, whatever is in it. -/
theorem table_carries {t : KindTable} (narrow : t.Narrow) : f.table.Carries (n + 7) t := by
  have entries := tagged.entries.carries fun e member =>
    tagged.entry_carries (n := n) (narrow e member)
  refine tagged.table.carries (by simp) ?_ fun get found => ?_
  · exact List.forall_mem_singleton.mpr entries.known
  · rw [List.forall_mem_singleton] at found
    simp [found, entries.read]

end TableForms.ExternallyTagged

/-! ### The plain forms -/

theorem Json.record?_object {fs : List (Option (List Char) × Json)} (known : fs.all (·.1.isSome))
    (names : List String) : (object fs).record? names = names.mapM (field? fs) :=
  if_pos known

theorem Shape.parts_plain (name : String) :
    (⟨partsToJson name, partsOfJson? name⟩ : Form (Order × Nat)).Parts TableForms.plain.order name
      TableForms.plain.stride := by
  refine ⟨fun _ => rfl, fun fs known => ?_⟩
  simp only [partsOfJson?, Json.record?_object known, List.mapM_cons,
    List.mapM_nil]
  cases Json.field? fs "order" <;> cases Json.field? fs name <;> rfl

theorem TableForms.plain_externallyTagged : plain.ExternallyTagged where
  byte := ⟨fun _ _ => rfl, fun _ => rfl⟩
  stride := ⟨fun _ _ => rfl, fun _ => rfl⟩
  count := ⟨fun _ _ => rfl, fun _ => rfl⟩
  width w := ⟨rfl, Json.name?_ofString (by decide) (by cases w <;> simp [Width.names, Width.name])⟩
  horizontal := ⟨rfl, rfl⟩
  vertical := ⟨rfl, rfl⟩
  diagonal := ⟨rfl, rfl⟩
  antiDiagonal := ⟨rfl, rfl⟩
  blockRow := ⟨fun _ => rfl, fun _ => rfl⟩
  blockCol := ⟨fun _ => rfl, fun _ => rfl⟩
  lineParts := Shape.parts_plain "stride"
  simple := ⟨fun _ => rfl, fun _ => rfl⟩
  blockParts := Shape.parts_plain "other_dim"
  block := ⟨fun _ => rfl, fun _ => rfl⟩
  run := ⟨fun _ => rfl, fun _ => rfl⟩
  pattern := ⟨fun _ => rfl, fun _ => rfl⟩
  stats := by
    refine ⟨fun _ => rfl, fun fs known => ?_⟩
    simp only [plain, KindEntry.statsOfJson?, Json.record?_object known, List.mapM_cons,
      List.mapM_nil]
    cases Json.field? fs "flag" <;> cases Json.field? fs "npatterns" <;>
      cases Json.field? fs "nnz" <;> rfl
  entry := by
    refine ⟨fun _ => rfl, fun fs known => ?_⟩
    simp only [plain, KindEntry.ofJson?, Json.record?_object known, List.mapM_cons,
      List.mapM_nil]
    cases Json.field? fs "kind" <;> cases Json.field? fs "stats" <;> rfl
  entries := ⟨fun _ => rfl, fun _ => rfl⟩
  table := by
    refine ⟨fun _ => rfl, fun fs known => ?_⟩
    simp only [plain, KindTable.ofJson?, Json.record?_object known, List.mapM_cons,
      List.mapM_nil]
    cases Json.field? fs "entries" <;> rfl

/-- A table is read back from the document of it exactly when its numbers fit. -/
theorem KindTable.ofJson?_toJson_iff {t : KindTable} : ofJson? t.toJson = some t ↔ t.Narrow :=
  ⟨narrow_of_ofJson?, fun narrow =>
    (TableForms.plain_externallyTagged.table_carries (n := 0) narrow).read⟩

end SparseStream
