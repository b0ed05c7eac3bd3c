import SparseStream.Json
import SparseStream.Kind

/-!
A table of kinds as a JSON document, for whoever decodes the stream elsewhere. Every document that
writing produces reads back as the same table, as long as its numbers are in range: flags and block
dimensions take one byte, strides four, counts eight.

What writes and reads each part of a table is left open, as `TableForms`; `TableForms.plain` is what
programs run with.
-/
namespace SparseStream

namespace Json

/-- A natural number below a limit. -/
def natBelow? (limit : Nat) : Json → Option Nat
  | number (some n) => if n < limit then some n else none
  | _ => none

/-- The value of a field that occurs once. -/
def field? (fs : List (Option (List Char) × Json)) (name : String) : Option Json :=
  match fs.filter fun f => f.1 == some name.toList with
  | [f] => some f.2
  | _ => none

/-- The values of named fields, in the order of the names. Other fields are ignored; a list with
one item for each name will do as well. -/
def record? (names : List String) : Json → Option (List Json)
  | object fs => if fs.all (·.1.isSome) then names.mapM (field? fs) else none
  | array vs => if vs.length = names.length then some vs else none
  | _ => none

/-- The items of an array. -/
def items? : Json → Option (List Json)
  | array vs => some vs
  | _ => none

/-- A case of a choice: a bare name, or a name with what belongs to it. -/
def choice? : Json → Option (List Char × Option Json)
  | text (some name) => some (name, none)
  | object [(some name, v)] => some (name, some v)
  | _ => none

/-- A name among some, with nothing to it. -/
def name? (names : List (String × α)) (j : Json) : Option α := do
  let (name, payload) ← choice? j
  match payload with
  | none | some null => (names.find? fun (s, _) => s.toList == name).map Prod.snd
  | _ => none

end Json

namespace Width

def names : List (String × Width) := [("U8", u8), ("U16", u16), ("U32", u32), ("U64", u64)]

def name : Width → String
  | u8 => "U8"
  | u16 => "U16"
  | u32 => "U32"
  | u64 => "U64"

def toJson (w : Width) : Json := .ofString w.name

def ofJson? (j : Json) : Option Width := j.name? names

end Width

namespace Order

def names : List (String × Order) :=
  [("Horizontal", horizontal), ("Vertical", vertical), ("Diagonal", diagonal),
    ("AntiDiagonal", antiDiagonal)]

def toJson : Order → Json
  | horizontal => .ofString "Horizontal"
  | vertical => .ofString "Vertical"
  | diagonal => .ofString "Diagonal"
  | antiDiagonal => .ofString "AntiDiagonal"
  | blockRow r => .fields [("BlockRow", .ofNat r)]
  | blockCol c => .fields [("BlockCol", .ofNat c)]

def ofJson? (j : Json) : Option Order :=
  match j.choice? with
  | some (name, some v) =>
    if name = "BlockRow".toList then (v.natBelow? (byteLimit 1)).map blockRow
    else if name = "BlockCol".toList then (v.natBelow? (byteLimit 1)).map blockCol
    else j.name? names
  | _ => j.name? names

end Order

namespace Shape

/-- What belongs to a line or a block: its order, and a number under a name of its own. -/
def partsToJson (name : String) (parts : Order × Nat) : Json :=
  .fields [("order", parts.1.toJson), (name, .ofNat parts.2)]

def partsOfJson? (name : String) (j : Json) : Option (Order × Nat) := do
  let [o, n] ← j.record? ["order", name] | none
  return (← Order.ofJson? o, ← n.natBelow? strideLimit)

def toJson : Shape → Json
  | simple o s => .fields [("Simple", partsToJson "stride" (o, s))]
  | block o d => .fields [("Block", partsToJson "other_dim" (o, d))]

def ofJson? (j : Json) : Option Shape := do
  let (name, some v) ← j.choice? | none
  if name = "Simple".toList then (partsOfJson? "stride" v).map fun (o, s) => simple o s
  else if name = "Block".toList then (partsOfJson? "other_dim" v).map fun (o, d) => block o d
  else none

end Shape

namespace Kind

def toJson : Kind → Json
  | run w => .fields [("Delta", w.toJson)]
  | pattern s => .fields [("Pattern", s.toJson)]

def ofJson? (j : Json) : Option Kind := do
  let (name, some v) ← j.choice? | none
  if name = "Delta".toList then (Width.ofJson? v).map run
  else if name = "Pattern".toList then (Shape.ofJson? v).map pattern
  else none

end Kind

namespace KindEntry

/-- Flag, units and elements. -/
def statsToJson (stats : Nat × Nat × Nat) : Json :=
  .fields [("flag", .ofNat stats.1), ("npatterns", .ofNat stats.2.1), ("nnz", .ofNat stats.2.2)]

def statsOfJson? (j : Json) : Option (Nat × Nat × Nat) := do
  let [flag, units, elements] ← j.record? ["flag", "npatterns", "nnz"] | none
  return (← flag.natBelow? (byteLimit 1), ← units.natBelow? wordLimit,
    ← elements.natBelow? wordLimit)

def toJson (e : KindEntry) : Json :=
  .fields [("kind", e.kind.toJson), ("stats", statsToJson (e.flag, e.units, e.elements))]

def ofJson? (j : Json) : Option KindEntry := do
  let [kind, stats] ← j.record? ["kind", "stats"] | none
  let kind ← Kind.ofJson? kind
  let (flag, units, elements) ← statsOfJson? stats
  return ⟨kind, flag, units, elements⟩

def listToJson (es : List KindEntry) : Json := .array (es.map toJson)

def listOfJson? (j : Json) : Option (List KindEntry) := do (← j.items?).mapM ofJson?

end KindEntry

namespace KindTable

def toJson (t : KindTable) : Json := .fields [("entries", KindEntry.listToJson t.entries)]

def ofJson? (j : Json) : Option KindTable := do
  let [entries] ← j.record? ["entries"] | none
  return ⟨← KindEntry.listOfJson? entries⟩

end KindTable

/-- How values of a type are written as documents and read back. -/
structure Form (α : Type) where
  write : α → Json
  read : Json → Option α

/-- The forms of a table and of all its parts. -/
structure TableForms where
  byte : Form Nat
  /-- Strides and other dimensions. -/
  stride : Form Nat
  count : Form Nat
  width : Form Width
  order : Form Order
  /-- What belongs to a line. -/
  line : Form (Order × Nat)
  /-- What belongs to a block. -/
  block : Form (Order × Nat)
  shape : Form Shape
  kind : Form Kind
  /-- Flag, units and elements. -/
  stats : Form (Nat × Nat × Nat)
  entry : Form KindEntry
  entries : Form (List KindEntry)
  table : Form KindTable

def TableForms.plain : TableForms where
  byte := ⟨.ofNat, Json.natBelow? (byteLimit 1)⟩
  stride := ⟨.ofNat, Json.natBelow? strideLimit⟩
  count := ⟨.ofNat, Json.natBelow? wordLimit⟩
  width := ⟨Width.toJson, Width.ofJson?⟩
  order := ⟨Order.toJson, Order.ofJson?⟩
  line := ⟨Shape.partsToJson "stride", Shape.partsOfJson? "stride"⟩
  block := ⟨Shape.partsToJson "other_dim", Shape.partsOfJson? "other_dim"⟩
  shape := ⟨Shape.toJson, Shape.ofJson?⟩
  kind := ⟨Kind.toJson, Kind.ofJson?⟩
  stats := ⟨KindEntry.statsToJson, KindEntry.statsOfJson?⟩
  entry := ⟨KindEntry.toJson, KindEntry.ofJson?⟩
  entries := ⟨KindEntry.listToJson, KindEntry.listOfJson?⟩
  table := ⟨KindTable.toJson, KindTable.ofJson?⟩

section

variable (lib : Json.Library) (forms : TableForms)

/-- The table as a document in one line. -/
def KindTable.document (t : KindTable) : String := lib.compact (forms.table.write t)

/-- The table as a document laid out over lines. -/
def KindTable.sheet (t : KindTable) : String := lib.pretty (forms.table.write t)

/-- Reads a table from the text of a document. -/
def KindTable.parse? (s : String) : Option KindTable := (lib.parse? s).bind forms.table.read

/-- Several tables as one document, laid out over lines. -/
def tablesDocument (ts : List KindTable) : String := lib.pretty (.array (ts.map forms.table.write))

end

end SparseStream
