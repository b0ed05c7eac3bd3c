import SparseStream.Decimal.Text
import SparseStream.Kind

/-! What is reported while matrices are encoded: the events, their levels and their wording. -/
namespace SparseStream

inductive Level where
  | warn | info | debug | trace
  deriving DecidableEq, Repr

def Level.text : Level → String
  | warn => "WARN"
  | info => "INFO"
  | debug => "DEBUG"
  | trace => "TRACE"

/-- A count as a part of another, which counts as one at least. -/
def ratio (part whole : Nat) : Float := part.toUInt64.toFloat / (max whole 1).toUInt64.toFloat

/-- A count in percent of another, which counts as one at least. -/
def percent (part whole : Nat) : Float :=
  100.0 * part.toUInt64.toFloat / (max whole 1).toUInt64.toFloat

/-- Fills a text up with blanks on its left. -/
def padLeft (width : Nat) (text : String) : String :=
  String.ofList (List.replicate (width - text.length) ' ') ++ text

/-- Fills a text up with blanks on its right. -/
def padRight (width : Nat) (text : String) : String :=
  text ++ String.ofList (List.replicate (width - text.length) ' ')

/-- One line of a table's text; the share is taken of all elements in the table. -/
def KindEntry.line (whole : Nat) (e : KindEntry) : String :=
  "  flag " ++ padLeft 2 (toString e.flag) ++ ": " ++ padRight 24 e.kind.text
    ++ " units: " ++ padLeft 8 (toString e.units) ++ " nnz: " ++ padLeft 10 (toString e.elements)
    ++ " (" ++ padLeft 5 (Decimal.fixedText 1 (percent e.elements whole)) ++ "%)\n"

/-- A line for each entry. -/
def KindTable.text (t : KindTable) : String :=
  String.join (t.entries.map (KindEntry.line t.elements))

inductive Event where
  | emptyRow (row : Nat)
  | row (row elements : Nat) (symmetric : Bool)
  | unit (kind : Kind) (flag size col jump : Nat)
  | outgrown (rowStart reserved used : Nat)
  | encoded (rowStart rowEnd count ctl kinds bytes csrBytes : Nat)
  | table (table : KindTable)
  | range (index first last count : Nat)
  | summary (parts ctl bytes csrBytes : Nat)
  deriving DecidableEq, Repr

namespace Event

def level : Event → Level
  | outgrown .. => .warn
  | encoded .. | summary .. => .info
  | unit .. => .trace
  | _ => .debug

def text : Event → String
  | emptyRow r => "row " ++ toString r ++ ": empty"
  | row r elements symmetric =>
    "row " ++ toString r ++ ": " ++ toString elements ++ " elements"
      ++ if symmetric then " (symmetric)" else ""
  | unit kind flag size col jump =>
    let place := "flag=" ++ toString flag ++ " size=" ++ toString size ++ " col=" ++ toString col
      ++ " jump=" ++ toString jump ++ " "
    match kind with
    | .run width => "run: " ++ place ++ "width=" ++ width.text
    | .pattern shape => "pattern: " ++ place ++ shape.text
  | outgrown rowStart reserved used =>
    "rows " ++ toString rowStart ++ "..: ctl buffer outgrew its estimate of " ++ toString reserved
      ++ " bytes (" ++ toString used ++ " used)"
  | encoded rowStart rowEnd count ctl kinds bytes csrBytes =>
    "encoded rows " ++ toString rowStart ++ ".." ++ toString rowEnd ++ ": nnz=" ++ toString count
      ++ " ctl=" ++ toString ctl ++ " bytes, " ++ toString kinds ++ " unit kinds, "
      ++ Decimal.fixedText 1 (100.0 * ratio bytes csrBytes) ++ "% of csr size"
  | table t => "flag table:\n" ++ t.text
  | range index first last count =>
    "partition " ++ toString index ++ ": rows " ++ toString first ++ ".." ++ toString last
      ++ " with " ++ toString count ++ " nonzeros"
  | summary parts ctl bytes csrBytes =>
    toString parts ++ " partitions: ctl=" ++ toString ctl ++ " bytes, total=" ++ toString bytes
      ++ " bytes, csr=" ++ toString csrBytes ++ " bytes ("
      ++ Decimal.fixedText 1 (percent bytes csrBytes) ++ "%)"

def line (e : Event) : String := e.level.text ++ " " ++ e.text

end Event
end SparseStream
