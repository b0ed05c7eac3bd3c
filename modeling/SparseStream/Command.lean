import SparseStream.Document
import SparseStream.Environment
import SparseStream.Market
import SparseStream.Parts

/-!
The command: it encodes a matrix, multiplies it both from the stream and from its rows, and reports
sizes, the largest difference and the tables. Without a file it takes a band matrix. What it does is
settled here; the caller only reads the file and prints.
-/
namespace SparseStream.Command

def version : String := "0.1.0"

def usage : String :=
  "usage: csx [--full-index] [--symmetric] [--table] [--threads N] [MATRIX.mtx]"

structure Request where
  settings : Settings
  /-- Print the tables as a document. -/
  document : Bool := false
  path : Option String := none

structure Outcome where
  code : Nat
  stdout : String := ""
  stderr : String := ""

/-- Reads the arguments; the text says why they make no request. -/
def parseArguments (r : Request) : List String → Except String Request
  | [] => .ok r
  | "--full-index" :: rest => parseArguments { r with settings.mode := .full } rest
  | "--symmetric" :: rest => parseArguments { r with settings.symmetric := true } rest
  | "--table" :: rest => parseArguments { r with document := true } rest
  | "--threads" :: rest =>
    match rest with
    | value :: rest =>
      match Text.word? value.toList with
      | some n => parseArguments { r with settings := r.settings.withThreads n } rest
      | none => .error "--threads needs a positive number"
    | [] => .error "--threads needs a positive number"
  | arg :: rest =>
    if arg = "-h" ∨ arg = "--help" then .error usage
    else if arg.toList.head? = some '-' then .error ("unknown option " ++ arg ++ "\n" ++ usage)
    else parseArguments { r with path := some arg } rest

def failed (stdout : String) : Failure → Outcome
  | .error e => ⟨1, stdout, "error: " ++ e.message ++ "\n"⟩
  | .outOfBounds => ⟨101, stdout, ""⟩

/-- What is asked for, or the outcome when nothing is. -/
def request (env : Environment) (defaults : Settings) (args : List String) :
    Except Outcome Request :=
  match env.settings defaults with
  | .error e => .error (failed "" (.error e))
  | .ok settings =>
    match parseArguments { settings := settings } args with
    | .error text => .error ⟨2, "", text ++ "\n"⟩
    | .ok r => .ok r

/-- A symmetric matrix with `width` entries on either side of the diagonal. -/
def band (n width : Nat) : Except Failure (Csr Float) :=
  Csr.ofTriplets n n <| (List.range n).flatMap fun i =>
    ((i, i), 2.0 * width.toUInt64.toFloat + 1.0)
      :: (List.range' 1 (min width i)).flatMap fun k => [((i, i - k), -1.0), ((i - k, i), -1.0)]

/-- The vector that matrices are multiplied with. -/
def testVector (n : Nat) : Array Float :=
  (Array.range n).map fun j => 1.0 + (j % 7).toUInt64.toFloat

/-- The product taken row by row. -/
def multiplyRows (rows : List (List (Nat × Float))) (x : Array Float) : List Float :=
  rows.map fun row => row.foldl (fun sum (c, v) => sum + v * x.getD c 0) 0

/-- The largest difference in size between two vectors, leaving out what is no number. -/
def largestDifference (xs ys : List Float) : Float :=
  (xs.zipWith (fun x y => (x - y).abs) ys).foldl (fun most d => if most < d then d else most) 0

/-- The product from the stream, the tables of the partitions, and the bytes they take. -/
def encodeAndMultiply (s : Settings) (m : Csr Float) (x : Array Float) :
    Except Failure (Array Float × List KindTable × Nat) :=
  if s.symmetric then do
    let parts ← (m.encodeSymmetric s).1
    let y ← multiplySymmetricParts parts x
    return (y, parts.map (·.lower.table), total (parts.map EncodedSymmetric.bytes))
  else do
    let parts ← (m.encode s).1
    let y ← multiplyParts parts x
    return (y, parts.map (·.table), total (parts.map Encoded.bytes))

def tablesText (tables : List KindTable) : String :=
  String.join (tables.zipIdx.map fun (t, i) =>
    "partition " ++ toString i ++ ":\n" ++ t.text ++ "\n")

/-- The report on a matrix. -/
def report (r : Request) (m : Csr Float) : Outcome :=
  let head := "matrix: " ++ dimsText m.nRows m.nCols ++ ", nnz = " ++ toString m.count ++ "\n"
  let result : Except Failure _ := do
    reserve m.nCols (Stored.bytes Float)
    let x := testVector m.nCols
    let rows ← access m.rows?
    let (y, tables, bytes) ← encodeAndMultiply r.settings m x
    return (largestDifference y.toList (multiplyRows rows x), tables, bytes)
  match result with
  | .error failure => failed head failure
  | .ok (difference, tables, bytes) =>
    let size := "csx: " ++ toString tables.length ++ " partitions, " ++ toString bytes ++ " bytes ("
      ++ Decimal.fixedText 1 (percent bytes (csrBytes Float m.count m.nRows)) ++ "% of csr)\n"
    let check :=
      "spmv check: max abs difference " ++ Decimal.scientificText difference ++ "\n"
    let last :=
      if r.document then tablesDocument .plain .plain tables ++ "\n" else tablesText tables
    { code := 0, stdout := head ++ size ++ check ++ last }

/-- Answers a request; `file` is what opening the file named in it gives, if one is named. -/
def answer (r : Request) (file : Except FileFault (List UInt8)) : Outcome :=
  let matrix := if r.path.isSome then Market.read file else band 10000 4
  match matrix with
  | .error failure => failed "" failure
  | .ok m => report r m

end SparseStream.Command
