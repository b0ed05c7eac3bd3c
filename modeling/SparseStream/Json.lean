/-!
JSON documents. `Json.parse?` is strict: no comments, no commas at the end, no text after the
document. A number is kept if it is written as a natural number, and a text if it is well formed;
other numbers and texts are still values of a document.

Who turns documents into text and back is left open, as a `Json.Library`; `Json.Library.plain` is
the one that programs run with.
-/
namespace SparseStream

inductive Json where
  | null
  | bool (b : Bool)
  | number (value? : Option Nat)
  | text (chars? : Option (List Char))
  | array (items : List Json)
  | object (fields : List (Option (List Char) × Json))

namespace Json

def ofNat (n : Nat) : Json := number (some n)

def ofString (s : String) : Json := text (some s.toList)

/-- An object with the given fields, in order. -/
def fields (fs : List (String × Json)) : Json := object (fs.map fun (k, v) => (some k.toList, v))

def isBlank (c : Char) : Bool := c = ' ' || c = '\n' || c = '\t' || c = '\r'

def isDigit (c : Char) : Bool := '0' ≤ c && c ≤ '9'

def skip (cs : List Char) : List Char := cs.dropWhile isBlank

/-- A natural number without needless zeros; any other number gives `none` for its value. -/
def digits (cs : List Char) : Option (List Char × List Char) :=
  match cs with
  | '0' :: rest => some (['0'], rest)
  | c :: _ => if isDigit c then some (cs.span isDigit) else none
  | [] => none

/-- Digits, one at least. -/
def someDigits (cs : List Char) : Option (List Char) :=
  match cs with
  | c :: rest => if isDigit c then some (rest.dropWhile isDigit) else none
  | [] => none

/-- The places after a point, if there is one. -/
def skipPlaces (cs : List Char) : Option (Bool × List Char) :=
  match cs with
  | '.' :: rest => (someDigits rest).map fun rest => (true, rest)
  | _ => some (false, cs)

/-- A power of ten, if there is one. -/
def skipPower (cs : List Char) : Option (Bool × List Char) :=
  match cs with
  | c :: rest =>
    if c = 'e' ∨ c = 'E' then
      let rest := match rest with
        | '+' :: more | '-' :: more => more
        | _ => rest
      (someDigits rest).map fun rest => (true, rest)
    else some (false, cs)
  | [] => some (false, cs)

def parseNumber (cs : List Char) : Option (Json × List Char) := do
  let (negative, cs) := match cs with
    | '-' :: rest => (true, rest)
    | _ => (false, cs)
  let (whole, cs) ← digits cs
  let (places, cs) ← skipPlaces cs
  let (power, cs) ← skipPower cs
  let value := whole.foldl (fun n c => 10 * n + (c.toNat - 48)) 0
  return (number (if negative || places || power then none else some value), cs)

def hexDigit? (c : Char) : Option Nat :=
  if '0' ≤ c ∧ c ≤ '9' then some (c.toNat - 48)
  else if 'a' ≤ c ∧ c ≤ 'f' then some (c.toNat - 87)
  else if 'A' ≤ c ∧ c ≤ 'F' then some (c.toNat - 55)
  else none

/-- A character of a text, or a code that stands for one or for half of one. -/
inductive Mark where
  | char (c : Char)
  | code (n : Nat)
  deriving DecidableEq, Repr

/-- The marks up to the closing quote. -/
def marks? : List Char → Option (List Mark × List Char)
  | '"' :: rest => some ([], rest)
  | '\\' :: 'u' :: a :: b :: c :: d :: rest => do
    let n := (((← hexDigit? a) * 16 + (← hexDigit? b)) * 16 + (← hexDigit? c)) * 16
      + (← hexDigit? d)
    let (more, rest) ← marks? rest
    return (.code n :: more, rest)
  | '\\' :: e :: rest => do
    let c ← match e with
      | '"' => some '"'
      | '\\' => some '\\'
      | '/' => some '/'
      | 'b' => some '\x08'
      | 'f' => some '\x0c'
      | 'n' => some '\n'
      | 'r' => some '\r'
      | 't' => some '\t'
      | _ => none
    let (more, rest) ← marks? rest
    return (.char c :: more, rest)
  | c :: rest =>
    if c = '\\' ∨ c.toNat < 32 then none
    else do
      let (more, rest) ← marks? rest
      return (.char c :: more, rest)
  | [] => none

def isHigh (n : Nat) : Bool := 0xd800 ≤ n && n < 0xdc00

def isLow (n : Nat) : Bool := 0xdc00 ≤ n && n < 0xe000

/-- The text that marks stand for. Two halves make a character; a lone half makes no text. -/
def join : List Mark → Option (List Char)
  | [] => some []
  | .char c :: rest => (join rest).map (c :: ·)
  | .code n :: rest =>
    if isHigh n then
      match rest with
      | .code m :: rest =>
        if isLow m then
          (join rest).map (Char.ofNat (0x10000 + (n - 0xd800) * 0x400 + (m - 0xdc00)) :: ·)
        else none
      | _ => none
    else if isLow n then none
    else (join rest).map (Char.ofNat n :: ·)

/-- A text, from its opening quote on. -/
def parseText : List Char → Option (Option (List Char) × List Char)
  | '"' :: rest => (marks? rest).map fun (ms, rest) => (join ms, rest)
  | _ => none

mutual

/-- A value at the start of some characters, and what follows it. -/
def parseValue : Nat → List Char → Option (Json × List Char)
  | 0, _ => none
  | fuel + 1, cs =>
    match skip cs with
    | 'n' :: 'u' :: 'l' :: 'l' :: rest => some (null, rest)
    | 't' :: 'r' :: 'u' :: 'e' :: rest => some (bool true, rest)
    | 'f' :: 'a' :: 'l' :: 's' :: 'e' :: rest => some (bool false, rest)
    | '[' :: rest =>
      match skip rest with
      | ']' :: rest => some (array [], rest)
      | rest => (parseItems fuel rest).map fun (vs, rest) => (array vs, rest)
    | '\x7b' :: rest =>
      match skip rest with
      | '\x7d' :: rest => some (object [], rest)
      | rest => (parseFields fuel rest).map fun (fs, rest) => (object fs, rest)
    | '"' :: rest => (parseText ('"' :: rest)).map fun (t, rest) => (text t, rest)
    | rest => parseNumber rest

/-- The items of an array, up to its closing bracket. -/
def parseItems : Nat → List Char → Option (List Json × List Char)
  | 0, _ => none
  | fuel + 1, cs => do
    let (v, rest) ← parseValue fuel cs
    match skip rest with
    | ',' :: rest =>
      let (vs, rest) ← parseItems fuel rest
      return (v :: vs, rest)
    | ']' :: rest => return ([v], rest)
    | _ => none

/-- The fields of an object, up to its closing bracket. -/
def parseFields : Nat → List Char → Option (List (Option (List Char) × Json) × List Char)
  | 0, _ => none
  | fuel + 1, cs => do
    let (k, rest) ← parseText (skip cs)
    match skip rest with
    | ':' :: rest =>
      let (v, rest) ← parseValue fuel rest
      match skip rest with
      | ',' :: rest =>
        let (fs, rest) ← parseFields fuel rest
        return ((k, v) :: fs, rest)
      | '\x7d' :: rest => return ([(k, v)], rest)
      | _ => none
    | _ => none

end

/-- A whole document. -/
def parse? (s : String) : Option Json := do
  let cs := s.toList
  let (v, rest) ← parseValue (2 * cs.length + 2) cs
  if (skip rest).isEmpty then some v else none

/-- Characters that are written as a backslash and one more character. -/
def escapes : List (Char × Char) :=
  [('"', '"'), ('\\', '\\'), ('\x08', 'b'), ('\x0c', 'f'), ('\n', 'n'), ('\r', 'r'), ('\t', 't')]

/-- A character inside of a quoted text. -/
def charForm (c : Char) : List Char :=
  match escapes.lookup c with
  | some e => ['\\', e]
  | none =>
    if c.toNat < 32 then
      ['\\', 'u', '0', '0', Nat.digitChar (c.toNat / 16), Nat.digitChar (c.toNat % 16)]
    else [c]

def quoted (t : Option (List Char)) : List Char := '"' :: (t.getD []).flatMap charForm ++ ['"']

/-- How a document is laid out: the break before an item at some depth, and what follows a key. -/
structure Layout where
  newline : Nat → List Char
  colon : List Char

/-- All in one line, with no blanks. -/
def Layout.compact : Layout := ⟨fun _ => [], [':']⟩

/-- An item per line, two blanks further in for each level. -/
def Layout.indented : Layout := ⟨fun depth => '\n' :: List.replicate (2 * depth) ' ', [':', ' ']⟩

mutual

def render (l : Layout) (depth : Nat) : Json → List Char
  | null => ['n', 'u', 'l', 'l']
  | bool b => (if b then "true" else "false").toList
  | number n => Nat.toDigits 10 (n.getD 0)
  | text t => quoted t
  | array [] => ['[', ']']
  | array (v :: vs) =>
    '[' :: l.newline (depth + 1) ++ render l (depth + 1) v ++ renderItems l (depth + 1) vs
      ++ l.newline depth ++ [']']
  | object [] => ['\x7b', '\x7d']
  | object ((k, v) :: fs) =>
    '\x7b' :: l.newline (depth + 1) ++ quoted k ++ l.colon ++ render l (depth + 1) v
      ++ renderFields l (depth + 1) fs ++ l.newline depth ++ ['\x7d']

/-- The items after the first one. -/
def renderItems (l : Layout) (depth : Nat) : List Json → List Char
  | [] => []
  | v :: vs => ',' :: l.newline depth ++ render l depth v ++ renderItems l depth vs

/-- The fields after the first one. -/
def renderFields (l : Layout) (depth : Nat) : List (Option (List Char) × Json) → List Char
  | [] => []
  | (k, v) :: fs =>
    ',' :: l.newline depth ++ quoted k ++ l.colon ++ render l depth v ++ renderFields l depth fs

end

/-- The text of a document. -/
def print (l : Layout) (v : Json) : String := String.ofList (render l 0 v)

/-- What writes documents, in one line or laid out over many, and reads them. -/
structure Library where
  compact : Json → String
  pretty : Json → String
  parse? : String → Option Json

def Library.plain : Library := ⟨print .compact, print .indented, Json.parse?⟩

end Json
end SparseStream
