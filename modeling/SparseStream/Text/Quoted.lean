import SparseStream.Text.ShownByCode

/-!
Quoted text. A quote and a backslash get a backslash before them, characters without a form of
their own are shown by their code, and all others stand for themselves.
-/
namespace SparseStream.Text.Quoted

/-- The form of one character between quotes. -/
def form (c : Char) : List Char :=
  if c = '\x00' then ['\\', '0']
  else if c = '\t' then ['\\', 't']
  else if c = '\r' then ['\\', 'r']
  else if c = '\n' then ['\\', 'n']
  else if c = '\\' ∨ c = '"' then ['\\', c]
  else if ShownByCode.holds c then ['\\', 'u', '\x7b'] ++ Nat.toDigits 16 c.toNat ++ ['\x7d']
  else [c]

def encode (text : String) : String :=
  String.ofList ('"' :: text.toList.flatMap form ++ ['"'])

end SparseStream.Text.Quoted
