import SparseStream.Assembly
import SparseStream.Text.Blank
import SparseStream.Text.Number
import SparseStream.Text.Quoted

/-!
Settings from the environment. Each variable that is set overrides a default; blanks around its
value do not count. The first value that cannot be read is reported, as it stands.
-/
namespace SparseStream

namespace Settings

/-- There is always one thread. -/
def withThreads (s : Settings) (n : Nat) : Settings := { s with threads := max n 1 }

def withFull (s : Settings) (full : Bool) : Settings :=
  { s with mode := if full then .full else .jump }

end Settings

/-- The value of each variable that is set and is text. -/
abbrev Environment := String → Option String

namespace Environment

def fullColumns : String := "CSX_FULL_COLUMN_INDICES"

def threads : String := "CSX_THREADS"

def factor : String := "CSX_CTL_FACTOR"

def symmetric : String := "CSX_SYMMETRIC"

def bool? (cs : List Char) : Option Bool :=
  if cs = "true".toList then some true else if cs = "false".toList then some false else none

/-- Lets a variable change the settings, if it is set. -/
def override (env : Environment) (key : String) (read : List Char → Option β)
    (set : Settings → β → Settings) (s : Settings) : Except Error Settings :=
  match env key with
  | none => .ok s
  | some value =>
    match read (Text.trim value.toList) with
    | some v => .ok (set s v)
    | none => .error (.setting key (Text.Quoted.encode value))

/-- The settings that the environment asks for, from the defaults on. -/
def settings (env : Environment) (defaults : Settings) : Except Error Settings := do
  let s ← env.override fullColumns bool? Settings.withFull defaults
  let s ← env.override threads Text.word? Settings.withThreads s
  let s ← env.override factor Text.word? (fun s n => { s with factor := n }) s
  env.override symmetric bool? (fun s b => { s with symmetric := b }) s

end Environment
end SparseStream
