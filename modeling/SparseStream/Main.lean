import SparseStream.Command

/-! The command line: it reads the environment and the file, prints, and leaves the rest to
`Command`. -/
namespace SparseStream.Main

/-- How many processors the machine has, as far as it tells. -/
def processors : IO Nat := do
  try
    let text ← IO.FS.readFile "/proc/cpuinfo"
    return max 1 ((text.splitOn "\n").filter (·.startsWith "processor")).length
  catch _ => return 1

/-- What kept a file from being read. -/
def fault : IO.Error → FileFault
  | .permissionDenied .. => .denied
  | .inappropriateType _ code _ => if code = 20 then .notDirectory else .directory
  | .invalidArgument _ code _ => if code = 36 then .nameTooLong else .missing
  | _ => .missing

def readBytes (path : String) : IO (Except FileFault (List UInt8)) := do
  try
    return .ok (← IO.FS.readBinFile path).toList
  catch e => return .error (fault e)

/-- The variables that settings are read from. -/
def environment : IO Environment := do
  let keys := [Environment.fullColumns, Environment.threads, Environment.factor,
    Environment.symmetric]
  let found ← keys.mapM fun key => do return (key, ← IO.getEnv key)
  return fun key => (found.lookup key).join

def run (args : List String) : IO Command.Outcome := do
  match Command.request (← environment) { threads := ← processors } args with
  | .error outcome => return outcome
  | .ok r => do
    let file ← match r.path with
      | some path => readBytes path
      | none => pure (.error .missing)
    return Command.answer r file

end SparseStream.Main

def main (args : List String) : IO UInt32 := do
  let outcome ← SparseStream.Main.run args
  (← IO.getStdout).putStr outcome.stdout
  (← IO.getStderr).putStr outcome.stderr
  return outcome.code.toUInt32
