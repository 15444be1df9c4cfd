import FrontEnd.CommandLine

/-! The executable: reads the files that the arguments name and writes what the command says. -/

namespace FrontEnd.CommandLine

/-- What is said of a file that cannot be read. -/
def reason : IO.Error → String
  | .noFileOrDirectory .. => missing
  | error => toString error

/-- The content of each file, or why it cannot be read, beside its path. -/
def contents (paths : List String) : IO (List (String × Except String ByteArray)) :=
  paths.mapM fun (path : String) => do
    try return (path, .ok (← IO.FS.readBinFile path))
    catch error => return (path, .error (reason error))

end FrontEnd.CommandLine

open FrontEnd

def main (arguments : List String) : IO UInt32 := do
  let files ← CommandLine.contents (arguments.drop 1)
  let outcome := CommandLine.runWith arguments fun path =>
    (files.lookup path).getD (.error CommandLine.missing)
  (← IO.getStdout).putStr outcome.stdout
  (← IO.getStderr).putStr outcome.stderr
  return UInt32.ofNat outcome.exitCode
