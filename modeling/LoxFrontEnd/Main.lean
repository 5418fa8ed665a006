import LoxFrontEnd.CommandLine

/-!
The program: it fetches bytes, runs the command line and writes what comes out of it.
-/

namespace LoxFrontEnd.CommandLine

/-- What a failed operation says about the script at `path`. -/
def readError (path : String) : IO.Error → ReadError
  | .noFileOrDirectory .. => .missing path
  | .inappropriateType _ 20 _ => .notDirectory
  | .inappropriateType _ 21 _ => .directory
  | e => .system (toString e)

partial def readAll (stream : IO.FS.Stream) (bytes : ByteArray) : IO ByteArray := do
  let more ← stream.read 65536
  if more.isEmpty then return bytes else readAll stream (bytes ++ more)

def fetch : Origin → IO (Except ReadError ByteArray)
  | .standardInput => do
    return .ok (← readAll (← IO.getStdin) .empty)
  | .file path => do
    try
      return .ok (← IO.FS.withFile path .read fun file => file.readBinToEnd)
    catch e =>
      return .error (readError path e)

end LoxFrontEnd.CommandLine

open LoxFrontEnd.CommandLine in
def main (args : List String) : IO UInt32 := do
  match ← run fetch args with
  | .exit code out err =>
    (← IO.getStdout).putStr out
    (← IO.getStderr).putStr err
    return code.toUInt32
  | .failure e =>
    (← IO.getStderr).putStrLn ("Error: " ++ e.message)
    return 1
