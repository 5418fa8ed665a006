import LoxFrontEnd.Resolve.Tree
import LoxFrontEnd.Script
import LoxFrontEnd.Tree.Form

/-!
The command line. It shows the tree of one script, or tells what is wrong with it. How bytes are
fetched is left to the caller.
-/

namespace LoxFrontEnd.CommandLine

/-- Where a script comes from. -/
inductive Origin where
  | standardInput
  | file (path : String)
  deriving DecidableEq, Repr

/-- Why a script cannot be read. -/
inductive ReadError where
  | missing (path : String)
  | directory
  /-- Something on the way to the script is no directory. -/
  | notDirectory
  | notText
  /-- Any other failure, in the system's own words. -/
  | system (message : String)
  deriving DecidableEq, Repr

def ReadError.message : ReadError → String
  | .missing path => "file does not seem to exist " ++ path
  | .directory => "Is a directory (os error 21)"
  | .notDirectory => "Not a directory (os error 20)"
  | .notText => "stream did not contain valid UTF-8"
  | .system message => message

/-- How a run ends. -/
inductive Ending where
  /-- With an exit code, and text on standard output and on standard error. -/
  | exit (code : Nat) (out err : String)
  /-- With a report that the script cannot be read. -/
  | failure (error : ReadError)
  deriving DecidableEq, Repr

/-- The place of the script, unless there are too many arguments. The number that is told counts
the name of the program as well. -/
def origin : List String → Except Ending Origin
  | [] => .ok .standardInput
  | [path] => .ok (.file path)
  | args =>
    .error (.exit 64 ""
      ("Too many arguments received (" ++ toString (args.length + 1)
        ++ ")\nUsage: loxparse [script]\n"))

/-- Scripts are UTF-8. -/
def decode (bytes : ByteArray) : Except ReadError String :=
  match String.fromUTF8? bytes with
  | some source => .ok source
  | none => .error .notText

def errorLine (e : SyntaxError) : String :=
  "[line " ++ e.position.text ++ "] Error: " ++ e.message ++ "\n"

/-- The tree on standard output, or the errors on standard error. -/
def report (source : String) : Ending :=
  match parse source with
  | .error errors => .exit 65 "" (String.join (errors.map errorLine))
  | .ok program =>
    match (Resolver.top.check program).1 with
    | .error e => .exit 65 "" (e.message ++ "\n")
    | .ok () => .exit 0 (program.text ++ "\n") ""

/-- A run with these arguments. -/
def run {m : Type → Type} [Monad m] (read : Origin → m (Except ReadError ByteArray))
    (args : List String) : m Ending := do
  match origin args with
  | .error ending => return ending
  | .ok place =>
    match (← read place).bind decode with
    | .error e => return .failure e
    | .ok source => return report source

end LoxFrontEnd.CommandLine
