import LoxFrontEnd.Number.Text
import LoxFrontEnd.Resolve.Tree
import LoxFrontEnd.Script

/-!
The log of a script: what the three stages tell while they work on it.
-/

namespace LoxFrontEnd

inductive LogLevel where
  | info | debug
  deriving DecidableEq, Repr

def LogLevel.text : LogLevel → String
  | .info => "INFO"
  | .debug => "DEBUG"

/-- The stages that write to the log. -/
inductive Stage where
  | scanner | parser | resolver
  deriving DecidableEq, Repr

def Stage.text : Stage → String
  | .scanner => "loxparse::scanner"
  | .parser => "loxparse::parser"
  | .resolver => "loxparse::resolver"

structure LogRecord where
  level : LogLevel
  stage : Stage
  text : String
  deriving DecidableEq

/-- A kind with its value, if it has one. -/
def TokenKind.text : TokenKind → String
  | .bool true => "Bool(true)"
  | .bool false => "Bool(false)"
  | .number value => "Number(" ++ value.text .marked ++ ")"
  | kind => kind.name

/-- An error with its place. -/
def messageAt (message : String) (position : Position) : String :=
  message ++ " at " ++ position.text

namespace Scan

/-- The records of scanning: each error, then the totals. -/
def log (scan : Scan) : List LogRecord :=
  scan.errors.map (fun e => ⟨.debug, .scanner, messageAt e.message e.position⟩)
    ++ [⟨.debug, .scanner, "scanned " ++ toString scan.tokens.length ++ " tokens with "
      ++ toString scan.errors.length ++ " errors"⟩]

end Scan

namespace Event

def text : Event → String
  | .started kind => "declaration starting with " ++ kind.text
  | .recovered .declaration e => "recovering from: " ++ messageAt e.message e.position
  | .recovered .classBody e => "recovering in class body from: " ++ messageAt e.message e.position

end Event

namespace Reply

/-- The records of parsing a program: its beginning, the events, and the total. -/
def log (reply : Reply (Except (List ParseError) Program)) : List LogRecord :=
  let total :=
    match reply.result with
    | .ok p => "parsed " ++ toString p.declarations.length ++ " top-level declarations"
    | .error errors => "parsing failed with " ++ toString errors.length ++ " errors"
  ⟨.info, .parser, "parsing program"⟩
    :: reply.events.map (fun event => ⟨.debug, .parser, event.text⟩)
    ++ [⟨.info, .parser, total⟩]

end Reply

namespace Program

/-- The record of the static checks. A program with a mistake has none. -/
def log (p : Program) : List LogRecord :=
  match (Resolver.top.check p).1 with
  | .ok () =>
    [⟨.debug, .resolver, "resolved " ++ toString p.declarations.length ++ " declarations"⟩]
  | .error _ => []

end Program

/-- The log of a script. A stage comes to work only if the one before found no errors. -/
def trace (source : String) : List LogRecord :=
  let scan := Scan.ofSource source
  if scan.errors.isEmpty then
    let reply := (Session.ofTokens scan.tokens).program
    scan.log ++ reply.log ++
      match reply.result with
      | .ok p => p.log
      | .error _ => []
  else scan.log

end LoxFrontEnd
