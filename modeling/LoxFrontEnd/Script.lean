import LoxFrontEnd.Parse.Session
import LoxFrontEnd.Scan.Tokens

/-!
From the source text of a script to its tree. Lexical errors stop before parsing; otherwise every
error that parsing finds is reported.
-/

namespace LoxFrontEnd

/-- What can be wrong with the text of a script. -/
inductive SyntaxError where
  | lexical (error : ScanError)
  | grammatical (error : ParseError)
  deriving DecidableEq

/-- The sorts of errors that reports tell apart. -/
inductive ErrorKind where
  | unexpectedCharacter
  | unterminatedString
  | invalidNumber
  | unexpectedToken
  | invalidAssignmentTarget
  deriving DecidableEq, Repr

namespace SyntaxError

def kind : SyntaxError → ErrorKind
  | .lexical ⟨.unexpectedCharacter, _, _⟩ => .unexpectedCharacter
  | .lexical ⟨.unterminatedString, _, _⟩ => .unterminatedString
  | .lexical ⟨.leadingZero, _, _⟩ => .invalidNumber
  | .grammatical (.unexpectedToken ..) => .unexpectedToken
  | .grammatical (.invalidAssignmentTarget _) => .invalidAssignmentTarget

def position : SyntaxError → Position
  | .lexical e => e.position
  | .grammatical e => e.position

def message : SyntaxError → String
  | .lexical e => e.message
  | .grammatical e => e.message

end SyntaxError

/-- The tree of a script, or all its errors. -/
def parse (source : String) : Except (List SyntaxError) Program := do
  let tokens ← (tokenize source).mapError (·.map .lexical)
  (Session.ofTokens tokens).program.result.mapError (·.map .grammatical)

end LoxFrontEnd
