import LoxFrontEnd.Position

/-!
What can be wrong with a list of tokens, and how it is told. Nearly every error says what was
expected and what was found in its place.
-/

namespace LoxFrontEnd

/-- The most levels of statements, expressions and operators in front of an operand that may
stand in one another. -/
def maxNesting : Nat := 128

/-- A named body with parameters is a function or a method. -/
inductive Routine where
  | function | method
  deriving DecidableEq, Repr

def Routine.text : Routine → String
  | .function => "function"
  | .method => "method"

/-- What a rule asks for. -/
inductive Expected where
  | variableName
  | semicolonAfterVariable
  | routineName (routine : Routine)
  | parenAfterName (routine : Routine)
  | parameterName
  | parenAfterParameters
  | braceBeforeBody (routine : Routine)
  | className
  | superclassName
  | braceBeforeClassBody
  | braceAfterClassBody
  | parenAfterFor
  | semicolonAfterCondition
  | parenAfterClauses
  | parenAfterIf
  | parenAfterIfCondition
  | parenAfterWhile
  | parenAfterCondition
  | semicolonAfterReturn
  | semicolonAfterValue
  | semicolonAfterExpression
  | braceAfterBlock
  | shallowNesting
  | parenAfterArguments
  | propertyName
  | dotAfterSuper
  | superclassMethodName
  | parenAfterExpression
  | expression
  | endOfInput
  deriving DecidableEq, Repr

def Expected.text : Expected → String
  | .variableName => "variable name"
  | .semicolonAfterVariable => "';' after variable declaration"
  | .routineName routine => routine.text ++ " name"
  | .parenAfterName routine => "'(' after " ++ routine.text ++ " name"
  | .parameterName => "parameter name"
  | .parenAfterParameters => "')' after parameters"
  | .braceBeforeBody routine => "'\x7b' before " ++ routine.text ++ " body"
  | .className => "class name"
  | .superclassName => "superclass name"
  | .braceBeforeClassBody => "'\x7b' before class body"
  | .braceAfterClassBody => "'\x7d' after class body"
  | .parenAfterFor => "'(' after 'for'"
  | .semicolonAfterCondition => "';' after loop condition"
  | .parenAfterClauses => "')' after for clauses"
  | .parenAfterIf => "'(' after 'if'"
  | .parenAfterIfCondition => "')' after if condition"
  | .parenAfterWhile => "'(' after 'while'"
  | .parenAfterCondition => "')' after condition"
  | .semicolonAfterReturn => "';' after return value"
  | .semicolonAfterValue => "';' after value"
  | .semicolonAfterExpression => "';' after expression"
  | .braceAfterBlock => "'\x7d' after block"
  | .shallowNesting => "at most " ++ toString maxNesting ++ " levels of nesting"
  | .parenAfterArguments => "')' after arguments"
  | .propertyName => "property name after '.'"
  | .dotAfterSuper => "'.' after 'super'"
  | .superclassMethodName => "superclass method name"
  | .parenAfterExpression => "')' after expression"
  | .expression => "expression"
  | .endOfInput => "end of input"

/-- What stands where something else was expected. -/
inductive Found where
  | lexeme (text : String)
  | endOfInput
  deriving DecidableEq, Repr

def Found.text : Found → String
  | .lexeme text => "'" ++ text ++ "'"
  | .endOfInput => "end of input"

inductive ParseError where
  | unexpectedToken (expected : Expected) (found : Found) (position : Position)
  | invalidAssignmentTarget (position : Position)
  deriving DecidableEq, Repr

namespace ParseError

def position : ParseError → Position
  | .unexpectedToken _ _ position => position
  | .invalidAssignmentTarget position => position

def message : ParseError → String
  | .unexpectedToken expected found _ =>
    "Expect " ++ expected.text ++ ", found " ++ found.text ++ "."
  | .invalidAssignmentTarget _ => "Invalid assignment target."

end ParseError

end LoxFrontEnd
