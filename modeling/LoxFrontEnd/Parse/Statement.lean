import LoxFrontEnd.Parse.Expression
import LoxFrontEnd.Parse.Recovery

/-!
Statements and declarations. Statements and expressions draw on one number of levels; bodies of
functions and of classes draw on none of their own. Blocks and class bodies recover from errors
one item at a time.
-/

namespace LoxFrontEnd

namespace Parse

/-- A list of items in braces ends at the brace, or where the input does. -/
def endsBody (kind : TokenKind) : Bool := kind = .rightBrace ∨ kind = .eof

section

variable (expression : Parse Expr) (statement declaration : Parse Stmt)

/-- Behind the opening brace. -/
def block : Parse (List Stmt) := do
  let body ← many endsBody (recovering .declaration true declaration)
  let _ ← expect .rightBrace .braceAfterBlock
  return body

/-- Behind `var`. -/
def varDeclaration : Parse Stmt := do
  let name ← expect .identifier .variableName
  let initializer ← if (← accept .equal).isSome then some <$> expression else pure none
  let _ ← expect .semicolon .semicolonAfterVariable
  return .varDecl name.lexeme initializer name.position.line

def parameter : Parse Parameter := do
  let name ← expect .identifier .parameterName
  return ⟨name.lexeme, name.position.line⟩

/-- A name, parameters and a body. -/
def function (routine : Routine) : Parse Function := do
  let name ← expect .identifier (.routineName routine)
  let _ ← expect .leftParen (.parenAfterName routine)
  let parameters ← separatedUnless .rightParen parameter
  let _ ← expect .rightParen .parenAfterParameters
  let _ ← expect .leftBrace (.braceBeforeBody routine)
  let body ← block declaration
  return ⟨name.lexeme, parameters, body, name.position.line⟩

/-- Behind `class`. -/
def classDeclaration : Parse Stmt := do
  let name ← expect .identifier .className
  let superclass ←
    if (← accept .less).isSome then some <$> expect .identifier .superclassName else pure none
  let _ ← expect .leftBrace .braceBeforeClassBody
  let methods ← many endsBody (recovering .classBody true (function declaration .method))
  let _ ← expect .rightBrace .braceAfterClassBody
  return .classDecl name.lexeme (superclass.map Token.lexeme) methods name.position.line

def declarationWith : Parse Stmt := do
  record (.started (← peek))
  if (← accept .kwVar).isSome then
    varDeclaration expression
  else if (← accept .kwFun).isSome then
    return .funDecl (← function declaration .function)
  else if (← accept .kwClass).isSome then
    classDeclaration declaration
  else
    statement

def expressionStatement : Parse Stmt := do
  let e ← expression
  let _ ← expect .semicolon .semicolonAfterExpression
  return .expr e

/-- Behind `print`. -/
def printStatement : Parse Stmt := do
  let e ← expression
  let _ ← expect .semicolon .semicolonAfterValue
  return .print e

/-- An expression, or none if `stop` comes first. -/
def expressionUnless (stop : TokenKind) : Parse (Option Expr) := do
  if (← peek) = stop then return none
  some <$> expression

def returnStatement (keyword : Token) : Parse Stmt := do
  let value ← expressionUnless expression .semicolon
  let _ ← expect .semicolon .semicolonAfterReturn
  return .ret value keyword.position.line

/-- Behind `while`. -/
def whileStatement : Parse Stmt := do
  let _ ← expect .leftParen .parenAfterWhile
  let condition ← expression
  let _ ← expect .rightParen .parenAfterCondition
  return .whileLoop condition (← statement)

/-- Behind `if`. An `else` belongs to the nearest `if` before it that can take it. -/
def ifStatement : Parse Stmt := do
  let _ ← expect .leftParen .parenAfterIf
  let condition ← expression
  let _ ← expect .rightParen .parenAfterIfCondition
  let thenBranch ← statement
  let elseBranch ← if (← accept .kwElse).isSome then some <$> statement else pure none
  return .ifElse condition thenBranch elseBranch

/-- The first clause of a `for` loop, with its semicolon. -/
def forInitializer : Parse (Option Stmt) := do
  if (← accept .semicolon).isSome then return none
  if (← accept .kwVar).isSome then return some (← varDeclaration expression)
  some <$> expressionStatement expression

/-- The block that a `for` loop stands for. Without a condition it goes on for ever. -/
def forLoop (initializer : Option Stmt) (condition increment : Option Expr) (body : Stmt) : Stmt :=
  let body := match increment with
    | none => body
    | some e => .block [body, .expr e]
  .block (initializer.toList ++ [.whileLoop (condition.getD (.literal (.bool true))) body])

/-- Behind `for`. -/
def forStatement : Parse Stmt := do
  let _ ← expect .leftParen .parenAfterFor
  let initializer ← forInitializer expression
  let condition ← expressionUnless expression .semicolon
  let _ ← expect .semicolon .semicolonAfterCondition
  let increment ← expressionUnless expression .rightParen
  let _ ← expect .rightParen .parenAfterClauses
  return forLoop initializer condition increment (← statement)

def statementWith : Parse Stmt := do
  if (← accept .kwFor).isSome then
    forStatement expression statement
  else if (← accept .kwIf).isSome then
    ifStatement expression statement
  else if (← accept .kwWhile).isSome then
    whileStatement expression statement
  else if let some keyword ← accept .kwReturn then
    returnStatement expression keyword
  else if (← accept .leftBrace).isSome then
    return .block (← block declaration)
  else if (← accept .kwPrint).isSome then
    printStatement expression
  else
    expressionStatement expression

/-- Declarations stand in bodies of functions and classes to any depth. -/
def declarationOver : Parse Stmt :=
  recursive (fun (again : Unit → Parse Stmt) _ => declarationWith expression statement (again ())) ()

end

/-- A statement with this many levels left for it. -/
def statement : Nat → Parse Stmt
  | 0 => unexpected .shallowNesting
  | levels + 1 => fun input =>
    statementWith (expression levels) (statement levels)
      (declarationOver (expression levels) (statement levels)) input

/-- A declaration with this many levels left for the statements and expressions in it. -/
def declaration (levels : Nat) : Parse Stmt :=
  declarationOver (expression levels) (statement levels)

end Parse

end LoxFrontEnd
