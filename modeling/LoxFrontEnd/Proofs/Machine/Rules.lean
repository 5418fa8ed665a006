import LoxFrontEnd.Proofs.Machine.Basic

/-!
The rules of the machine, and the calls that it answers. They read what the rules for expressions,
statements and declarations read; that they do is proved, not built in.
-/

namespace LoxFrontEnd

namespace Machine

section Expression

variable (expression : Machine Expr)

def primary : Machine Expr := do
  if let some leaf ← takeSome Token.leaf? then
    return leaf
  if let some keyword ← accept .kwSuper then
    let _ ← expect .dot .dotAfterSuper
    let method ← expect .identifier .superclassMethodName
    return .superRef method.lexeme keyword.position.line
  if (← accept .leftParen).isSome then
    let inner ← expression
    let _ ← expect .rightParen .parenAfterExpression
    return .grouping inner
  unexpected .expression

def suffix (target : Expr) : Machine (Option Expr) := do
  if (← accept .leftParen).isSome then
    let arguments ← separatedUnless .rightParen expression
    let _ ← expect .rightParen .parenAfterArguments
    return some (.call target arguments)
  if (← accept .dot).isSome then
    let name ← expect .identifier .propertyName
    return some (.getAttr target name.lexeme)
  return none

def call : Machine Expr := do
  steps (suffix expression) (← primary expression)

/-- One more operator in front of an operand, if there is one. The operators so far count as levels. -/
def sign (operators : List UnaryOp) : Machine (Option (List UnaryOp)) := do
  if (← peek).unaryOp?.isNone then return none
  if maxNesting ≤ (← counts).nesting + operators.length then unexpected .shallowNesting
  let op ← takeSome fun token => token.kind.unaryOp?
  return some (operators ++ op.toList)

/-- All operators are read before the operand, which the last of them is applied to first. -/
def unary : Machine Expr := do
  let operators ← steps sign []
  let operand ← call expression
  return operators.foldr .unary operand

def link {ο : Type} (op? : TokenKind → Option ο) (node : ο → Expr → Expr → Expr) (operand : Machine Expr)
    (left : Expr) : Machine (Option Expr) := do
  match ← takeSome fun token => op? token.kind with
  | none => return none
  | some op => return some (node op left (← operand))

def chain {ο : Type} (op? : TokenKind → Option ο) (node : ο → Expr → Expr → Expr) (operand : Machine Expr) :
    Machine Expr := do
  steps (link op? node operand) (← operand)

def factor : Machine Expr := chain TokenKind.factorOp? .binary (unary expression)

def term : Machine Expr := chain TokenKind.termOp? .binary (factor expression)

def comparison : Machine Expr := chain TokenKind.comparisonOp? .binary (term expression)

def equality : Machine Expr := chain TokenKind.equalityOp? .binary (comparison expression)

def logicAnd : Machine Expr := chain TokenKind.andOp? .logical (equality expression)

def logicOr : Machine Expr := chain TokenKind.orOp? .logical (logicAnd expression)

def assignment : Machine Expr := do
  let target ← logicOr expression
  match ← accept .equal with
  | none => return target
  | some sign =>
    let value ← expression
    match target with
    | .var name _ => return .assign name value
    | .getAttr object name => return .setAttr object name value
    | _ => lift (Parse.fail (.invalidAssignmentTarget sign.position))

end Expression

def expression : Machine Expr :=
  tie (fun (again : Unit → Machine Expr) _ => nested (assignment (again ()))) ()

/-- Items with the brace that closes them. The brace in front of them is open while they are read. -/
def braced {α : Type} (expected : Expected) (item : Machine α) : Machine (List α) := do
  let items ← opened (many Parse.endsBody (recovering item))
  let _ ← expect .rightBrace expected
  return items

section Statement

variable (expression : Machine Expr) (statement declaration : Machine Stmt)

def block : Machine (List Stmt) := braced .braceAfterBlock declaration

def varDeclaration : Machine Stmt := do
  let name ← expect .identifier .variableName
  let initializer ← if (← accept .equal).isSome then some <$> expression else pure none
  let _ ← expect .semicolon .semicolonAfterVariable
  return .varDecl name.lexeme initializer name.position.line

def parameter : Machine Parameter := do
  let name ← expect .identifier .parameterName
  return ⟨name.lexeme, name.position.line⟩

def function (routine : Routine) : Machine Function := do
  let name ← expect .identifier (.routineName routine)
  let _ ← expect .leftParen (.parenAfterName routine)
  let parameters ← separatedUnless .rightParen parameter
  let _ ← expect .rightParen .parenAfterParameters
  let _ ← expect .leftBrace (.braceBeforeBody routine)
  let body ← block declaration
  return ⟨name.lexeme, parameters, body, name.position.line⟩

def classDeclaration : Machine Stmt := do
  let name ← expect .identifier .className
  let superclass ←
    if (← accept .less).isSome then some <$> expect .identifier .superclassName else pure none
  let _ ← expect .leftBrace .braceBeforeClassBody
  let methods ← braced .braceAfterClassBody (function declaration .method)
  return .classDecl name.lexeme (superclass.map Token.lexeme) methods name.position.line

def declarationWith : Machine Stmt := do
  if (← accept .kwVar).isSome then
    varDeclaration expression
  else if (← accept .kwFun).isSome then
    return .funDecl (← function declaration .function)
  else if (← accept .kwClass).isSome then
    classDeclaration declaration
  else
    statement

def expressionStatement : Machine Stmt := do
  let e ← expression
  let _ ← expect .semicolon .semicolonAfterExpression
  return .expr e

def printStatement : Machine Stmt := do
  let e ← expression
  let _ ← expect .semicolon .semicolonAfterValue
  return .print e

def expressionUnless (stop : TokenKind) : Machine (Option Expr) := do
  if (← peek) = stop then return none
  some <$> expression

def returnStatement (keyword : Token) : Machine Stmt := do
  let value ← expressionUnless expression .semicolon
  let _ ← expect .semicolon .semicolonAfterReturn
  return .ret value keyword.position.line

def whileStatement : Machine Stmt := do
  let _ ← expect .leftParen .parenAfterWhile
  let condition ← expression
  let _ ← expect .rightParen .parenAfterCondition
  return .whileLoop condition (← statement)

def ifStatement : Machine Stmt := do
  let _ ← expect .leftParen .parenAfterIf
  let condition ← expression
  let _ ← expect .rightParen .parenAfterIfCondition
  let thenBranch ← statement
  let elseBranch ← if (← accept .kwElse).isSome then some <$> statement else pure none
  return .ifElse condition thenBranch elseBranch

def forInitializer : Machine (Option Stmt) := do
  if (← accept .semicolon).isSome then return none
  if (← accept .kwVar).isSome then return some (← varDeclaration expression)
  some <$> expressionStatement expression

def forStatement : Machine Stmt := do
  let _ ← expect .leftParen .parenAfterFor
  let initializer ← forInitializer expression
  let condition ← expressionUnless expression .semicolon
  let _ ← expect .semicolon .semicolonAfterCondition
  let increment ← expressionUnless expression .rightParen
  let _ ← expect .rightParen .parenAfterClauses
  return Parse.forLoop initializer condition increment (← statement)

def statementWith : Machine Stmt := do
  if (← accept .kwFor).isSome then
    forStatement expression statement
  else if (← accept .kwIf).isSome then
    ifStatement expression statement
  else if (← accept .kwWhile).isSome then
    whileStatement expression statement
  else if let some keyword ← accept .kwReturn then
    returnStatement expression keyword
  else if (← accept .leftBrace).isSome then
    return .block (← block declaration)
  else if (← accept .kwPrint).isSome then
    printStatement expression
  else
    expressionStatement expression

def declarationOver : Machine Stmt :=
  tie (fun (again : Unit → Machine Stmt) _ => declarationWith expression statement (again ())) ()

end Statement

def statement : Machine Stmt :=
  tie
    (fun (again : Unit → Machine Stmt) _ =>
      nested (statementWith expression (again ()) (declarationOver expression (again ()))))
    ()

def declaration : Machine Stmt := declarationOver expression statement

def declarations : Machine (List Stmt) := many (· = .eof) (recovering declaration)

/-- Asks for one tree, with nothing behind it. An error in the queue is answered first. -/
def single {α : Type} (rule : Machine α) : Nat → Registers → Option (Except ParseError α × Registers) :=
  fun limit r =>
    match rule limit r with
    | none => none
    | some (result, r') =>
      match r'.session.queue with
      | e :: queue => some (.error e, ⟨⟨r'.input, queue⟩, r'.counts⟩)
      | [] =>
        match result with
        | .error e => some (.error e, r')
        | .ok a => (do lift Parse.expectEnd; return a : Machine α) limit r'

/-- Asks for all that is left. The answer is the whole queue, unless it is empty. -/
def program : Nat → Registers → Option (Except (List ParseError) Program × Registers) := fun limit r =>
  match declarations limit r with
  | none => none
  | some (.error e, r') => some (.error [e], r')
  | some (.ok ss, r') =>
    match r'.session.queue with
    | [] => some (.ok ⟨ss⟩, r')
    | errors => some (.error errors, ⟨⟨r'.input, []⟩, r'.counts⟩)

/-- The answer to one call. -/
def answer (limit : Nat) (r : Registers) : Call → Option (Answer × Registers)
  | .program => (program limit r).map fun (result, r') => (.program result, r')
  | .statement => (single declaration limit r).map fun (result, r') => (.statement result, r')
  | .expression => (single expression limit r).map fun (result, r') => (.expression result, r')

/-- The answers to one call after another. -/
def run (limit : Nat) (r : Registers) : List Call → Option (List Answer × Registers)
  | [] => some ([], r)
  | call :: calls => do
    let (first, r') ← answer limit r call
    let (others, r'') ← run limit r' calls
    return (first :: others, r'')

end Machine

end LoxFrontEnd
