import LoxFrontEnd.Parse.Basic
import LoxFrontEnd.Tree

/-!
Expressions. From loosest to tightest: assignment, `or`, `and`, equality, comparison, sums,
products, operators in front of an operand, calls and properties, primaries. Operators of two
operands group to the left, assignment groups to the right.
-/

namespace LoxFrontEnd

/-- The text between the quotes of a string. A lexeme without its quotes is taken as it is. -/
def unquote (lexeme : String) : String :=
  match lexeme.toList with
  | '"' :: cs => if cs.getLast? = some '"' then String.ofList cs.dropLast else lexeme
  | _ => lexeme

/-- The tokens that are an expression on their own. -/
def Token.leaf? (token : Token) : Option Expr :=
  match token.kind with
  | .number value => some (.literal (.number value))
  | .bool value => some (.literal (.bool value))
  | .kwNil => some (.literal .nil)
  | .string => some (.literal (.string (unquote token.lexeme)))
  | .identifier => some (.var token.lexeme token.position.line)
  | .kwThis => some (.thisRef token.position.line)
  | _ => none

namespace TokenKind

def unaryOp? : TokenKind → Option UnaryOp
  | .bang => some .not
  | .minus => some .minus
  | _ => none

def factorOp? : TokenKind → Option BinaryOp
  | .star => some .multiply
  | .slash => some .divide
  | _ => none

def termOp? : TokenKind → Option BinaryOp
  | .plus => some .plus
  | .minus => some .minus
  | _ => none

def comparisonOp? : TokenKind → Option BinaryOp
  | .greater => some .greater
  | .greaterEqual => some .greaterEqual
  | .less => some .less
  | .lessEqual => some .lessEqual
  | _ => none

def equalityOp? : TokenKind → Option BinaryOp
  | .bangEqual => some .notEqual
  | .equalEqual => some .equal
  | _ => none

def andOp? : TokenKind → Option LogicalOp
  | .kwAnd => some .and
  | _ => none

def orOp? : TokenKind → Option LogicalOp
  | .kwOr => some .or
  | _ => none

end TokenKind

namespace Parse

section

variable {ο : Type} (op? : TokenKind → Option ο) (node : ο → Expr → Expr → Expr) (operand : Parse Expr)

/-- An operator and the operand behind it, joined to the expression that stands before them. -/
def link (left : Expr) : Parse (Option Expr) := do
  match ← takeSome fun token => op? token.kind with
  | none => return none
  | some op => return some (node op left (← operand))

/-- Operands with operators between them, grouped to the left. -/
def chain : Parse Expr := extend operand (link op? node operand)

end

section

variable (expression : Parse Expr)

def primary : Parse Expr := do
  if let some leaf ← takeSome Token.leaf? then
    return leaf
  if let some keyword ← accept .kwSuper then
    let _ ← expect .dot .dotAfterSuper
    let method ← expect .identifier .superclassMethodName
    return .superRef method.lexeme keyword.position.line
  if (← accept .leftParen).isSome then
    let inner ← expression
    let _ ← expect .rightParen .parenAfterExpression
    return .grouping inner
  unexpected .expression

/-- The arguments of a call or the name of a property, behind the expression it belongs to. -/
def suffix (target : Expr) : Parse (Option Expr) := do
  if (← accept .leftParen).isSome then
    let arguments ← separatedUnless .rightParen expression
    let _ ← expect .rightParen .parenAfterArguments
    return some (.call target arguments)
  if (← accept .dot).isSome then
    let name ← expect .identifier .propertyName
    return some (.getAttr target name.lexeme)
  return none

def call : Parse Expr :=
  extend (primary expression) (suffix expression)

/-- At most `levels` operators may stand in front of an operand. -/
def unary : Nat → Parse Expr
  | 0 => do
    if (← peek).unaryOp?.isSome then unexpected .shallowNesting
    call expression
  | levels + 1 => do
    match ← takeSome fun token => token.kind.unaryOp? with
    | some op => return .unary op (← unary levels)
    | none => call expression

def factor (levels : Nat) : Parse Expr := chain TokenKind.factorOp? .binary (unary expression levels)

def term (levels : Nat) : Parse Expr := chain TokenKind.termOp? .binary (factor expression levels)

def comparison (levels : Nat) : Parse Expr :=
  chain TokenKind.comparisonOp? .binary (term expression levels)

def equality (levels : Nat) : Parse Expr :=
  chain TokenKind.equalityOp? .binary (comparison expression levels)

def logicAnd (levels : Nat) : Parse Expr := chain TokenKind.andOp? .logical (equality expression levels)

def logicOr (levels : Nat) : Parse Expr := chain TokenKind.orOp? .logical (logicAnd expression levels)

/-- Only a variable or a property can be given a value. The value is read first. -/
def assignment (levels : Nat) : Parse Expr := do
  let target ← logicOr expression levels
  match ← accept .equal with
  | none => return target
  | some sign =>
    let value ← expression
    match target with
    | .var name _ => return .assign name value
    | .getAttr object name => return .setAttr object name value
    | _ => fail (.invalidAssignmentTarget sign.position)

end

/-- An expression with this many levels left for it. -/
def expression : Nat → Parse Expr
  | 0 => unexpected .shallowNesting
  | levels + 1 => fun input => assignment (expression levels) levels input

end Parse

end LoxFrontEnd
