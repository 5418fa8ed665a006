import LoxFrontEnd.Position
import LoxFrontEnd.Number.Binary64

/-!
Tokens of a script. A token has a kind, the text it was written as and its place. Kinds carry
what a literal means; the text matters for names and for reports only.
-/

namespace LoxFrontEnd

inductive TokenKind where
  | leftParen | rightParen | leftBrace | rightBrace
  | comma | dot | minus | plus | semicolon | slash | star
  | bang | bangEqual | equal | equalEqual | greater | greaterEqual | less | lessEqual
  | kwAnd | kwClass | kwElse | kwFun | kwFor | kwIf | kwNil | kwOr | kwPrint | kwReturn
  | kwSuper | kwThis | kwVar | kwWhile
  | bool (value : Bool)
  | identifier
  | string
  | number (value : Binary64)
  | eof
  deriving DecidableEq, Inhabited

namespace TokenKind

/-- The kind of an operator of two characters. -/
def ofPair? : Char → Char → Option TokenKind
  | '!', '=' => some .bangEqual
  | '=', '=' => some .equalEqual
  | '>', '=' => some .greaterEqual
  | '<', '=' => some .lessEqual
  | _, _ => none

/-- The kind of an operator or a punctuation mark of one character. -/
def ofChar? : Char → Option TokenKind
  | '(' => some .leftParen
  | ')' => some .rightParen
  | '{' => some .leftBrace
  | '}' => some .rightBrace
  | ',' => some .comma
  | '.' => some .dot
  | '-' => some .minus
  | '+' => some .plus
  | ';' => some .semicolon
  | '/' => some .slash
  | '*' => some .star
  | '!' => some .bang
  | '=' => some .equal
  | '>' => some .greater
  | '<' => some .less
  | _ => none

/-- The reserved words. No name is spelled like one of them. -/
def reserved : List (String × TokenKind) :=
  [("and", .kwAnd), ("class", .kwClass), ("else", .kwElse), ("false", .bool false),
    ("fun", .kwFun), ("for", .kwFor), ("if", .kwIf), ("nil", .kwNil), ("or", .kwOr),
    ("print", .kwPrint), ("return", .kwReturn), ("super", .kwSuper), ("this", .kwThis),
    ("true", .bool true), ("var", .kwVar), ("while", .kwWhile)]

/-- The kind of a word: a reserved one, or a name. -/
def ofWord (word : List Char) : TokenKind :=
  (reserved.lookup (String.ofList word)).getD .identifier

/-- The kinds that only a declaration or a statement begins with. -/
def startsStatement : TokenKind → Bool
  | .kwClass | .kwFun | .kwVar | .kwFor | .kwIf | .kwWhile | .kwPrint | .kwReturn => true
  | _ => false

/-- The kinds that carry no value. -/
def plain : List TokenKind :=
  [.leftParen, .rightParen, .leftBrace, .rightBrace, .comma, .dot, .minus, .plus, .semicolon,
    .slash, .star, .bang, .bangEqual, .equal, .equalEqual, .greater, .greaterEqual, .less,
    .lessEqual, .kwAnd, .kwClass, .kwElse, .kwFun, .kwFor, .kwIf, .kwNil, .kwOr, .kwPrint,
    .kwReturn, .kwSuper, .kwThis, .kwVar, .kwWhile, .identifier, .string, .eof]

/-- The name of a kind in reports. -/
def name : TokenKind → String
  | .leftParen => "LeftParen"
  | .rightParen => "RightParen"
  | .leftBrace => "LeftBrace"
  | .rightBrace => "RightBrace"
  | .comma => "Comma"
  | .dot => "Dot"
  | .minus => "Minus"
  | .plus => "Plus"
  | .semicolon => "Semicolon"
  | .slash => "Slash"
  | .star => "Star"
  | .bang => "Bang"
  | .bangEqual => "BangEqual"
  | .equal => "Equal"
  | .equalEqual => "EqualEqual"
  | .greater => "Greater"
  | .greaterEqual => "GreaterEqual"
  | .less => "Less"
  | .lessEqual => "LessEqual"
  | .kwAnd => "And"
  | .kwClass => "Class"
  | .kwElse => "Else"
  | .kwFun => "Fun"
  | .kwFor => "For"
  | .kwIf => "If"
  | .kwNil => "Nil"
  | .kwOr => "Or"
  | .kwPrint => "Print"
  | .kwReturn => "Return"
  | .kwSuper => "Super"
  | .kwThis => "This"
  | .kwVar => "Var"
  | .kwWhile => "While"
  | .bool _ => "Bool"
  | .identifier => "Identifier"
  | .string => "String"
  | .number _ => "Number"
  | .eof => "EOF"

end TokenKind

structure Token where
  kind : TokenKind
  lexeme : String
  position : Position
  deriving DecidableEq, Inhabited

end LoxFrontEnd
