import LoxFrontEnd.Tree
import LoxFrontEnd.Number.Text

/-!
Trees are shown as nested forms in parentheses, the operator or the name of the construct first.
A program has one line for each top-level declaration.
-/

namespace LoxFrontEnd

/-- A word, or a group of forms. -/
inductive Form where
  | atom (word : String)
  | group (parts : List Form)

namespace Form

mutual

/-- A group is written in parentheses, with one blank between its parts. -/
def text : Form → String
  | .atom word => word
  | .group parts => "(" ++ texts parts ++ ")"

def texts : List Form → String
  | [] => ""
  | [part] => part.text
  | part :: next :: parts => part.text ++ " " ++ texts (next :: parts)

end

end Form

def UnaryOp.text : UnaryOp → String
  | .minus => "-"
  | .not => "!"

def LogicalOp.text : LogicalOp → String
  | .or => "or"
  | .and => "and"

def BinaryOp.text : BinaryOp → String
  | .plus => "+"
  | .minus => "-"
  | .multiply => "*"
  | .divide => "/"
  | .equal => "=="
  | .notEqual => "!="
  | .greater => ">"
  | .greaterEqual => ">="
  | .less => "<"
  | .lessEqual => "<="

def Literal.text : Literal → String
  | .number value => value.text .plain
  | .string text => "\"" ++ text ++ "\""
  | .bool true => "true"
  | .bool false => "false"
  | .nil => "nil"

namespace Expr

mutual

def form : Expr → Form
  | .literal value => .atom value.text
  | .var name _ => .atom name
  | .assign name value => .group [.atom "=", .atom name, value.form]
  | .getAttr object name => .group [.atom ".", object.form, .atom name]
  | .setAttr object name value =>
    .group [.atom "=", .group [.atom ".", object.form, .atom name], value.form]
  | .logical op left right => .group [.atom op.text, left.form, right.form]
  | .binary op left right => .group [.atom op.text, left.form, right.form]
  | .unary op operand => .group [.atom op.text, operand.form]
  | .call callee arguments => .group (.atom "call" :: callee.form :: forms arguments)
  | .thisRef _ => .atom "this"
  | .superRef method _ => .group [.atom "super", .atom method]
  | .grouping inner => .group [.atom "group", inner.form]

def forms : List Expr → List Form
  | [] => []
  | e :: es => e.form :: forms es

end

def text (e : Expr) : String := e.form.text

end Expr

namespace Stmt

mutual

def form : Stmt → Form
  | .expr e => .group [.atom "expr", e.form]
  | .print e => .group [.atom "print", e.form]
  | .ret none _ => .group [.atom "return"]
  | .ret (some value) _ => .group [.atom "return", value.form]
  | .block body => .group (.atom "block" :: forms body)
  | .ifElse condition thenBranch none =>
    .group [.atom "if", condition.form, thenBranch.form]
  | .ifElse condition thenBranch (some elseBranch) =>
    .group [.atom "if", condition.form, thenBranch.form, elseBranch.form]
  | .whileLoop condition body => .group [.atom "while", condition.form, body.form]
  | .varDecl name none _ => .group [.atom "var", .atom name]
  | .varDecl name (some initializer) _ => .group [.atom "var", .atom name, initializer.form]
  | .funDecl function => functionForm "fun" function
  | .classDecl name none methods _ =>
    .group (.atom "class" :: .atom name :: methodForms methods)
  | .classDecl name (some superclass) methods _ =>
    .group (.atom "class" :: .atom name :: .group [.atom "<", .atom superclass]
      :: methodForms methods)

def forms : List Stmt → List Form
  | [] => []
  | s :: ss => s.form :: forms ss

/-- The parameters stand in a group of their own and the body in a block. -/
def functionForm (keyword : String) : Function → Form
  | ⟨name, parameters, body, _⟩ =>
    .group [.atom keyword, .atom name, .group (parameters.map fun p => .atom p.name),
      .group (.atom "block" :: forms body)]

def methodForms : List Function → List Form
  | [] => []
  | f :: fs => functionForm "method" f :: methodForms fs

end

def text (s : Stmt) : String := s.form.text

end Stmt

namespace Program

def text (p : Program) : String :=
  "\n".intercalate (p.declarations.map Stmt.text)

end Program

end LoxFrontEnd
