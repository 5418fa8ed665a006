import LoxFrontEnd.Number.Binary64

/-!
Trees of a script: expressions, statements and programs. Nodes that later checks may report keep
the line of the token that names them.
-/

namespace LoxFrontEnd

inductive UnaryOp where
  | minus | not
  deriving DecidableEq, Repr

inductive LogicalOp where
  | or | and
  deriving DecidableEq, Repr

inductive BinaryOp where
  | plus | minus | multiply | divide
  | equal | notEqual | greater | greaterEqual | less | lessEqual
  deriving DecidableEq, Repr

inductive Literal where
  | number (value : Binary64)
  | string (text : String)
  | bool (value : Bool)
  | nil
  deriving DecidableEq

inductive Expr where
  | literal (value : Literal)
  | var (name : String) (line : Nat)
  | assign (name : String) (value : Expr)
  | getAttr (object : Expr) (name : String)
  | setAttr (object : Expr) (name : String) (value : Expr)
  | logical (op : LogicalOp) (left right : Expr)
  | binary (op : BinaryOp) (left right : Expr)
  | unary (op : UnaryOp) (operand : Expr)
  | call (callee : Expr) (arguments : List Expr)
  | thisRef (line : Nat)
  /-- A method of the superclass. Calling it is a node of its own. -/
  | superRef (method : String) (line : Nat)
  | grouping (inner : Expr)
  deriving BEq, Inhabited

structure Parameter where
  name : String
  line : Nat
  deriving DecidableEq

mutual

/-- Declarations are statements as well. There is no node for a `for` loop. -/
inductive Stmt where
  | expr (e : Expr)
  | print (e : Expr)
  | ret (value : Option Expr) (line : Nat)
  | block (body : List Stmt)
  | ifElse (condition : Expr) (thenBranch : Stmt) (elseBranch : Option Stmt)
  | whileLoop (condition : Expr) (body : Stmt)
  | varDecl (name : String) (initializer : Option Expr) (line : Nat)
  | funDecl (function : Function)
  | classDecl (name : String) (superclass : Option String) (methods : List Function) (line : Nat)

/-- A named function: one declared by `fun`, or a method. -/
structure Function where
  name : String
  parameters : List Parameter
  body : List Stmt
  line : Nat

end

deriving instance BEq for Stmt, Function

instance : Inhabited Stmt := ⟨.block []⟩

structure Program where
  declarations : List Stmt
  deriving BEq

end LoxFrontEnd
