import LoxFrontEnd.Proofs.Lexical.Grammar
import LoxFrontEnd.Proofs.Tree.CanonicalProgram

/-!
Trees that can be read in a printed form: their names and literals are those that a script can have. A
number that is too large to be finite is printed as `inf`, which is read as a name.
-/

namespace LoxFrontEnd

open Lexical

def IsName (name : String) : Prop := Lexeme (.token .identifier) name.toList

/-- Literals as they can stand in a script. A sign would be an operator of its own. -/
def Literal.Readable : Literal → Prop
  | .number value => value = .infinite false ∨ ∃ units fits, value = .finite false units fits
  | .string text => ∀ c ∈ text.toList, Inside c
  | .bool _ | .nil => True

namespace Expr

mutual

def Readable : Expr → Prop
  | .literal value => value.Readable
  | .var name _ => IsName name
  | .assign name value => IsName name ∧ value.Readable
  | .getAttr object name => object.Readable ∧ IsName name
  | .setAttr object name value => object.Readable ∧ IsName name ∧ value.Readable
  | .logical _ left right | .binary _ left right => left.Readable ∧ right.Readable
  | .unary _ operand => operand.Readable
  | .call callee arguments => callee.Readable ∧ ReadableAll arguments
  | .thisRef _ => True
  | .superRef method _ => IsName method
  | .grouping inner => inner.Readable

def ReadableAll : List Expr → Prop
  | [] => True
  | e :: es => e.Readable ∧ ReadableAll es

end

def OptionReadable : Option Expr → Prop
  | none => True
  | some e => e.Readable

mutual

/-- The tree with a variable named `inf` for each number that is not finite. -/
def nameInfinite : Expr → Expr
  | .literal (.number (.infinite _)) => .var "inf" 0
  | .literal value => .literal value
  | .var name line => .var name line
  | .assign name value => .assign name value.nameInfinite
  | .getAttr object name => .getAttr object.nameInfinite name
  | .setAttr object name value => .setAttr object.nameInfinite name value.nameInfinite
  | .logical op left right => .logical op left.nameInfinite right.nameInfinite
  | .binary op left right => .binary op left.nameInfinite right.nameInfinite
  | .unary op operand => .unary op operand.nameInfinite
  | .call callee arguments => .call callee.nameInfinite (nameInfiniteAll arguments)
  | .thisRef line => .thisRef line
  | .superRef method line => .superRef method line
  | .grouping inner => .grouping inner.nameInfinite

def nameInfiniteAll : List Expr → List Expr
  | [] => []
  | e :: es => e.nameInfinite :: nameInfiniteAll es

end

end Expr

namespace Stmt

mutual

def Readable : Stmt → Prop
  | .expr e | .print e => e.Readable
  | .ret value _ => Expr.OptionReadable value
  | .block body => ReadableAll body
  | .ifElse condition thenBranch none => condition.Readable ∧ thenBranch.Readable
  | .ifElse condition thenBranch (some elseBranch) =>
    condition.Readable ∧ thenBranch.Readable ∧ elseBranch.Readable
  | .whileLoop condition body => condition.Readable ∧ body.Readable
  | .varDecl name initializer _ => IsName name ∧ Expr.OptionReadable initializer
  | .funDecl function => FunctionReadable function
  | .classDecl name superclass methods _ =>
    IsName name ∧ (∀ above ∈ superclass, IsName above) ∧ MethodsReadable methods

def ReadableAll : List Stmt → Prop
  | [] => True
  | s :: ss => s.Readable ∧ ReadableAll ss

def FunctionReadable : Function → Prop
  | ⟨name, parameters, body, _⟩ => IsName name ∧ (∀ p ∈ parameters, IsName p.name) ∧ ReadableAll body

def MethodsReadable : List Function → Prop
  | [] => True
  | f :: fs => FunctionReadable f ∧ MethodsReadable fs

end

mutual

def nameInfinite : Stmt → Stmt
  | .expr e => .expr e.nameInfinite
  | .print e => .print e.nameInfinite
  | .ret value line => .ret (value.map Expr.nameInfinite) line
  | .block body => .block (nameInfiniteAll body)
  | .ifElse condition thenBranch none => .ifElse condition.nameInfinite thenBranch.nameInfinite none
  | .ifElse condition thenBranch (some elseBranch) =>
    .ifElse condition.nameInfinite thenBranch.nameInfinite (some elseBranch.nameInfinite)
  | .whileLoop condition body => .whileLoop condition.nameInfinite body.nameInfinite
  | .varDecl name initializer line => .varDecl name (initializer.map Expr.nameInfinite) line
  | .funDecl function => .funDecl (functionNameInfinite function)
  | .classDecl name superclass methods line => .classDecl name superclass (methodsNameInfinite methods) line

def nameInfiniteAll : List Stmt → List Stmt
  | [] => []
  | s :: ss => s.nameInfinite :: nameInfiniteAll ss

def functionNameInfinite : Function → Function
  | ⟨name, parameters, body, line⟩ => ⟨name, parameters, nameInfiniteAll body, line⟩

def methodsNameInfinite : List Function → List Function
  | [] => []
  | f :: fs => functionNameInfinite f :: methodsNameInfinite fs

end

end Stmt

namespace Program

def Readable (p : Program) : Prop := Stmt.ReadableAll p.declarations

/-- The program with a variable named `inf` for each number that is not finite. -/
def nameInfinite (p : Program) : Program := ⟨Stmt.nameInfiniteAll p.declarations⟩

end Program

end LoxFrontEnd
