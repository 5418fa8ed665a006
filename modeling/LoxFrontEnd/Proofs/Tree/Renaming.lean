import LoxFrontEnd.Tree

/-!
Renaming. A tree with other names in it, the shape and the lines being the same: variables, functions,
parameters, classes, superclasses, methods and properties are renamed alike, and what stands in
strings is no name.
-/

namespace LoxFrontEnd

variable (ρ : String → String)

namespace Expr

mutual

/-- The expression with its variables, properties and methods renamed. What is in a string is no name. -/
def rename : Expr → Expr
  | .literal value => .literal value
  | .var name line => .var (ρ name) line
  | .assign name value => .assign (ρ name) value.rename
  | .getAttr object name => .getAttr object.rename (ρ name)
  | .setAttr object name value => .setAttr object.rename (ρ name) value.rename
  | .logical op left right => .logical op left.rename right.rename
  | .binary op left right => .binary op left.rename right.rename
  | .unary op operand => .unary op operand.rename
  | .call callee arguments => .call callee.rename (renameAll arguments)
  | .thisRef line => .thisRef line
  | .superRef method line => .superRef (ρ method) line
  | .grouping inner => .grouping inner.rename

/-- Arguments, each of them renamed. -/
def renameAll : List Expr → List Expr
  | [] => []
  | e :: es => e.rename :: renameAll es

end

end Expr

/-- The parameter under its other name, on its line. -/
def Parameter.rename (p : Parameter) : Parameter := ⟨ρ p.name, p.line⟩

namespace Stmt

mutual

/-- The statement with the names that it declares and the names in its expressions renamed. Lines stay
as they are. -/
def rename : Stmt → Stmt
  | .expr e => .expr (e.rename ρ)
  | .print e => .print (e.rename ρ)
  | .ret value line => .ret (value.map (Expr.rename ρ)) line
  | .block body => .block (renameAll body)
  | .ifElse condition thenBranch none => .ifElse (condition.rename ρ) thenBranch.rename none
  | .ifElse condition thenBranch (some elseBranch) =>
    .ifElse (condition.rename ρ) thenBranch.rename (some elseBranch.rename)
  | .whileLoop condition body => .whileLoop (condition.rename ρ) body.rename
  | .varDecl name initializer line => .varDecl (ρ name) (initializer.map (Expr.rename ρ)) line
  | .funDecl function => .funDecl (renameFunction function)
  | .classDecl name superclass methods line =>
    .classDecl (ρ name) (superclass.map ρ) (renameMethods methods) line

/-- The statements of a body, each of them renamed. -/
def renameAll : List Stmt → List Stmt
  | [] => []
  | s :: ss => s.rename :: renameAll ss

/-- A function or a method with its own name, its parameters and its body renamed. -/
def renameFunction : Function → Function
  | ⟨name, parameters, body, line⟩ => ⟨ρ name, parameters.map (Parameter.rename ρ), renameAll body, line⟩

/-- The methods of a class, each of them renamed. -/
def renameMethods : List Function → List Function
  | [] => []
  | f :: fs => renameFunction f :: renameMethods fs

end

end Stmt

/-- The program with all names in it renamed, one name alike wherever it stands. -/
def Program.rename (p : Program) : Program := ⟨Stmt.renameAll ρ p.declarations⟩

mutual

theorem Expr.rename_id : ∀ e : Expr, e.rename id = e
  | .literal _ | .var _ _ | .thisRef _ | .superRef _ _ => rfl
  | .assign _ value => by rw [rename, rename_id value, id]
  | .getAttr object _ => by rw [rename, rename_id object, id]
  | .setAttr object _ value => by rw [rename, rename_id object, rename_id value, id]
  | .logical _ left right | .binary _ left right => by rw [rename, rename_id left, rename_id right]
  | .unary _ inner | .grouping inner => by rw [rename, rename_id inner]
  | .call callee arguments => by rw [rename, rename_id callee, renameAll_id arguments]

theorem Expr.renameAll_id : ∀ es : List Expr, renameAll id es = es
  | [] => rfl
  | e :: es => by rw [renameAll, rename_id e, renameAll_id es]

end

theorem Expr.map_rename_id (o : Option Expr) : o.map (rename id) = o := by
  rw [funext rename_id, Option.map_id']

mutual

theorem Stmt.rename_id : ∀ s : Stmt, s.rename id = s
  | .expr e | .print e => by rw [rename, e.rename_id]
  | .ret value _ => by rw [rename, Expr.map_rename_id]
  | .block body => by rw [rename, renameAll_id body]
  | .ifElse condition thenBranch none => by rw [rename, condition.rename_id, rename_id thenBranch]
  | .ifElse condition thenBranch (some elseBranch) => by
    rw [rename, condition.rename_id, rename_id thenBranch, rename_id elseBranch]
  | .whileLoop condition body => by rw [rename, condition.rename_id, rename_id body]
  | .varDecl _ initializer _ => by rw [rename, Expr.map_rename_id, id]
  | .funDecl function => by rw [rename, renameFunction_id function]
  | .classDecl _ superclass methods _ => by rw [rename, Option.map_id, renameMethods_id methods, id, id]

theorem Stmt.renameAll_id : ∀ ss : List Stmt, renameAll id ss = ss
  | [] => rfl
  | s :: ss => by rw [renameAll, rename_id s, renameAll_id ss]

theorem Stmt.renameFunction_id : ∀ f : Function, renameFunction id f = f
  | ⟨_, parameters, body, _⟩ => by
    have same : Parameter.rename id = id := rfl
    rw [renameFunction, same, List.map_id, renameAll_id body, id]

theorem Stmt.renameMethods_id : ∀ fs : List Function, renameMethods id fs = fs
  | [] => rfl
  | f :: fs => by rw [renameMethods, renameFunction_id f, renameMethods_id fs]

end

end LoxFrontEnd
