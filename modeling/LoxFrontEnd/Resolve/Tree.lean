import LoxFrontEnd.Resolve.Basic
import LoxFrontEnd.Tree

/-!
The static checks of a tree, from the first declaration to the last. The first mistake that is
met ends them.
-/

namespace LoxFrontEnd

namespace Expr

mutual

/-- A value is checked before the object whose property it becomes. -/
def resolve : Expr → Resolve Unit
  | .literal _ => return ()
  | .var name line => do
    if (← Resolve.status? name) = some .declared then throw (.selfReference line name)
  | .assign _ value => value.resolve
  | .getAttr object _ => object.resolve
  | .setAttr object _ value => do
    value.resolve
    object.resolve
  | .logical _ left right | .binary _ left right => do
    left.resolve
    right.resolve
  | .unary _ operand => operand.resolve
  | .call callee arguments => do
    callee.resolve
    resolveAll arguments
  | .thisRef line => do
    if (← get).classKind = .none then throw (.thisOutsideClass line)
  | .superRef _ line => do
    match (← get).classKind with
    | .none => throw (.superOutsideClass line)
    | .base => throw (.superWithoutSuperclass line)
    | .derived => return ()
  | .grouping inner => inner.resolve

def resolveAll : List Expr → Resolve Unit
  | [] => return ()
  | e :: es => do
    e.resolve
    resolveAll es

end

/-- An optional part is checked where there is one. -/
def resolveOption : Option Expr → Resolve Unit
  | none => return ()
  | some e => e.resolve

end Expr

/-- A parameter has a value from the beginning. -/
def Parameter.resolve (p : Parameter) : Resolve Unit := do
  Resolve.declare p.name p.line
  Resolve.define p.name

/-- The method `init` sets up an object. -/
def Function.methodKind (f : Function) : FunctionKind :=
  if f.name = "init" then .initializer else .method

namespace Stmt

mutual

def resolve : Stmt → Resolve Unit
  | .expr e | .print e => e.resolve
  | .ret value line => do
    let kind := (← get).functionKind
    if kind = .none then throw (.returnOutsideFunction line)
    if value.isSome ∧ kind = .initializer then throw (.valueFromInitializer line)
    Expr.resolveOption value
  | .block body => Resolve.inScope (resolveAll body)
  | .ifElse condition thenBranch none => do
    condition.resolve
    thenBranch.resolve
  | .ifElse condition thenBranch (some elseBranch) => do
    condition.resolve
    thenBranch.resolve
    elseBranch.resolve
  | .whileLoop condition body => do
    condition.resolve
    body.resolve
  | .varDecl name initializer line => do
    Resolve.declare name line
    Expr.resolveOption initializer
    Resolve.define name
  | .funDecl function => do
    Resolve.declare function.name function.line
    Resolve.define function.name
    resolveFunction .function function
  | .classDecl name superclass methods line => do
    Resolve.declare name line
    Resolve.define name
    if superclass = some name then throw (.inheritsFromItself line name)
    Resolve.inClass (.ofSuperclass superclass) (resolveMethods methods)

def resolveAll : List Stmt → Resolve Unit
  | [] => return ()
  | s :: ss => do
    s.resolve
    resolveAll ss

/-- Parameters and the body share one scope. -/
def resolveFunction (kind : FunctionKind) : Function → Resolve Unit
  | ⟨_, parameters, body, _⟩ =>
    Resolve.inFunction kind <| Resolve.inScope do
      parameters.forM Parameter.resolve
      resolveAll body

def resolveMethods : List Function → Resolve Unit
  | [] => return ()
  | f :: fs => do
    resolveFunction f.methodKind f
    resolveMethods fs

end

end Stmt

namespace Program

def resolve (p : Program) : Resolve Unit :=
  Stmt.resolveAll p.declarations

end Program

namespace Resolver

/-- Checks a program, and answers with the first mistake if there is one. -/
def check (r : Resolver) (p : Program) : Except ResolveError Unit × Resolver :=
  match p.resolve r with
  | .ok () after => (.ok (), after)
  | .error e after => (.error e, after)

end Resolver

end LoxFrontEnd
