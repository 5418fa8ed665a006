import LoxFrontEnd.Parse.Error
import LoxFrontEnd.Resolve.Error
import LoxFrontEnd.Tree

/-!
The static rules of the language, apart from any way to check them. A tree mentions names, `return`,
`this`, `super` and superclasses at sites, each with what stands around it. The sites of a tree come in
the order in which it is walked, and a rule is about one site at a time.
-/

namespace LoxFrontEnd

/-- What stands around a place in a tree. -/
structure Surroundings where
  /-- The innermost function or method around it, with its name. -/
  routine : Option (Routine × String)
  /-- The innermost class around it, with its superclass if it has one. -/
  enclosing : Option (Option String)
  /-- The names declared so far in the local scope that it stands in. -/
  scope : Option (List String)
  /-- The variable whose initializer it stands in. -/
  initializing : Option String

/-- Outside of every routine, class and local scope. -/
def Surroundings.outermost : Surroundings := ⟨none, none, none, none⟩

/-- Further on in the same scope, behind declarations of these names. -/
def Surroundings.behind (around : Surroundings) (names : List String) : Surroundings :=
  { around with scope := around.scope.map (· ++ names) }

/-- In a local scope of its own, without any name yet. -/
def Surroundings.inner (around : Surroundings) : Surroundings :=
  { around with scope := some [] }

/-- What is done with a name, or with a keyword that does not stand everywhere. -/
inductive Mention where
  | declares (name : String) (line : Nat)
  | reads (name : String) (line : Nat)
  | returns (valued : Bool) (line : Nat)
  | inherits (name superclass : String) (line : Nat)
  | this (line : Nat)
  | super (line : Nat)

/-- A mention and what is around it. -/
structure Site where
  around : Surroundings
  mention : Mention

/-- What a site does against the rules. -/
inductive Site.Breaks : Site → ResolveError → Prop
  /-- A local scope has one declaration of a name. -/
  | redeclared {around : Surroundings} {names name line} : around.scope = some names → name ∈ names →
      Breaks ⟨around, .declares name line⟩ (.redeclared line name)
  /-- A local variable is not read in its own initializer. -/
  | selfReference {around : Surroundings} {names name line} : around.scope = some names →
      around.initializing = some name → Breaks ⟨around, .reads name line⟩ (.selfReference line name)
  | returnOutsideFunction {around : Surroundings} {valued line} : around.routine = none →
      Breaks ⟨around, .returns valued line⟩ (.returnOutsideFunction line)
  | valueFromInitializer {around : Surroundings} {line} : around.routine = some (.method, "init") →
      Breaks ⟨around, .returns true line⟩ (.valueFromInitializer line)
  | thisOutsideClass {around : Surroundings} {line} : around.enclosing = none →
      Breaks ⟨around, .this line⟩ (.thisOutsideClass line)
  | superOutsideClass {around : Surroundings} {line} : around.enclosing = none →
      Breaks ⟨around, .super line⟩ (.superOutsideClass line)
  | superWithoutSuperclass {around : Surroundings} {line} : around.enclosing = some none →
      Breaks ⟨around, .super line⟩ (.superWithoutSuperclass line)
  | inheritsFromItself {around : Surroundings} {name line} :
      Breaks ⟨around, .inherits name name line⟩ (.inheritsFromItself line name)

/-- No site breaks a rule. -/
def Clean (sites : List Site) : Prop := ∀ site ∈ sites, ∀ e, ¬ site.Breaks e

/-- The first site that breaks a rule does so with this error. -/
def FirstMistake (sites : List Site) (e : ResolveError) : Prop :=
  ∃ before site after, sites = before ++ site :: after ∧ Clean before ∧ site.Breaks e

namespace Expr

mutual

/-- The value of an assignment to a property comes before the object. -/
def sites (around : Surroundings) : Expr → List Site
  | .literal _ => []
  | .var name line => [⟨around, .reads name line⟩]
  | .assign _ value => value.sites around
  | .getAttr object _ => object.sites around
  | .setAttr object _ value => value.sites around ++ object.sites around
  | .logical _ left right | .binary _ left right => left.sites around ++ right.sites around
  | .unary _ operand => operand.sites around
  | .call callee arguments => callee.sites around ++ allSites around arguments
  | .thisRef line => [⟨around, .this line⟩]
  | .superRef _ line => [⟨around, .super line⟩]
  | .grouping inner => inner.sites around

def allSites (around : Surroundings) : List Expr → List Site
  | [] => []
  | e :: es => e.sites around ++ allSites around es

end

def optionSites (around : Surroundings) : Option Expr → List Site
  | none => []
  | some e => e.sites around

end Expr

/-- One parameter behind another, all in the scope of the body. -/
def parameterSites (around : Surroundings) : List Parameter → List Site
  | [] => []
  | p :: ps => ⟨around, .declares p.name p.line⟩ :: parameterSites (around.behind [p.name]) ps

namespace Stmt

/-- The names that a statement declares in the scope it stands in. Branches stand in that scope as well. -/
def declared : Stmt → List String
  | .varDecl name _ _ | .classDecl name _ _ _ => [name]
  | .funDecl function => [function.name]
  | .ifElse _ thenBranch none => thenBranch.declared
  | .ifElse _ thenBranch (some elseBranch) => thenBranch.declared ++ elseBranch.declared
  | .whileLoop _ body => body.declared
  | .expr _ | .print _ | .ret _ _ | .block _ => []

mutual

def sites (around : Surroundings) : Stmt → List Site
  | .expr e | .print e => e.sites around
  | .ret value line => ⟨around, .returns value.isSome line⟩ :: Expr.optionSites around value
  | .block body => allSites around.inner body
  | .ifElse condition thenBranch none => condition.sites around ++ thenBranch.sites around
  | .ifElse condition thenBranch (some elseBranch) =>
    condition.sites around ++
      (thenBranch.sites around ++ elseBranch.sites (around.behind thenBranch.declared))
  | .whileLoop condition body => condition.sites around ++ body.sites around
  | .varDecl name initializer line =>
    ⟨around, .declares name line⟩ :: Expr.optionSites { around with initializing := some name } initializer
  | .funDecl function =>
    ⟨around, .declares function.name function.line⟩ :: functionSites around .function function
  | .classDecl name superclass methods line =>
    ⟨around, .declares name line⟩ ::
      (superclass.toList.map (fun above => ⟨around, .inherits name above line⟩) ++
        methodSites { around with enclosing := some superclass } methods)

/-- The names that a statement declares stand in front of the next one. -/
def allSites (around : Surroundings) : List Stmt → List Site
  | [] => []
  | s :: ss => s.sites around ++ allSites (around.behind s.declared) ss

/-- Parameters and the body share one scope. -/
def functionSites (around : Surroundings) (routine : Routine) : Function → List Site
  | ⟨name, parameters, body, _⟩ =>
    let inside := { around.inner with routine := some (routine, name) }
    parameterSites inside parameters ++ allSites (inside.behind (parameters.map Parameter.name)) body

def methodSites (around : Surroundings) : List Function → List Site
  | [] => []
  | f :: fs => functionSites around .method f ++ methodSites around fs

end

end Stmt

/-- All sites of a program, in the order of the walk. -/
def Program.sites (p : Program) : List Site :=
  Stmt.allSites .outermost p.declarations

end LoxFrontEnd
