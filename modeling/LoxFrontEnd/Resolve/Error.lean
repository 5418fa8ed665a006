/-!
Mistakes that the grammar lets through, and how they are told.
-/

namespace LoxFrontEnd

inductive ResolveError where
  /-- A local variable is read in its own initializer. -/
  | selfReference (line : Nat) (name : String)
  /-- A scope has two declarations of one name. -/
  | redeclared (line : Nat) (name : String)
  | returnOutsideFunction (line : Nat)
  | valueFromInitializer (line : Nat)
  | thisOutsideClass (line : Nat)
  | superOutsideClass (line : Nat)
  | superWithoutSuperclass (line : Nat)
  | inheritsFromItself (line : Nat) (name : String)
  deriving DecidableEq, Repr

namespace ResolveError

def line : ResolveError → Nat
  | .selfReference line _ | .redeclared line _ | .returnOutsideFunction line
  | .valueFromInitializer line | .thisOutsideClass line | .superOutsideClass line
  | .superWithoutSuperclass line | .inheritsFromItself line _ => line

/-- The name at fault, if the mistake is about one. -/
def name? : ResolveError → Option String
  | .selfReference _ name | .redeclared _ name | .inheritsFromItself _ name => some name
  | _ => none

/-- The word that the mistake is found at. -/
def subject : ResolveError → String
  | .selfReference _ name | .redeclared _ name | .inheritsFromItself _ name => name
  | .returnOutsideFunction _ | .valueFromInitializer _ => "return"
  | .thisOutsideClass _ => "this"
  | .superOutsideClass _ | .superWithoutSuperclass _ => "super"

def reason : ResolveError → String
  | .selfReference .. => "Can't read local variable in its own initializer."
  | .redeclared .. => "Already a variable with this name in this scope."
  | .returnOutsideFunction _ => "Can't return from top-level code."
  | .valueFromInitializer _ => "Can't return a value from an initializer."
  | .thisOutsideClass _ => "Can't use 'this' outside of a class."
  | .superOutsideClass _ => "Can't use 'super' outside of a class."
  | .superWithoutSuperclass _ => "Can't use 'super' in a class with no superclass."
  | .inheritsFromItself .. => "A class can't inherit from itself."

def message (e : ResolveError) : String :=
  "[line " ++ toString e.line ++ "] Error at '" ++ e.subject ++ "': " ++ e.reason

end ResolveError

end LoxFrontEnd
