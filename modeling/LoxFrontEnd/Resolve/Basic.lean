import LoxFrontEnd.Resolve.Error

/-!
The state of the static checks: the local scopes around a place, and the sort of function and of
class it stands in. Global names are in no scope, so they may be declared again.
-/

namespace LoxFrontEnd

/-- A local name is declared first, and defined once its initializer is done. -/
inductive Status where
  | declared | defined
  deriving DecidableEq, Repr

/-- The names of one scope. The last entry of a name is in front and counts. -/
abbrev Scope := List (String × Status)

inductive FunctionKind where
  | none | function | method | initializer
  deriving DecidableEq, Repr

inductive ClassKind where
  | none | base | derived
  deriving DecidableEq, Repr

structure Resolver where
  /-- The local scopes, innermost first. -/
  scopes : List Scope
  functionKind : FunctionKind
  classKind : ClassKind
  deriving DecidableEq

/-- Only a derived class has a superclass. -/
def ClassKind.ofSuperclass (superclass : Option String) : ClassKind :=
  if superclass.isSome then .derived else .base

/-- Outside of every scope, function and class. -/
def Resolver.top : Resolver := ⟨[], .none, .none⟩

/-- A check may change the state, also where it fails. -/
abbrev Resolve := EStateM ResolveError Resolver

namespace Resolve

/-- A sequence goes on from where its first check ends well. -/
theorem bind_of_ok {α β : Type} {check : Resolve α} {next : α → Resolve β} {r middle : Resolver} {a : α}
    (first : check r = .ok a middle) : (check >>= next) r = next a middle := by
  show EStateM.bind check next r = _
  rw [EStateM.bind, first]

theorem bind_of_error {α β : Type} {check : Resolve α} {next : α → Resolve β} {r last : Resolver}
    {e : ResolveError} (first : check r = .error e last) : (check >>= next) r = .error e last := by
  show EStateM.bind check next r = _
  rw [EStateM.bind, first]

/-- Enters a name into the innermost scope, where it must be new. -/
def declare (name : String) (line : Nat) : Resolve Unit := do
  match (← get).scopes with
  | [] => return ()
  | scope :: outer =>
    if (scope.lookup name).isSome then throw (.redeclared line name)
    modify fun r => { r with scopes := ((name, .declared) :: scope) :: outer }

def define (name : String) : Resolve Unit :=
  modify fun r =>
    match r.scopes with
    | [] => r
    | scope :: outer => { r with scopes := ((name, .defined) :: scope) :: outer }

theorem declare_run (name : String) (line : Nat) (r : Resolver) :
    declare name line r =
      match r.scopes with
      | [] => .ok () r
      | scope :: outer =>
        if (scope.lookup name).isSome then .error (.redeclared line name) r
        else .ok () { r with scopes := ((name, .declared) :: scope) :: outer } := by
  obtain ⟨scopes, functionKind, classKind⟩ := r
  cases scopes with
  | nil => rfl
  | cons scope outer =>
    have step : declare name line ⟨scope :: outer, functionKind, classKind⟩ =
        (if (scope.lookup name).isSome then throw (.redeclared line name)
          else modify fun r => { r with scopes := ((name, .declared) :: scope) :: outer } : Resolve Unit)
          ⟨scope :: outer, functionKind, classKind⟩ := rfl
    rw [step]
    dsimp only
    by_cases taken : (scope.lookup name).isSome
    · rw [if_pos taken, if_pos taken]
      rfl
    · rw [if_neg taken, if_neg taken]
      rfl

theorem define_run (name : String) (r : Resolver) :
    define name r =
      match r.scopes with
      | [] => .ok () r
      | scope :: outer => .ok () { r with scopes := ((name, .defined) :: scope) :: outer } := by
  rcases r with ⟨_ | ⟨scope, outer⟩, functionKind, classKind⟩ <;> rfl

/-- What the innermost scope says of a name. -/
def status? (name : String) : Resolve (Option Status) := do
  match (← get).scopes with
  | [] => return none
  | scope :: _ => return scope.lookup name

/-- Runs a check in a state of its own. Whether it succeeds or fails, `leave` makes the state behind
it from the one before and the one that it ends in. -/
def within (enter : Resolver → Resolver) (leave : Resolver → Resolver → Resolver)
    (check : Resolve Unit) : Resolve Unit := fun before =>
  match check (enter before) with
  | .ok () after => .ok () (leave before after)
  | .error e after => .error e (leave before after)

/-- Runs a check in a new scope. -/
def inScope : Resolve Unit → Resolve Unit :=
  within (fun r => { r with scopes := [] :: r.scopes })
    (fun _ after => { after with scopes := after.scopes.tail })

def inFunction (kind : FunctionKind) : Resolve Unit → Resolve Unit :=
  within (fun r => { r with functionKind := kind })
    (fun before after => { after with functionKind := before.functionKind })

def inClass (kind : ClassKind) : Resolve Unit → Resolve Unit :=
  within (fun r => { r with classKind := kind })
    (fun before after => { after with classKind := before.classKind })

end Resolve

end LoxFrontEnd
