import Mathlib.Logic.Equiv.Basic
import LoxFrontEnd.Proofs.Resolve.Check
import LoxFrontEnd.Proofs.Resolve.Mirroring
import LoxFrontEnd.Proofs.Static.LocalScopes

/-!
What the checks do not go by. The scopes around a block or a function have no say in it, and names
have none but that some are the same and others are not.
-/

namespace LoxFrontEnd

open Resolve

namespace Resolve

/-- The check comes to the same end in both states, and leaves each of them as it was. -/
def EndsAlike (check : Resolve Unit) (r r' : Resolver) : Prop :=
  (check r = .ok () r ∧ check r' = .ok () r') ∨ ∃ e, check r = .error e r ∧ check r' = .error e r'

variable {check : Resolve Unit} {r r' : Resolver}

theorem Tracks.endsAlike (tracks : Tracks id False check check) (leaves : Leaves Around check)
    (functions : r'.functionKind = r.functionKind) (classes : r'.classKind = r.classKind) :
    EndsAlike (Resolve.inScope check) r r' := by
  rcases tracks.inScope_cases leaves leaves functions classes with both | ⟨e, fails, fails'⟩
  · exact Or.inl both
  · rw [e.rename_id] at fails'
    exact Or.inr ⟨e, fails, fails'⟩

/-- Inside of a function its own sort counts, and behind it the sort is as it was. -/
theorem EndsAlike.inFunction {kind : FunctionKind}
    (alike : EndsAlike check { r with functionKind := kind } { r' with functionKind := kind }) :
    EndsAlike (Resolve.inFunction kind check) r r' := by
  rcases alike with ⟨ends, ends'⟩ | ⟨e, fails, fails'⟩
  · have run : Resolve.inFunction kind check r = .ok () _ := within_of_ok ends
    have run' : Resolve.inFunction kind check r' = .ok () _ := within_of_ok ends'
    exact Or.inl ⟨run, run'⟩
  · have run : Resolve.inFunction kind check r = .error e _ := within_of_error fails
    have run' : Resolve.inFunction kind check r' = .error e _ := within_of_error fails'
    exact Or.inr ⟨e, run, run'⟩

end Resolve

theorem renames_id : Renames id := ⟨Function.injective_id, rfl⟩

namespace Stmt

theorem tracks_self (eased : Prop) (ss : List Stmt) : Tracks id eased (resolveAll ss) (resolveAll ss) := by
  have tracks := tracks_resolveAll renames_id eased ss
  rwa [renameAll_id] at tracks

theorem block_endsAlike (ss : List Stmt) {r r' : Resolver} (functions : r'.functionKind = r.functionKind)
    (classes : r'.classKind = r.classKind) : EndsAlike (block ss).resolve r r' :=
  (tracks_self False ss).endsAlike (leaves_resolveAll ss) functions classes

theorem function_endsAlike (kind : FunctionKind) (f : Function) {r r' : Resolver}
    (classes : r'.classKind = r.classKind) : EndsAlike (resolveFunction kind f) r r' := by
  obtain ⟨name, parameters, body, line⟩ := f
  have inside : Tracks id False (parameters.forM Parameter.resolve)
      ((parameters.map (Parameter.rename id)).forM Parameter.resolve) :=
    tracks_parameters Function.injective_id parameters
  have same : Parameter.rename id = id := rfl
  rw [same, List.map_id] at inside
  refine EndsAlike.inFunction ((inside.seq (tracks_self False body)).endsAlike ?_ rfl classes)
  exact (leaves_parameters parameters).bind fun _ => leaves_resolveAll body

end Stmt

/-- Outside of every local scope, in a function and a class of these sorts. -/
def Surroundings.ofKinds (f : FunctionKind) (c : ClassKind) : Surroundings where
  routine := match f with
    | .none => none
    | .function => some (.function, "")
    | .method => some (.method, "")
    | .initializer => some (.method, "init")
  enclosing := match c with
    | .none => none
    | .base => some none
    | .derived => some (some "")
  scope := none
  initializing := none

/-- A scope without names is known in any state. -/
theorem Surroundings.inner_matches (scopes : List Scope) (f : FunctionKind) (c : ClassKind) :
    (ofKinds f c).inner.Matches ⟨[] :: scopes, f, c⟩ where
  functionKind := by cases f <;> rfl
  classKind := by cases c <;> rfl
  scope := ⟨[], scopes, rfl, fun _ => rfl⟩

namespace Resolver

variable {r r' : Resolver} {ss : List Stmt}

/-- What is wrong with a block is wrong with it outside of every scope and every initializer as well. -/
theorem first_mistake_of_block {e : ResolveError} (wrong : (Stmt.block ss).resolve r = .error e r) :
    FirstMistake ((Stmt.block ss).sites (.ofKinds r.functionKind r.classKind)) e := by
  have known := Surroundings.inner_matches r.scopes r.functionKind r.classKind
  rcases (Stmt.resolveAll_follows known rfl ss).cases with ⟨last, run, -⟩ | ⟨e', last, run, mistake⟩
  · have right : Resolve.inScope (Stmt.resolveAll ss) r = .ok () _ := within_of_ok run
    cases wrong.symm.trans right
  · have fails : Resolve.inScope (Stmt.resolveAll ss) r = .error e' _ := within_of_error run
    cases wrong.symm.trans fails
    exact mistake

/-- Only two declarations in one scope of the block itself are a mistake. -/
theorem repeated_of_block {line : Nat} {name : String}
    (wrong : (Stmt.block ss).resolve r = .error (.redeclared line name) r) :
    ∃ names ∈ (Stmt.block ss).localScopes, ¬ names.Nodup := by
  obtain ⟨before, site, after, sites, -, breaks⟩ := first_mistake_of_block wrong
  by_contra distinct
  push Not at distinct
  have unrepeated :=
    Stmt.sites_unrepeated.mpr ⟨Surroundings.takes_nil (.ofKinds r.functionKind r.classKind), distinct⟩
  exact unrepeated site (sites ▸ List.mem_append_right _ List.mem_cons_self) line name breaks

/-- Only a variable whose initializer stands in the block itself cannot be read there. -/
theorem initializing_of_block {line : Nat} {name : String}
    (wrong : (Stmt.block ss).resolve r = .error (.selfReference line name) r) :
    ∃ site ∈ (Stmt.block ss).sites (.ofKinds r.functionKind r.classKind),
      site.around.initializing = some name ∧ site.mention = .reads name line := by
  obtain ⟨before, site, after, sites, -, breaks⟩ := first_mistake_of_block wrong
  refine ⟨site, sites ▸ List.mem_append_right _ List.mem_cons_self, ?_⟩
  cases breaks with
  | selfReference _ own => exact ⟨own, rfl⟩

/-- Outside of every scope there is less to go against. -/
theorem check_of_block (right : (Stmt.block ss).resolve r = .ok () r) :
    (check ⟨[], r.functionKind, r.classKind⟩ ⟨ss⟩).1 = .ok () := by
  have eased : Mirrors id True { r with scopes := [] :: r.scopes } ⟨[], r.functionKind, r.classKind⟩ :=
    .eased trivial
  rcases Stmt.tracks_self True ss _ _ eased with ⟨last, last', -, run', -⟩ | ⟨e, last, run, -⟩
  · rw [check, Program.resolve, run']
  · have wrong : Resolve.inScope (Stmt.resolveAll ss) r = .error e _ := within_of_error run
    cases right.symm.trans wrong

/-- The scopes around a block or a function have no say in it. In two states with the same sorts of
function and class it comes to the same end and leaves each state as it was. So a name that is
declared again in it is no mistake, nor is a name read in it that is being initialized around it; and
what is right in a block is right outside of every scope. -/
theorem bodies_stand_apart (functions : r'.functionKind = r.functionKind)
    (classes : r'.classKind = r.classKind) :
    (∀ ss, EndsAlike (Stmt.block ss).resolve r r') ∧
    (∀ kind f, EndsAlike (Stmt.resolveFunction kind f) r r') ∧
    (∀ ss line name, (Stmt.block ss).resolve r = .error (.redeclared line name) r →
      ∃ names ∈ (Stmt.block ss).localScopes, ¬ names.Nodup) ∧
    (∀ ss line name, (Stmt.block ss).resolve r = .error (.selfReference line name) r →
      ∃ site ∈ (Stmt.block ss).sites (.ofKinds r.functionKind r.classKind),
        site.around.initializing = some name ∧ site.mention = .reads name line) ∧
    ∀ ss, (Stmt.block ss).resolve r = .ok () r →
      (check ⟨[], r.functionKind, r.classKind⟩ ⟨ss⟩).1 = .ok () :=
  ⟨fun ss => Stmt.block_endsAlike ss functions classes,
    fun kind f => Stmt.function_endsAlike kind f classes, fun _ _ _ => repeated_of_block,
    fun _ _ _ => initializing_of_block, fun _ => check_of_block⟩

/-- In the initializer of a class, with and without a variable around the block that is being
initialized: the name is read and declared in the block, and only the value that it returns is
wrong. -/
theorem bodies_stand_apart_initializing :
    let r : Resolver := ⟨[[("a", .declared)]], .initializer, .derived⟩
    let r' : Resolver := ⟨[], .initializer, .derived⟩
    let body : Stmt := .block [.print (.var "a" 1), .varDecl "a" none 2, .ret (some (.var "a" 3)) 3]
    r'.functionKind = r.functionKind ∧ r'.classKind = r.classKind ∧
      body.resolve r = .error (.valueFromInitializer 3) r ∧
      body.resolve r' = .error (.valueFromInitializer 3) r' := by
  intro r r' body
  have functions : r'.functionKind = r.functionKind := rfl
  have classes : r'.classKind = r.classKind := rfl
  obtain ⟨blocks, -⟩ := bodies_stand_apart functions classes
  have wrong : body.resolve r = .error (.valueFromInitializer 3) r := rfl
  refine ⟨functions, classes, wrong, ?_⟩
  rcases blocks _ with ⟨right, -⟩ | ⟨e, fails, fails'⟩
  · cases wrong.symm.trans right
  · cases wrong.symm.trans fails
    exact fails'

/-- The names of a program count for nothing but that some are the same and others are not, and that
`init` is the method that sets up an object. -/
theorem check_rename {ρ : String → String} (injective : ρ.Injective) (init : ρ "init" = "init")
    (p : Program) :
    (top.check (p.rename ρ)).1 = (top.check p).1.mapError (ResolveError.rename ρ) := by
  have tracks := Stmt.tracks_resolveAll ⟨injective, init⟩ False p.declarations
  rcases tracks top top .outside with ⟨last, last', run, run', -⟩ | ⟨e, last, run, fails⟩
  · rw [check, check, Program.resolve, Program.resolve, Program.rename, run, run']
    rfl
  · obtain ⟨last', run'⟩ := fails.resolve_left id
    rw [check, check, Program.resolve, Program.resolve, Program.rename, run, run']
    rfl

/-- A parameter that is declared again, with the names of the function and the parameter exchanged. -/
theorem check_rename_exchanged :
    let exchange : String → String := Equiv.swap "f" "a"
    let p : Program := ⟨[.funDecl ⟨"f", [⟨"a", 1⟩], [.varDecl "a" none 2], 1⟩]⟩
    exchange.Injective ∧ exchange "init" = "init" ∧ (top.check p).1 = .error (.redeclared 2 "a") ∧
      (top.check (p.rename exchange)).1 = .error (.redeclared 2 "f") := by
  intro exchange p
  have injective : exchange.Injective := (Equiv.swap "f" "a").injective
  have init : exchange "init" = "init" := Equiv.swap_apply_of_ne_of_ne (by decide) (by decide)
  have wrong : (top.check p).1 = .error (.redeclared 2 "a") := rfl
  refine ⟨injective, init, wrong, ?_⟩
  have name : exchange "a" = "f" := Equiv.swap_apply_right "f" "a"
  rw [check_rename injective init, wrong, ← name]
  rfl

end Resolver

end LoxFrontEnd
