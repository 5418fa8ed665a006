import LoxFrontEnd.Resolve.Tree

/-!
Checks restore the state. Expressions and functions leave it as it is, and statements change nothing
but the innermost scope, whether they succeed or fail. So a resolver keeps nothing from one program to
the next, and the declarations of a program are checked apart.
-/

namespace LoxFrontEnd

namespace Resolve

variable {α β : Type}

/-- The state that a check ends in, whether it succeeds or fails. -/
def after (check : Resolve α) (r : Resolver) : Resolver :=
  match check r with
  | .ok _ last => last
  | .error _ last => last

/-- A check leaves a state that is related to the one it begins in. -/
def Leaves (R : Resolver → Resolver → Prop) (check : Resolve α) : Prop :=
  ∀ r, R r (check.after r)

/-- The same state but for the innermost scope. -/
structure Around (r last : Resolver) : Prop where
  depth : last.scopes.length = r.scopes.length
  outer : last.scopes.tail = r.scopes.tail
  functionKind : last.functionKind = r.functionKind
  classKind : last.classKind = r.classKind

/-- What is kept along one check and the next is kept along both. -/
class Kept (R : Resolver → Resolver → Prop) : Prop where
  refl : ∀ r, R r r
  trans : ∀ {r r' r''}, R r r' → R r' r'' → R r r''

instance : Kept Eq := ⟨Eq.refl, Eq.trans⟩

instance : Kept Around where
  refl _ := ⟨rfl, rfl, rfl, rfl⟩
  trans first second := ⟨second.depth.trans first.depth, second.outer.trans first.outer,
    second.functionKind.trans first.functionKind, second.classKind.trans first.classKind⟩

section Leaves

variable {R : Resolver → Resolver → Prop} [Kept R] {check : Resolve α} {r last : Resolver}

theorem after_of_ok {a : α} (run : check r = .ok a last) : check.after r = last := by
  rw [after, run]

theorem after_of_error {e : ResolveError} (run : check r = .error e last) : check.after r = last := by
  rw [after, run]

theorem leaves_pure (a : α) : Leaves R (pure a : Resolve α) := Kept.refl

theorem leaves_throw (e : ResolveError) : Leaves R (throw e : Resolve α) := Kept.refl

theorem leaves_get : Leaves Eq (get : Resolve Resolver) := fun _ => rfl

theorem Leaves.bind {next : α → Resolve β}
    (first : Leaves R check) (onward : ∀ a, Leaves R (next a)) : Leaves R (check >>= next) := by
  intro r
  have begun := first r
  rcases run : check r with ⟨a, middle⟩ | ⟨e, last⟩
  · have same : (check >>= next).after r = (next a).after middle := by rw [after, bind_of_ok run, after]
    rw [after_of_ok run] at begun
    exact same ▸ Kept.trans begun (onward a middle)
  · rw [after_of_error run] at begun
    exact after_of_error (bind_of_error run) ▸ begun

/-- A check that leaves the state as it is. -/
theorem Leaves.around (still : Leaves Eq check) : Leaves Around check :=
  fun r => still r ▸ Kept.refl r

theorem leaves_throw_if (broken : Prop) [Decidable broken] (e : ResolveError) :
    Leaves R (if broken then throw e else pure () : Resolve Unit) := by
  split
  · exact leaves_throw e
  · exact leaves_pure ()

theorem Leaves.unless {next : Resolve α} (onward : Leaves R next) (broken : Prop) [Decidable broken]
    (e : ResolveError) :
    Leaves R (do
      if broken then throw e
      next) := by
  split
  · exact (leaves_throw e).bind fun _ => onward
  · exact onward

end Leaves

section Unit

variable {check : Resolve Unit}

theorem within_after (enter : Resolver → Resolver) (leave : Resolver → Resolver → Resolver) (r : Resolver) :
    (within enter leave check).after r = leave r (check.after (enter r)) := by
  rw [after, after, within]
  cases check (enter r) <;> rfl

/-- A scope that is left takes what was declared in it with it. -/
theorem Leaves.inScope (leaves : Leaves Around check) : Leaves Eq (inScope check) := by
  intro r
  obtain ⟨-, outer, functionKind, classKind⟩ := leaves { r with scopes := [] :: r.scopes }
  rw [Resolve.inScope, within_after, outer, functionKind, classKind]
  rfl

theorem Leaves.inFunction (still : Leaves Eq check) (kind : FunctionKind) :
    Leaves Eq (inFunction kind check) := by
  intro r
  rw [Resolve.inFunction, within_after, ← still]

theorem Leaves.inClass (still : Leaves Eq check) (kind : ClassKind) : Leaves Eq (inClass kind check) := by
  intro r
  rw [Resolve.inClass, within_after, ← still]

theorem leaves_declare (name : String) (line : Nat) : Leaves Around (declare name line) := by
  intro r
  have run := declare_run name line r
  cases scopes : r.scopes with
  | nil =>
    rw [scopes] at run
    rw [after_of_ok run]
    exact Kept.refl r
  | cons scope outer =>
    rw [scopes] at run
    dsimp only at run
    by_cases taken : (scope.lookup name).isSome
    · rw [if_pos taken] at run
      rw [after_of_error run]
      exact Kept.refl r
    · rw [if_neg taken] at run
      rw [after_of_ok run]
      exact ⟨by rw [scopes]; rfl, by rw [scopes]; rfl, rfl, rfl⟩

theorem leaves_define (name : String) : Leaves Around (define name) := by
  intro r
  have run := define_run name r
  cases scopes : r.scopes with
  | nil =>
    rw [scopes] at run
    rw [after_of_ok run]
    exact Kept.refl r
  | cons scope outer =>
    rw [scopes] at run
    rw [after_of_ok run]
    exact ⟨by rw [scopes]; rfl, by rw [scopes]; rfl, rfl, rfl⟩

theorem leaves_status? (name : String) : Leaves Eq (status? name) := by
  intro r
  obtain ⟨_ | ⟨scope, outer⟩, functionKind, classKind⟩ := r <;> rfl

end Unit

end Resolve

open Resolve

namespace Expr

mutual

theorem leaves_resolve : ∀ e : Expr, Leaves Eq e.resolve
  | .literal _ => leaves_pure ()
  | .var name line => (leaves_status? name).bind fun _ => leaves_throw_if _ _
  | .assign _ value => leaves_resolve value
  | .getAttr object _ => leaves_resolve object
  | .setAttr object _ value => (leaves_resolve value).bind fun _ => leaves_resolve object
  | .logical _ left right => (leaves_resolve left).bind fun _ => leaves_resolve right
  | .binary _ left right => (leaves_resolve left).bind fun _ => leaves_resolve right
  | .unary _ operand => leaves_resolve operand
  | .call callee arguments => (leaves_resolve callee).bind fun _ => leaves_resolveAll arguments
  | .thisRef line => leaves_get.bind fun _ => leaves_throw_if _ _
  | .superRef _ line => by
    refine leaves_get.bind fun r => ?_
    cases r.classKind with
    | none => exact leaves_throw _
    | base => exact leaves_throw _
    | derived => exact leaves_pure ()
  | .grouping inner => leaves_resolve inner

theorem leaves_resolveAll : ∀ es : List Expr, Leaves Eq (resolveAll es)
  | [] => leaves_pure ()
  | e :: es => (leaves_resolve e).bind fun _ => leaves_resolveAll es

end

theorem leaves_resolveOption (o : Option Expr) : Leaves Eq (resolveOption o) := by
  cases o with
  | none => exact leaves_pure ()
  | some e => exact e.leaves_resolve

end Expr

theorem leaves_parameters (ps : List Parameter) : Leaves Around (ps.forM Parameter.resolve) := by
  induction ps with
  | nil => exact leaves_pure _
  | cons p ps ih =>
    have first : Leaves Around p.resolve :=
      (leaves_declare p.name p.line).bind fun _ => leaves_define p.name
    exact first.bind fun _ => ih

namespace Stmt

mutual

theorem leaves_resolve : ∀ s : Stmt, Leaves Around s.resolve
  | .expr e => e.leaves_resolve.around
  | .print e => e.leaves_resolve.around
  | .ret value _ =>
    Leaves.around <| leaves_get.bind fun _ => ((Expr.leaves_resolveOption value).unless _ _).unless _ _
  | .block body => (leaves_resolveAll body).inScope.around
  | .ifElse condition thenBranch none =>
    condition.leaves_resolve.around.bind fun _ => leaves_resolve thenBranch
  | .ifElse condition thenBranch (some elseBranch) =>
    condition.leaves_resolve.around.bind fun _ =>
      (leaves_resolve thenBranch).bind fun _ => leaves_resolve elseBranch
  | .whileLoop condition body =>
    condition.leaves_resolve.around.bind fun _ => leaves_resolve body
  | .varDecl name initializer line =>
    (leaves_declare name line).bind fun _ =>
      (Expr.leaves_resolveOption initializer).around.bind fun _ => leaves_define name
  | .funDecl function =>
    (leaves_declare _ _).bind fun _ => (leaves_define _).bind fun _ =>
      (leaves_resolveFunction .function function).around
  | .classDecl name _ methods line =>
    (leaves_declare name line).bind fun _ => (leaves_define name).bind fun _ =>
      ((leaves_resolveMethods methods).inClass _).around.unless _ _

theorem leaves_resolveAll : ∀ ss : List Stmt, Leaves Around (resolveAll ss)
  | [] => leaves_pure ()
  | s :: ss => (leaves_resolve s).bind fun _ => leaves_resolveAll ss

theorem leaves_resolveFunction (kind : FunctionKind) : ∀ f : Function, Leaves Eq (resolveFunction kind f)
  | ⟨_, parameters, body, _⟩ =>
    (((leaves_parameters parameters).bind fun _ => leaves_resolveAll body).inScope).inFunction kind

theorem leaves_resolveMethods : ∀ fs : List Function, Leaves Eq (resolveMethods fs)
  | [] => leaves_pure ()
  | f :: fs => (leaves_resolveFunction f.methodKind f).bind fun _ => leaves_resolveMethods fs

end

end Stmt

namespace Resolver

theorem eq_top_of_around {r : Resolver} (around : Around top r) : r = top := by
  obtain ⟨scopes, functionKind, classKind⟩ := r
  obtain ⟨depth, -, rfl, rfl⟩ := around
  obtain rfl : scopes = [] := List.length_eq_zero_iff.mp depth
  rfl

/-- What is checked outside of every scope, function and class ends there as well. -/
theorem top_cases {check : Resolve Unit} (leaves : Leaves Around check) :
    check top = .ok () top ∨ ∃ e, check top = .error e top := by
  have around := leaves top
  rcases run : check top with ⟨_, last⟩ | ⟨e, last⟩
  · rw [after_of_ok run] at around
    rw [eq_top_of_around around]
    exact Or.inl rfl
  · rw [after_of_error run] at around
    rw [eq_top_of_around around]
    exact Or.inr ⟨e, rfl⟩

theorem check_of_ok {ss : List Stmt} (run : Stmt.resolveAll ss top = .ok () top) :
    top.check ⟨ss⟩ = (.ok (), top) := by
  rw [check, Program.resolve, run]

theorem check_of_error {ss : List Stmt} {e : ResolveError} (run : Stmt.resolveAll ss top = .error e top) :
    top.check ⟨ss⟩ = (.error e, top) := by
  rw [check, Program.resolve, run]

/-- The answer for a declaration that is a program by itself. -/
def alone (s : Stmt) : Except ResolveError Unit := (top.check ⟨[s]⟩).1

/-- Declarations are checked apart: the first one decides unless it is right. -/
theorem check_cons (s : Stmt) (ss : List Stmt) :
    (top.check ⟨s :: ss⟩).1 = (alone s >>= fun _ => (top.check ⟨ss⟩).1) := by
  rcases top_cases s.leaves_resolve with run | ⟨e, run⟩
  · have right : alone s = .ok () := by rw [alone, check_of_ok (bind_of_ok run)]
    have onward : Stmt.resolveAll (s :: ss) top = Stmt.resolveAll ss top := bind_of_ok run
    rw [right, check, check, Program.resolve, Program.resolve, onward]
    rfl
  · have wrong : alone s = .error e := by rw [alone, check_of_error (bind_of_error run)]
    rw [wrong, check_of_error (bind_of_error run)]
    rfl

theorem check_eq_ok_iff (ss : List Stmt) : (top.check ⟨ss⟩).1 = .ok () ↔ ∀ s ∈ ss, alone s = .ok () := by
  induction ss with
  | nil => exact iff_of_true rfl fun _ member => absurd member List.not_mem_nil
  | cons s ss ih =>
    rw [check_cons, List.forall_mem_cons, ← ih]
    cases alone s with
    | ok => exact (and_iff_right rfl).symm
    | error => exact iff_of_false nofun nofun

theorem check_eq_error_iff (ss : List Stmt) (e : ResolveError) : (top.check ⟨ss⟩).1 = .error e ↔
    ∃ before s behind, ss = before ++ s :: behind ∧ (∀ s' ∈ before, alone s' = .ok ()) ∧
      alone s = .error e := by
  induction ss with
  | nil => exact iff_of_false nofun fun ⟨before, s, behind, split, _⟩ => by simp at split
  | cons s ss ih =>
    rw [check_cons]
    cases first : alone s with
    | ok =>
      refine ih.trans ⟨?_, ?_⟩
      · rintro ⟨before, s', behind, rfl, right, wrong⟩
        exact ⟨s :: before, s', behind, rfl, List.forall_mem_cons.mpr ⟨first, right⟩, wrong⟩
      · rintro ⟨_ | ⟨s', before⟩, s'', behind, split, right, wrong⟩
        · obtain ⟨rfl, rfl⟩ := List.cons.inj split
          cases first.symm.trans wrong
        · obtain ⟨rfl, rfl⟩ := List.cons.inj split
          exact ⟨before, s'', behind, rfl, (List.forall_mem_cons.mp right).2, wrong⟩
    | error e' =>
      refine ⟨fun same => ⟨[], s, ss, rfl, fun _ member => absurd member List.not_mem_nil,
        first.trans same⟩, ?_⟩
      rintro ⟨_ | ⟨s', before⟩, s'', behind, split, right, wrong⟩
      · obtain ⟨rfl, rfl⟩ := List.cons.inj split
        exact first.symm.trans wrong
      · obtain ⟨rfl, rfl⟩ := List.cons.inj split
        cases first.symm.trans (List.forall_mem_cons.mp right).1

/-- Programs checked one after another by one resolver: each answer, with the state behind it. -/
def checkAll (r : Resolver) : List Program → List (Except ResolveError Unit × Resolver)
  | [] => []
  | p :: ps => r.check p :: (r.check p).2.checkAll ps

theorem check_top_state (p : Program) : (top.check p).2 = top := by
  rcases top_cases (Stmt.leaves_resolveAll p.declarations) with run | ⟨e, run⟩
  · rw [check_of_ok run]
  · rw [check_of_error run]

theorem checkAll_top (ps : List Program) : top.checkAll ps = ps.map fun p => ((top.check p).1, top) := by
  induction ps with
  | nil => rfl
  | cons p ps ih =>
    have first : top.check p = ((top.check p).1, top) := Prod.ext rfl (check_top_state p)
    rw [checkAll, check_top_state, ih, List.map_cons, ← first]

/-- A resolver is as good as new behind every program, whatever was wrong with it. So a program is
right exactly if each of its declarations is right alone, in whatever order, and else the answer is
that of the first declaration that is wrong alone. On the way a statement changes the innermost scope
only, and functions and expressions change nothing, whether they are right or wrong. -/
theorem nothing_kept :
    (∀ ps : List Program, top.checkAll ps = ps.map fun p => ((top.check p).1, ⟨[], .none, .none⟩)) ∧
    (∀ ss : List Stmt, ((top.check ⟨ss⟩).1 = .ok () ↔ ∀ s ∈ ss, (top.check ⟨[s]⟩).1 = .ok ()) ∧
      ∀ e, (top.check ⟨ss⟩).1 = .error e ↔ ∃ before s behind, ss = before ++ s :: behind ∧
        (∀ s' ∈ before, (top.check ⟨[s']⟩).1 = .ok ()) ∧ (top.check ⟨[s]⟩).1 = .error e) ∧
    (∀ ss ss' : List Stmt, ss.Perm ss' → ((top.check ⟨ss⟩).1 = .ok () ↔ (top.check ⟨ss'⟩).1 = .ok ())) ∧
    (∀ s : Stmt, Leaves Around s.resolve) ∧ (∀ kind f, Leaves Eq (Stmt.resolveFunction kind f)) ∧
    ∀ e : Expr, Leaves Eq e.resolve := by
  refine ⟨checkAll_top, fun ss => ⟨check_eq_ok_iff ss, check_eq_error_iff ss⟩, fun ss ss' shuffled => ?_,
    Stmt.leaves_resolve, Stmt.leaves_resolveFunction, Expr.leaves_resolve⟩
  rw [check_eq_ok_iff, check_eq_ok_iff]
  exact forall_congr' fun s => imp_congr_left shuffled.mem_iff

/-- A check that fails within a method leaves no class behind for the next one, in either order. -/
theorem nothing_kept_method :
    let inside : Stmt := .classDecl "A" none [⟨"init", [], [.ret (some (.thisRef 1)) 1], 1⟩] 1
    let outside : Stmt := .expr (.thisRef 2)
    [inside, outside].Perm [outside, inside] ∧
      top.checkAll [⟨[inside]⟩, ⟨[outside]⟩] = [(.error (.valueFromInitializer 1), ⟨[], .none, .none⟩),
        (.error (.thisOutsideClass 2), ⟨[], .none, .none⟩)] ∧
      ((top.check ⟨[inside, outside]⟩).1 = .ok () ↔ (top.check ⟨[outside, inside]⟩).1 = .ok ()) := by
  intro inside outside
  obtain ⟨each, -, shuffled, -⟩ := nothing_kept
  have swap : [inside, outside].Perm [outside, inside] := .swap outside inside []
  exact ⟨swap, each _, shuffled _ _ swap⟩

end Resolver

end LoxFrontEnd
