import LoxFrontEnd.Proofs.Resolve.Restoring
import LoxFrontEnd.Proofs.Tree.Renaming

/-!
Two checks side by side. A check looks at the innermost scope and at the sorts of function and class,
and all that it does with names is to compare them. So the check of a renamed tree ends as the check
of the tree does, in a state with the same sorts whose innermost scope is renamed alike, whatever the
scopes around it are. Outside of every scope there is less to go against, so there the check only has
to end well if the other one does.
-/

namespace LoxFrontEnd

variable {ρ : String → String}

/-- The error on the same line about the renamed name, if it is about one. -/
def ResolveError.rename (ρ : String → String) : ResolveError → ResolveError
  | .selfReference line name => .selfReference line (ρ name)
  | .redeclared line name => .redeclared line (ρ name)
  | .inheritsFromItself line name => .inheritsFromItself line (ρ name)
  | e => e

theorem ResolveError.rename_id (e : ResolveError) : e.rename id = e := by
  cases e <;> rfl

/-- The scope with its names renamed, in the same order and with the same states. -/
def Scope.rename (ρ : String → String) (scope : Scope) : Scope :=
  scope.map fun entry => (ρ entry.1, entry.2)

theorem Scope.lookup_rename (injective : ρ.Injective) (scope : Scope) (name : String) :
    (scope.rename ρ).lookup (ρ name) = scope.lookup name := by
  induction scope with
  | nil => rfl
  | cons entry scope ih =>
    have alike : (ρ name == ρ entry.1) = (name == entry.1) := by
      rw [Bool.eq_iff_iff, beq_iff_eq, beq_iff_eq, injective.eq_iff]
    rw [rename, List.map_cons, List.lookup_cons, List.lookup_cons, alike]
    cases name == entry.1 with
    | true => rfl
    | false => exact ih

namespace Resolve

/-- Two states with the same sorts of function and class, the innermost scope of the second one being
that of the first with other names. In an eased comparison the second one may stand outside of every
scope instead. -/
inductive Mirrors (ρ : String → String) (eased : Prop) : Resolver → Resolver → Prop
  | inside {scope : Scope} {outer outer' : List Scope} {f : FunctionKind} {c : ClassKind} :
      Mirrors ρ eased ⟨scope :: outer, f, c⟩ ⟨scope.rename ρ :: outer', f, c⟩
  | outside {f : FunctionKind} {c : ClassKind} : Mirrors ρ eased ⟨[], f, c⟩ ⟨[], f, c⟩
  | eased {scopes : List Scope} {f : FunctionKind} {c : ClassKind} : eased →
      Mirrors ρ eased ⟨scopes, f, c⟩ ⟨[], f, c⟩

namespace Mirrors

variable {eased : Prop} {r r' : Resolver}

theorem functionKind (mirrors : Mirrors ρ eased r r') : r'.functionKind = r.functionKind := by
  cases mirrors <;> rfl

theorem classKind (mirrors : Mirrors ρ eased r r') : r'.classKind = r.classKind := by
  cases mirrors <;> rfl

theorem withFunctionKind (mirrors : Mirrors ρ eased r r') {f f' : FunctionKind} (same : f' = f) :
    Mirrors ρ eased { r with functionKind := f } { r' with functionKind := f' } := by
  subst same
  cases mirrors with
  | inside => exact .inside
  | outside => exact .outside
  | eased isEased => exact .eased isEased

theorem withClassKind (mirrors : Mirrors ρ eased r r') {c c' : ClassKind} (same : c' = c) :
    Mirrors ρ eased { r with classKind := c } { r' with classKind := c' } := by
  subst same
  cases mirrors with
  | inside => exact .inside
  | outside => exact .outside
  | eased isEased => exact .eased isEased

end Mirrors

/-- From such states the second check ends well where the first one does, and in such states again.
Unless the comparison is eased, it fails where the first one does, with the same error but for the
name in it. -/
def Tracks (ρ : String → String) (eased : Prop) (check check' : Resolve Unit) : Prop :=
  ∀ r r', Mirrors ρ eased r r' →
    (∃ last last', check r = .ok () last ∧ check' r' = .ok () last' ∧ Mirrors ρ eased last last') ∨
      ∃ e last, check r = .error e last ∧ (eased ∨ ∃ last', check' r' = .error (e.rename ρ) last')

variable {eased : Prop} {check check' next next' : Resolve Unit}

theorem tracks_pure : Tracks ρ eased (pure ()) (pure ()) :=
  fun r r' mirrors => Or.inl ⟨r, r', rfl, rfl, mirrors⟩

theorem tracks_throw {e e' : ResolveError} (renamed : e' = e.rename ρ) :
    Tracks ρ eased (throw e) (throw e') := by
  subst renamed
  exact fun r r' _ => Or.inr ⟨e, r, rfl, Or.inr ⟨r', rfl⟩⟩

theorem Leaves.ok_still {r last : Resolver} (leaves : Leaves Eq check) (run : check r = .ok () last) :
    check r = .ok () r := by
  obtain rfl : r = last := (leaves r).trans (after_of_ok run)
  exact run

theorem Leaves.error_still {r last : Resolver} {e : ResolveError} (leaves : Leaves Eq check)
    (run : check r = .error e last) : check r = .error e r := by
  obtain rfl : r = last := (leaves r).trans (after_of_error run)
  exact run

theorem Tracks.seq (first : Tracks ρ eased check check') (onward : Tracks ρ eased next next') :
    Tracks ρ eased (check >>= fun _ => next) (check' >>= fun _ => next') := by
  intro r r' mirrors
  rcases first r r' mirrors with ⟨middle, middle', run, run', mirrors'⟩ | ⟨e, last, run, fails⟩
  · rcases onward middle middle' mirrors' with ⟨last, last', ends, ends', still⟩ | ⟨e, last, ends, fails⟩
    · exact Or.inl ⟨last, last', (bind_of_ok run).trans ends, (bind_of_ok run').trans ends', still⟩
    · refine Or.inr ⟨e, last, (bind_of_ok run).trans ends, fails.imp_right ?_⟩
      exact fun ⟨last', ends'⟩ => ⟨last', (bind_of_ok run').trans ends'⟩
  · exact Or.inr ⟨e, last, bind_of_error run, fails.imp_right fun ⟨last', run'⟩ =>
      ⟨last', bind_of_error run'⟩⟩

/-- What goes by the state has to be tracked only in states that are alike. -/
theorem tracks_get {next next' : Resolver → Resolve Unit}
    (onward : ∀ r r', Mirrors ρ eased r r' → Tracks ρ eased (next r) (next' r')) :
    Tracks ρ eased (get >>= next) (get >>= next') :=
  fun r r' mirrors => onward r r' mirrors r r' mirrors

/-- In an eased comparison the first check may throw alone. -/
theorem Tracks.unless (onward : Tracks ρ eased next next') {broken broken' : Prop} [Decidable broken]
    [Decidable broken'] (only : broken' → broken) (also : broken → broken' ∨ eased) {e e' : ResolveError}
    (renamed : e' = e.rename ρ) :
    Tracks ρ eased
      (do
        if broken then throw e
        next)
      (do
        if broken' then throw e'
        next') := by
  by_cases holds : broken
  · rw [if_pos holds]
    by_cases holds' : broken'
    · rw [if_pos holds']
      exact (tracks_throw renamed).seq onward
    · have isEased := (also holds).resolve_left holds'
      exact fun r _ _ => Or.inr ⟨e, r, bind_of_error rfl, Or.inl isEased⟩
  · rw [if_neg holds, if_neg (mt only holds)]
    exact onward

theorem tracks_throw_if {broken broken' : Prop} [Decidable broken] [Decidable broken']
    (only : broken' → broken) (also : broken → broken' ∨ eased) {e e' : ResolveError}
    (renamed : e' = e.rename ρ) :
    Tracks ρ eased (if broken then throw e else pure ()) (if broken' then throw e' else pure ()) :=
  (tracks_pure (ρ := ρ)).unless only also renamed

theorem tracks_define (name : String) : Tracks ρ eased (define name) (define (ρ name)) := by
  intro r r' mirrors
  have run := define_run name r
  have run' := define_run (ρ name) r'
  cases mirrors with
  | inside => exact Or.inl ⟨_, _, run, run', .inside⟩
  | outside => exact Or.inl ⟨_, _, run, run', .outside⟩
  | @eased scopes f c isEased => cases scopes <;> exact Or.inl ⟨_, _, run, run', .eased isEased⟩

section Names

variable (injective : ρ.Injective)
include injective

theorem tracks_declare (name : String) (line : Nat) :
    Tracks ρ eased (declare name line) (declare (ρ name) line) := by
  intro r r' mirrors
  have run := declare_run name line r
  have run' := declare_run (ρ name) line r'
  cases mirrors with
  | @inside scope outer outer' f c =>
    dsimp only at run run'
    rw [scope.lookup_rename injective] at run'
    by_cases taken : (scope.lookup name).isSome
    · rw [if_pos taken] at run run'
      exact Or.inr ⟨_, _, run, Or.inr ⟨_, run'⟩⟩
    · rw [if_neg taken] at run run'
      exact Or.inl ⟨_, _, run, run', .inside⟩
  | outside => exact Or.inl ⟨_, _, run, run', .outside⟩
  | @eased scopes f c isEased =>
    cases scopes with
    | nil => exact Or.inl ⟨_, _, run, run', .eased isEased⟩
    | cons scope outer =>
      dsimp only at run
      split at run
      · exact Or.inr ⟨_, _, run, Or.inl isEased⟩
      · exact Or.inl ⟨_, _, run, run', .eased isEased⟩

theorem tracks_reads (name : String) (line : Nat) :
    Tracks ρ eased (Expr.resolve (.var name line)) (Expr.resolve (.var (ρ name) line)) := by
  intro r r' mirrors
  obtain ⟨status, known⟩ : ∃ status, status? name r = .ok status r := by
    rcases r with ⟨_ | ⟨scope, outer⟩, f, c⟩ <;> exact ⟨_, rfl⟩
  rw [Expr.resolve, Expr.resolve, bind_of_ok known]
  cases mirrors with
  | @inside scope outer outer' f c =>
    obtain rfl : scope.lookup name = status := by cases known; rfl
    have known' : status? (ρ name) ⟨scope.rename ρ :: outer', f, c⟩ =
        .ok (scope.lookup name) ⟨scope.rename ρ :: outer', f, c⟩ := by
      rw [← scope.lookup_rename injective]
      rfl
    rw [bind_of_ok known']
    exact tracks_throw_if id Or.inl rfl _ _ .inside
  | @outside f c =>
    obtain rfl : none = status := by cases known; rfl
    have known' : status? (ρ name) ⟨[], f, c⟩ = .ok none _ := rfl
    rw [bind_of_ok known']
    exact tracks_throw_if id Or.inl rfl _ _ .outside
  | @eased scopes f c isEased =>
    have known' : status? (ρ name) ⟨[], f, c⟩ = .ok none _ := rfl
    rw [bind_of_ok known']
    exact tracks_throw_if nofun (fun _ => Or.inr isEased) rfl _ _ (.eased isEased)

end Names

theorem tracks_this (line : Nat) :
    Tracks ρ eased (Expr.resolve (.thisRef line)) (Expr.resolve (.thisRef line)) := by
  refine tracks_get fun r r' mirrors => ?_
  rw [mirrors.classKind]
  exact tracks_throw_if id Or.inl rfl

theorem tracks_super (method method' : String) (line : Nat) :
    Tracks ρ eased (Expr.resolve (.superRef method line)) (Expr.resolve (.superRef method' line)) := by
  refine tracks_get fun r r' mirrors => ?_
  rw [mirrors.classKind]
  cases r.classKind with
  | none => exact tracks_throw rfl
  | base => exact tracks_throw rfl
  | derived => exact tracks_pure

section Within

variable {enter enter' : Resolver → Resolver} {leave leave' : Resolver → Resolver → Resolver}
  {r last : Resolver}

theorem within_of_ok (run : check (enter r) = .ok () last) :
    within enter leave check r = .ok () (leave r last) := by
  rw [within, run]

theorem within_of_error {e : ResolveError} (run : check (enter r) = .error e last) :
    within enter leave check r = .error e (leave r last) := by
  rw [within, run]

/-- Behind a scope of its own each state is as it was, and what was checked there does not go by the
scopes around it. So the states have to be alike in the sorts of function and class only, and the
comparison need not be eased. -/
theorem Tracks.inScope_cases (tracks : Tracks ρ False check check') (leaves : Leaves Around check)
    (leaves' : Leaves Around check') {r r' : Resolver} (functions : r'.functionKind = r.functionKind)
    (classes : r'.classKind = r.classKind) :
    (inScope check r = .ok () r ∧ inScope check' r' = .ok () r') ∨
      ∃ e, inScope check r = .error e r ∧ inScope check' r' = .error (e.rename ρ) r' := by
  have entered :
      Mirrors ρ False { r with scopes := [] :: r.scopes } { r' with scopes := [] :: r'.scopes } := by
    rw [functions, classes]
    exact .inside
  rcases tracks _ _ entered with ⟨last, last', run, run', -⟩ | ⟨e, last, run, fails⟩
  · exact Or.inl ⟨leaves.inScope.ok_still (within_of_ok run), leaves'.inScope.ok_still (within_of_ok run')⟩
  · obtain ⟨last', run'⟩ := fails.resolve_left id
    exact Or.inr ⟨e, leaves.inScope.error_still (within_of_error run),
      leaves'.inScope.error_still (within_of_error run')⟩

theorem Tracks.inScope (tracks : Tracks ρ False check check') (leaves : Leaves Around check)
    (leaves' : Leaves Around check') : Tracks ρ eased (inScope check) (inScope check') := by
  intro r r' mirrors
  rcases tracks.inScope_cases leaves leaves' mirrors.functionKind mirrors.classKind with
    ⟨ends, ends'⟩ | ⟨e, ends, ends'⟩
  · exact Or.inl ⟨r, r', ends, ends', mirrors⟩
  · exact Or.inr ⟨e, r, ends, Or.inr ⟨r', ends'⟩⟩

theorem Tracks.within (tracks : Tracks ρ eased check check')
    (enters : ∀ r r', Mirrors ρ eased r r' → Mirrors ρ eased (enter r) (enter' r'))
    (leaves : ∀ r r' last last', Mirrors ρ eased r r' → Mirrors ρ eased last last' →
      Mirrors ρ eased (leave r last) (leave' r' last')) :
    Tracks ρ eased (within enter leave check) (within enter' leave' check') := by
  intro r r' mirrors
  rcases tracks _ _ (enters r r' mirrors) with ⟨last, last', run, run', mirrors'⟩ | ⟨e, last, run, fails⟩
  · exact Or.inl ⟨_, _, within_of_ok run, within_of_ok run', leaves r r' last last' mirrors mirrors'⟩
  · exact Or.inr ⟨e, _, within_of_error run, fails.imp_right fun ⟨_, run'⟩ => ⟨_, within_of_error run'⟩⟩

theorem Tracks.inFunction (tracks : Tracks ρ eased check check') (kind : FunctionKind) :
    Tracks ρ eased (inFunction kind check) (inFunction kind check') :=
  tracks.within (fun _ _ mirrors => mirrors.withFunctionKind rfl)
    fun _ _ _ _ mirrors mirrors' => mirrors'.withFunctionKind mirrors.functionKind

theorem Tracks.inClass (tracks : Tracks ρ eased check check') (kind : ClassKind) :
    Tracks ρ eased (inClass kind check) (inClass kind check') :=
  tracks.within (fun _ _ mirrors => mirrors.withClassKind rfl)
    fun _ _ _ _ mirrors mirrors' => mirrors'.withClassKind mirrors.classKind

end Within

end Resolve

open Resolve

namespace Expr

variable {eased : Prop}

mutual

theorem tracks_resolve (injective : ρ.Injective) : ∀ e : Expr, Tracks ρ eased e.resolve (e.rename ρ).resolve
  | .literal _ => tracks_pure
  | .var name line => tracks_reads injective name line
  | .assign _ inner | .getAttr inner _ | .unary _ inner | .grouping inner => tracks_resolve injective inner
  | .setAttr object _ value => (tracks_resolve injective value).seq (tracks_resolve injective object)
  | .logical _ left right | .binary _ left right =>
    (tracks_resolve injective left).seq (tracks_resolve injective right)
  | .call callee arguments => (tracks_resolve injective callee).seq (tracks_resolveAll injective arguments)
  | .thisRef line => tracks_this line
  | .superRef method line => tracks_super method (ρ method) line

theorem tracks_resolveAll (injective : ρ.Injective) :
    ∀ es : List Expr, Tracks ρ eased (resolveAll es) (resolveAll (renameAll ρ es))
  | [] => tracks_pure
  | e :: es => (tracks_resolve injective e).seq (tracks_resolveAll injective es)

end

theorem tracks_resolveOption (injective : ρ.Injective) (o : Option Expr) :
    Tracks ρ eased (resolveOption o) (resolveOption (o.map (rename ρ))) := by
  cases o with
  | none => exact tracks_pure
  | some e => exact tracks_resolve injective e

end Expr

theorem tracks_parameters {eased : Prop} (injective : ρ.Injective) (ps : List Parameter) :
    Tracks ρ eased (ps.forM Parameter.resolve) ((ps.map (Parameter.rename ρ)).forM Parameter.resolve) := by
  induction ps with
  | nil => exact tracks_pure
  | cons p ps ih => exact ((tracks_declare injective p.name p.line).seq (tracks_define p.name)).seq ih

/-- Different names stay different, and the method that sets up an object keeps its name. -/
structure Renames (ρ : String → String) : Prop where
  injective : ρ.Injective
  init : ρ "init" = "init"

theorem Renames.methodKind (renames : Renames ρ) (f : Function) :
    (Stmt.renameFunction ρ f).methodKind = f.methodKind := by
  obtain ⟨name, parameters, body, line⟩ := f
  have same : ρ name = "init" ↔ name = "init" :=
    ⟨fun isInit => renames.injective (isInit.trans renames.init.symm), fun isInit => isInit ▸ renames.init⟩
  rw [Stmt.renameFunction, Function.methodKind, Function.methodKind]
  simp only [same]

theorem Renames.inherits (renames : Renames ρ) (superclass : Option String) (name : String) :
    superclass.map ρ = some (ρ name) ↔ superclass = some name :=
  (Option.map_injective renames.injective).eq_iff' rfl

namespace Stmt

mutual

/-- A renamed statement is checked as the statement is. -/
theorem tracks_resolve (renames : Renames ρ) (eased : Prop) :
    ∀ s : Stmt, Tracks ρ eased s.resolve (s.rename ρ).resolve
  | .expr e | .print e => e.tracks_resolve renames.injective
  | .ret value line => by
    refine tracks_get fun r r' mirrors => ?_
    rw [mirrors.functionKind]
    have onward :
        Tracks ρ eased (Expr.resolveOption value) (Expr.resolveOption (value.map (Expr.rename ρ))) :=
      Expr.tracks_resolveOption renames.injective value
    have valued : (value.map (Expr.rename ρ)).isSome = value.isSome := Option.isSome_map
    refine (onward.unless ?_ ?_ rfl).unless id Or.inl rfl
    · exact And.imp_left valued.symm.trans
    · exact fun ⟨hasValue, inInit⟩ => Or.inl ⟨valued.trans hasValue, inInit⟩
  | .block body =>
    (tracks_resolveAll renames False body).inScope (leaves_resolveAll body)
      (leaves_resolveAll (renameAll ρ body))
  | .ifElse condition thenBranch none =>
    (condition.tracks_resolve renames.injective).seq (tracks_resolve renames eased thenBranch)
  | .ifElse condition thenBranch (some elseBranch) =>
    (condition.tracks_resolve renames.injective).seq
      ((tracks_resolve renames eased thenBranch).seq (tracks_resolve renames eased elseBranch))
  | .whileLoop condition body =>
    (condition.tracks_resolve renames.injective).seq (tracks_resolve renames eased body)
  | .varDecl name initializer line =>
    (tracks_declare renames.injective name line).seq
      ((Expr.tracks_resolveOption renames.injective initializer).seq (tracks_define name))
  | .funDecl ⟨name, parameters, body, line⟩ =>
    (tracks_declare renames.injective name line).seq
      ((tracks_define name).seq
        (tracks_resolveFunction renames eased .function ⟨name, parameters, body, line⟩))
  | .classDecl name superclass methods line => by
    refine (tracks_declare renames.injective name line).seq ((tracks_define name).seq ?_)
    have inherits := renames.inherits superclass name
    refine Tracks.unless ?_ inherits.mp (Or.inl ∘ inherits.mpr) rfl
    have kind : ClassKind.ofSuperclass (superclass.map ρ) = .ofSuperclass superclass := by
      cases superclass <;> rfl
    rw [kind]
    exact (tracks_resolveMethods renames eased methods).inClass _

theorem tracks_resolveAll (renames : Renames ρ) (eased : Prop) :
    ∀ ss : List Stmt, Tracks ρ eased (resolveAll ss) (resolveAll (renameAll ρ ss))
  | [] => tracks_pure
  | s :: ss => (tracks_resolve renames eased s).seq (tracks_resolveAll renames eased ss)

theorem tracks_resolveFunction (renames : Renames ρ) (eased : Prop) (kind : FunctionKind) :
    ∀ f : Function, Tracks ρ eased (resolveFunction kind f) (resolveFunction kind (renameFunction ρ f))
  | ⟨_, parameters, body, _⟩ =>
    (((tracks_parameters renames.injective parameters).seq (tracks_resolveAll renames False body)).inScope
      ((leaves_parameters parameters).bind fun _ => leaves_resolveAll body)
      ((leaves_parameters _).bind fun _ => leaves_resolveAll _)).inFunction kind

theorem tracks_resolveMethods (renames : Renames ρ) (eased : Prop) :
    ∀ fs : List Function, Tracks ρ eased (resolveMethods fs) (resolveMethods (renameMethods ρ fs))
  | [] => tracks_pure
  | f :: fs => by
    rw [renameMethods, resolveMethods, resolveMethods, renames.methodKind]
    exact (tracks_resolveFunction renames eased f.methodKind f).seq (tracks_resolveMethods renames eased fs)

end

end Stmt

end LoxFrontEnd
