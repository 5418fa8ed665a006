import LoxFrontEnd.Proofs.Resolve.Following

/-!
The checks of a tree follow its sites. Between statements no name is declared without being defined, so
that the innermost scope is exactly the names in front of a place, and what a statement does to the
state is to declare its names there.
-/

namespace LoxFrontEnd

open Resolve

namespace Surroundings

variable {around : Surroundings} {names more : List String} {name : String}

theorem behind_nil (around : Surroundings) : around.behind [] = around := by
  obtain ⟨routine, enclosing, scope, initializing⟩ := around
  cases scope with
  | none => rfl
  | some names => simp only [behind, Option.map_some, List.append_nil]

theorem behind_behind (around : Surroundings) (names more : List String) :
    (around.behind names).behind more = around.behind (names ++ more) := by
  obtain ⟨routine, enclosing, scope, initializing⟩ := around
  cases scope with
  | none => rfl
  | some before => simp only [behind, Option.map_some, List.append_assoc]

end Surroundings

section Expressions

variable {around : Surroundings} {r : Resolver}

theorem Surroundings.Matches.status? (known : around.Matches r) (name : String) :
    Resolve.status? name r = .ok (around.scope.bind (around.entry? · name)) r := by
  obtain ⟨scopes, functionKind, classKind⟩ := r
  have scope := known.scope
  cases inScope : around.scope with
  | none =>
    rw [inScope] at scope
    obtain rfl : scopes = [] := scope
    rfl
  | some names =>
    rw [inScope] at scope
    obtain ⟨scope, outer, rfl, entries⟩ : ∃ scope outer, scopes = scope :: outer ∧ _ := scope
    show EStateM.Result.ok (scope.lookup name) _ = _
    rw [entries, Option.bind_some]

theorem Surroundings.Matches.follows_reads (known : around.Matches r) (name : String) (line : Nat) :
    Follows (Expr.resolve (.var name line)) r [⟨around, .reads name line⟩] (· = r) := by
  have run : Expr.resolve (.var name line) r =
      if around.scope.bind (around.entry? · name) = some .declared then .error (.selfReference line name) r
      else .ok () r := by
    rw [Expr.resolve]
    show EStateM.bind _ _ r = _
    rw [EStateM.bind, known.status? name]
    exact throw_if _ _ r
  cases inScope : around.scope with
  | none =>
    rw [inScope, if_neg nofun] at run
    refine follows_of_ok run (clean_singleton fun e breaks => ?_) rfl
    cases breaks with
    | selfReference isLocal => cases inScope.symm.trans isLocal
  | some names =>
    rw [inScope, Option.bind_some, Surroundings.entry?] at run
    by_cases own : around.initializing = some name
    · rw [if_pos own, if_pos rfl] at run
      exact follows_of_error run (Site.Breaks.firstMistake (.selfReference inScope own) [])
    · rw [if_neg own, if_neg (by split <;> nofun)] at run
      refine follows_of_ok run (clean_singleton fun e breaks => ?_) rfl
      cases breaks with
      | selfReference _ isOwn => exact own isOwn

theorem Surroundings.Matches.follows_this (known : around.Matches r) (line : Nat) :
    Follows (Expr.resolve (.thisRef line)) r [⟨around, .this line⟩] (· = r) := by
  have run : Expr.resolve (.thisRef line) r =
      if r.classKind = .none then .error (.thisOutsideClass line) r else .ok () r := by
    rw [Expr.resolve]
    exact throw_if _ _ r
  rw [known.classKind, Surroundings.classKind] at run
  cases enclosing : around.enclosing with
  | none =>
    rw [enclosing] at run
    exact follows_of_error run (Site.Breaks.firstMistake (.thisOutsideClass enclosing) [])
  | some superclass =>
    rw [enclosing] at run
    refine follows_of_ok ?_ (clean_singleton fun e breaks => ?_) rfl
    · cases superclass <;> exact run
    · cases breaks with
      | thisOutsideClass outside => cases enclosing.symm.trans outside

theorem Surroundings.Matches.follows_super (known : around.Matches r) (method : String) (line : Nat) :
    Follows (Expr.resolve (.superRef method line)) r [⟨around, .super line⟩] (· = r) := by
  have kind := known.classKind
  rw [Surroundings.classKind] at kind
  obtain ⟨scopes, functionKind, classKind⟩ := r
  rcases enclosing : around.enclosing with _ | _ | superclass
  · obtain rfl : classKind = .none := by rw [enclosing] at kind; exact kind
    exact follows_of_error rfl (Site.Breaks.firstMistake (.superOutsideClass enclosing) [])
  · obtain rfl : classKind = .base := by rw [enclosing] at kind; exact kind
    exact follows_of_error rfl (Site.Breaks.firstMistake (.superWithoutSuperclass enclosing) [])
  · obtain rfl : classKind = .derived := by rw [enclosing] at kind; exact kind
    refine follows_of_ok rfl (clean_singleton fun e breaks => ?_) rfl
    cases breaks with
    | superOutsideClass outside | superWithoutSuperclass outside => cases enclosing.symm.trans outside

theorem Resolve.Follows.still {check next : Resolve Unit} {first second : List Site} {Q : Resolver → Prop}
    (follows : Follows check r first (· = r)) (onward : Follows next r second Q) :
    Follows (check >>= fun _ => next) r (first ++ second) Q :=
  follows.seq fun _ same => same ▸ onward

namespace Expr

mutual

/-- Expressions leave the state as it is. -/
theorem resolve_follows (known : around.Matches r) (e : Expr) :
    Follows e.resolve r (e.sites around) (· = r) := by
  cases e with
  | literal => exact follows_pure rfl
  | var name line => exact known.follows_reads name line
  | assign _ value => exact resolve_follows known value
  | getAttr object => exact resolve_follows known object
  | setAttr object _ value => exact (resolve_follows known value).still (resolve_follows known object)
  | logical _ left right => exact (resolve_follows known left).still (resolve_follows known right)
  | binary _ left right => exact (resolve_follows known left).still (resolve_follows known right)
  | unary _ operand => exact resolve_follows known operand
  | call callee arguments => exact (resolve_follows known callee).still (resolveAll_follows known arguments)
  | thisRef line => exact known.follows_this line
  | superRef method line => exact known.follows_super method line
  | grouping inner => exact resolve_follows known inner

theorem resolveAll_follows (known : around.Matches r) (es : List Expr) :
    Follows (resolveAll es) r (allSites around es) (· = r) := by
  cases es with
  | nil => exact follows_pure rfl
  | cons e es => exact (resolve_follows known e).still (resolveAll_follows known es)

end

theorem resolveOption_follows (known : around.Matches r) (o : Option Expr) :
    Follows (resolveOption o) r (optionSites around o) (· = r) := by
  cases o with
  | none => exact follows_pure rfl
  | some e => exact resolve_follows known e

end Expr

end Expressions

/-- The state further on in the same scope, with more names declared in it. The scopes around it are as
they were. -/
structure Surroundings.Extends (around : Surroundings) (names : List String)
    (r after : Resolver) : Prop where
  known : (around.behind names).Matches after
  outer : after.scopes.tail = r.scopes.tail

section Statements

variable {around : Surroundings} {r after last : Resolver} {names more : List String}

theorem Surroundings.Matches.extends (known : around.Matches r) : around.Extends [] r r :=
  ⟨by rwa [around.behind_nil], rfl⟩

theorem Surroundings.Extends.trans (first : around.Extends names r after)
    (second : (around.behind names).Extends more after last) : around.Extends (names ++ more) r last :=
  ⟨by rw [← around.behind_behind]; exact second.known, second.outer.trans first.outer⟩

/-- A name is new in its scope, or there is a mistake. Between declaration and definition the name is the
one that is being initialized. -/
theorem Surroundings.Matches.follows_declares (known : around.Matches r)
    (settled : around.initializing = none) (name : String) (line : Nat) :
    Follows (declare name line) r [⟨around, .declares name line⟩] fun after =>
      ({ around with initializing := some name } : Surroundings).Matches after ∧
        after.scopes.tail = r.scopes.tail := by
  have run := declare_run name line r
  obtain ⟨routine, enclosing, scope, initializing⟩ := around
  obtain rfl : initializing = none := settled
  cases scope with
  | none =>
    have scopes : r.scopes = [] := known.scope
    rw [scopes] at run
    refine follows_of_ok run (clean_singleton fun e breaks => ?_) ⟨⟨known.1, known.2, scopes⟩, rfl⟩
    cases breaks with
    | redeclared isLocal => cases isLocal
  | some names =>
    obtain ⟨scope, outer, scopes, entries⟩ := known.scope
    have entry : scope.lookup name = if name ∈ names then some .defined else none := entries name
    rw [scopes] at run
    dsimp only at run
    rw [entry] at run
    by_cases member : name ∈ names
    · rw [if_pos member] at run
      exact follows_of_error run (Site.Breaks.firstMistake (.redeclared rfl member) [])
    · rw [if_neg member] at run
      refine follows_of_ok run (clean_singleton fun e breaks => ?_)
        ⟨⟨known.1, known.2, _, outer, rfl, fun other => ?_⟩, by rw [scopes]; rfl⟩
      · cases breaks with
        | redeclared isLocal taken =>
          cases isLocal
          exact member taken
      · have before : scope.lookup other = if other ∈ names then some .defined else none := entries other
        rw [List.lookup_cons, entry?, before]
        by_cases same : other = name
        · simp only [same, beq_self_eq_true, if_true]
        · have differ : (other == name) = false := beq_eq_false_iff_ne.mpr same
          simp only [differ, Option.some.injEq, Ne.symm same, if_false]

theorem follows_defines {name : String} (settled : around.initializing = none)
    (known : ({ around with initializing := some name } : Surroundings).Matches r) :
    Follows (define name) r [] (around.Extends [name] r) := by
  have run := define_run name r
  obtain ⟨routine, enclosing, scope, initializing⟩ := around
  obtain rfl : initializing = none := settled
  cases scope with
  | none =>
    have scopes : r.scopes = [] := known.scope
    rw [scopes] at run
    exact follows_of_ok run clean_nil ⟨⟨known.1, known.2, scopes⟩, rfl⟩
  | some names =>
    obtain ⟨scope, outer, scopes, entries⟩ := known.scope
    rw [scopes] at run
    refine follows_of_ok run clean_nil ⟨⟨known.1, known.2, _, outer, rfl, fun other => ?_⟩,
      by rw [scopes]; rfl⟩
    have before : scope.lookup other =
        if some name = some other then some .declared
        else if other ∈ names then some .defined else none := entries other
    show List.lookup other ((name, .defined) :: scope) =
      if other ∈ names ++ [name] then some .defined else none
    rw [List.lookup_cons, before]
    by_cases same : other = name
    · subst same
      simp
    · have differ : (other == name) = false := beq_eq_false_iff_ne.mpr same
      simp [differ, same, Ne.symm same]

/-- A name that is declared and defined at once. -/
theorem Surroundings.Matches.follows_introduces (known : around.Matches r)
    (settled : around.initializing = none) {name : String} {line : Nat} {next : Resolve Unit}
    {sites : List Site} {Q : Resolver → Prop}
    (onward : ∀ after, around.Extends [name] r after → Follows next after sites Q) :
    Follows (declare name line >>= fun _ => define name >>= fun _ => next) r
      (⟨around, .declares name line⟩ :: sites) Q := by
  refine (known.follows_declares settled name line).seq fun declared ⟨knownDeclared, outerDeclared⟩ => ?_
  refine (follows_defines settled knownDeclared).seq fun defined ⟨knownDefined, outerDefined⟩ => ?_
  exact onward defined ⟨knownDefined, outerDefined.trans outerDeclared⟩

theorem parameters_follow (known : around.Matches r) (settled : around.initializing = none)
    (ps : List Parameter) :
    Follows (ps.forM Parameter.resolve) r (parameterSites around ps)
      (around.Extends (ps.map Parameter.name) r) := by
  induction ps generalizing around r with
  | nil => exact follows_pure known.extends
  | cons p ps ih =>
    have first : Follows p.resolve r [⟨around, .declares p.name p.line⟩] (around.Extends [p.name] r) := by
      refine (known.follows_declares settled p.name p.line).seq fun declared ⟨knownDeclared, outer⟩ => ?_
      exact (follows_defines settled knownDeclared).mono fun defined extends' =>
        ⟨extends'.known, extends'.outer.trans outer⟩
    refine first.seq fun after extends' => ?_
    exact (ih extends'.known settled).mono fun last more => extends'.trans more

theorem Surroundings.functionKind_eq_none_iff (around : Surroundings) :
    around.functionKind = .none ↔ around.routine = none := by
  obtain ⟨_ | ⟨_ | _, name⟩, enclosing, scope, initializing⟩ := around
  · exact ⟨fun _ => rfl, fun _ => rfl⟩
  · exact ⟨nofun, nofun⟩
  · refine ⟨fun kind => ?_, nofun⟩
    rw [functionKind] at kind
    dsimp only at kind
    split at kind <;> cases kind

theorem Surroundings.functionKind_eq_initializer_iff (around : Surroundings) :
    around.functionKind = .initializer ↔ around.routine = some (.method, "init") := by
  obtain ⟨_ | ⟨_ | _, name⟩, enclosing, scope, initializing⟩ := around
  · exact ⟨nofun, nofun⟩
  · exact ⟨nofun, nofun⟩
  · by_cases isInit : name = "init"
    · simp [functionKind, isInit]
    · simp [functionKind, isInit]

theorem Surroundings.Matches.follows_return (known : around.Matches r) (value : Option Expr) (line : Nat) :
    Follows (Stmt.resolve (.ret value line)) r
      (⟨around, .returns value.isSome line⟩ :: Expr.optionSites around value) (· = r) := by
  have run : Stmt.resolve (.ret value line) r =
      if r.functionKind = .none then .error (.returnOutsideFunction line) r
      else if value.isSome ∧ r.functionKind = .initializer then .error (.valueFromInitializer line) r
      else Expr.resolveOption value r := by
    rw [Stmt.resolve]
    show (if r.functionKind = .none then _ else _ : Resolve Unit) r = _
    split
    · rfl
    · show (if value.isSome ∧ r.functionKind = .initializer then _ else _ : Resolve Unit) r = _
      split <;> rfl
  simp only [known.functionKind, around.functionKind_eq_none_iff,
    around.functionKind_eq_initializer_iff] at run
  by_cases outside : around.routine = none
  · rw [if_pos outside] at run
    exact follows_of_error run (Site.Breaks.firstMistake (.returnOutsideFunction outside) _)
  · rw [if_neg outside] at run
    by_cases valued : value.isSome ∧ around.routine = some (.method, "init")
    · rw [if_pos valued] at run
      refine follows_of_error run (Site.Breaks.firstMistake ?_ _)
      rw [valued.1]
      exact .valueFromInitializer valued.2
    · rw [if_neg valued] at run
      have clean : Clean [⟨around, .returns value.isSome line⟩] := by
        refine clean_singleton fun e breaks => ?_
        generalize given : value.isSome = isSome at breaks
        cases breaks with
        | returnOutsideFunction isOutside => exact outside isOutside
        | valueFromInitializer isInit => exact valued ⟨given, isInit⟩
      rcases (Expr.resolveOption_follows known value).cases with
        ⟨after, run', clean', same⟩ | ⟨e, after, run', mistake⟩
      · exact follows_of_ok (run.trans run') (clean.append clean') same
      · exact follows_of_error (run.trans run') (clean.firstMistake mistake)

theorem Surroundings.Matches.inner (known : around.Matches r) (settled : around.initializing = none) :
    around.inner.Matches { r with scopes := [] :: r.scopes } := by
  refine ⟨known.1, known.2, [], r.scopes, rfl, fun name => ?_⟩
  rw [Surroundings.entry?, Surroundings.inner, settled, if_neg nofun]
  rfl

/-- A scope that is left leaves no trace. -/
theorem Resolve.Follows.inScope {check : Resolve Unit} {sites : List Site} (known : around.Matches r)
    (follows : Follows check { r with scopes := [] :: r.scopes } sites
      (around.inner.Extends names { r with scopes := [] :: r.scopes })) :
    Follows (inScope check) r sites (· = r) := by
  refine follows.within fun after extends' => ?_
  have functionKind : after.functionKind = r.functionKind :=
    extends'.known.functionKind.trans known.functionKind.symm
  have classKind : after.classKind = r.classKind := extends'.known.classKind.trans known.classKind.symm
  rw [extends'.outer, functionKind, classKind]
  rfl

theorem follows_inherits (around : Surroundings) (name : String) (superclass : Option String) (line : Nat)
    {next : Resolve Unit} {sites : List Site} {Q : Resolver → Prop} (onward : Follows next r sites Q) :
    Follows (do
        if superclass = some name then throw (.inheritsFromItself line name)
        next) r
      (superclass.toList.map (fun above => ⟨around, .inherits name above line⟩) ++ sites) Q := by
  by_cases itself : superclass = some name
  · subst itself
    rw [if_pos rfl]
    exact follows_of_error rfl (Site.Breaks.firstMistake .inheritsFromItself sites)
  · have clean : Clean (superclass.toList.map fun above => ⟨around, .inherits name above line⟩) := by
      cases superclass with
      | none => exact clean_nil
      | some above =>
        refine clean_singleton fun e breaks => ?_
        cases breaks
        exact itself rfl
    have passed : Follows (pure ()) r _ (· = r) := follows_of_ok rfl clean rfl
    rw [if_neg itself]
    exact passed.still onward

namespace Stmt

/-- Methods stand in scopes of their own. -/
theorem methodSites_behind (around : Surroundings) (names : List String) (fs : List Function) :
    methodSites (around.behind names) fs = methodSites around fs := by
  induction fs with
  | nil => rfl
  | cons f fs ih =>
    obtain ⟨name, parameters, body, line⟩ := f
    exact congrArg _ ih

mutual

/-- A statement declares its names in the scope it stands in, and leaves everything else as it is. -/
theorem resolve_follows {around : Surroundings} {r : Resolver} (known : around.Matches r)
    (settled : around.initializing = none) (s : Stmt) :
    Follows s.resolve r (s.sites around) (around.Extends s.declared r) := by
  match s with
  | .expr e | .print e =>
    exact (Expr.resolve_follows known e).mono fun _ same => same ▸ known.extends
  | .ret value line => exact (known.follows_return value line).mono fun _ same => same ▸ known.extends
  | .block body =>
    have inside := resolveAll_follows (known.inner settled) settled body
    exact (inside.inScope known).mono fun _ same => same ▸ known.extends
  | .ifElse condition thenBranch none =>
    exact (Expr.resolve_follows known condition).still (resolve_follows known settled thenBranch)
  | .ifElse condition thenBranch (some elseBranch) =>
    refine (Expr.resolve_follows known condition).still
      ((resolve_follows known settled thenBranch).seq fun after extends' => ?_)
    exact (resolve_follows extends'.known settled elseBranch).mono fun last more => extends'.trans more
  | .whileLoop condition body =>
    exact (Expr.resolve_follows known condition).still (resolve_follows known settled body)
  | .varDecl name initializer line =>
    refine (known.follows_declares settled name line).seq fun declared ⟨knownDeclared, outer⟩ => ?_
    have value := Expr.resolveOption_follows knownDeclared initializer
    have whole := value.still ((follows_defines settled knownDeclared).mono fun defined extends' =>
      (⟨extends'.known, extends'.outer.trans outer⟩ : around.Extends [name] r defined))
    rwa [List.append_nil] at whole
  | .funDecl ⟨name, parameters, body, line⟩ =>
    refine known.follows_introduces settled fun after extends' => ?_
    exact (resolveFunction_follows extends'.known settled .function _ rfl).mono fun _ same =>
      same ▸ extends'
  | .classDecl name superclass methods line =>
    refine known.follows_introduces settled fun after extends' => ?_
    refine follows_inherits around name superclass line ?_
    have inside : (({ around with enclosing := some superclass } : Surroundings).behind [name]).Matches
        { after with classKind := .ofSuperclass superclass } :=
      ⟨extends'.known.1, by cases superclass <;> rfl, extends'.known.3⟩
    have follows := resolveMethods_follows inside settled methods
    rw [methodSites_behind] at follows
    refine follows.within fun last same => ?_
    subst same
    exact extends'

theorem resolveAll_follows {around : Surroundings} {r : Resolver} (known : around.Matches r)
    (settled : around.initializing = none) (ss : List Stmt) :
    Follows (resolveAll ss) r (allSites around ss) (around.Extends (ss.flatMap declared) r) := by
  match ss with
  | [] => exact follows_pure known.extends
  | s :: ss =>
    refine (resolve_follows known settled s).seq fun after extends' => ?_
    exact (resolveAll_follows extends'.known settled ss).mono fun last more => extends'.trans more

theorem resolveFunction_follows {around : Surroundings} {r : Resolver} (known : around.Matches r)
    (settled : around.initializing = none) (routine : Routine) (f : Function) {kind : FunctionKind}
    (isKind : kind = ({ around with routine := some (routine, f.name) } : Surroundings).functionKind) :
    Follows (resolveFunction kind f) r (functionSites around routine f) (· = r) := by
  match f with
  | ⟨name, ps, body, line⟩ =>
    have called : ({ around with routine := some (routine, name) } : Surroundings).Matches
        { r with functionKind := kind } := ⟨isKind, known.2, known.3⟩
    have inside := (parameters_follow (called.inner settled) settled ps).seq fun after extends' =>
      (resolveAll_follows extends'.known settled body).mono fun last more => extends'.trans more
    refine (inside.inScope called).within fun after same => ?_
    subst same
    rfl

theorem resolveMethods_follows {around : Surroundings} {r : Resolver} (known : around.Matches r)
    (settled : around.initializing = none) (fs : List Function) :
    Follows (resolveMethods fs) r (methodSites around fs) (· = r) := by
  match fs with
  | [] => exact follows_pure rfl
  | f :: fs =>
    exact (resolveFunction_follows known settled .method f rfl).still
      (resolveMethods_follows known settled fs)

end

end Stmt

/-- The checks of a program succeed exactly if no site of it breaks a rule. Otherwise they fail with
what the first such site does. -/
theorem Resolver.check_top (p : Program) :
    ((Resolver.top.check p).1 = .ok () ↔ Clean p.sites) ∧
      ∀ e, (Resolver.top.check p).1 = .error e ↔ FirstMistake p.sites e := by
  have follows : Follows p.resolve .top p.sites _ :=
    Stmt.resolveAll_follows Surroundings.outermost_matches rfl p.declarations
  rcases follows.cases with ⟨after, run, clean, _⟩ | ⟨e, after, run, mistake⟩
  · have answer : (Resolver.top.check p).1 = .ok () := by rw [check, run]
    rw [answer]
    exact ⟨⟨fun _ => clean, fun _ => rfl⟩, fun e => ⟨nofun, fun mistake => absurd clean mistake.not_clean⟩⟩
  · have answer : (Resolver.top.check p).1 = .error e := by rw [check, run]
    rw [answer]
    refine ⟨⟨nofun, fun clean => absurd clean mistake.not_clean⟩, fun e' => ⟨?_, fun mistake' => ?_⟩⟩
    · intro same
      cases same
      exact mistake
    · rw [mistake.unique mistake']

end Statements

end LoxFrontEnd
