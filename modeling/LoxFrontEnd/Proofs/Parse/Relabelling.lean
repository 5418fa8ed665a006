import LoxFrontEnd.Parse.Session
import LoxFrontEnd.Proofs.Parse.Locality
import LoxFrontEnd.Proofs.Tree.Relabelling

/-!
Parsing under relabelling. The rules look at kinds only, so on relabelled tokens they do the same:
they take as many tokens, answer with relabelled trees and errors, and recover in the same places.
-/

namespace LoxFrontEnd

variable (ρ : Relabelling)

def Found.relabel : Found → Found
  | .lexeme text => .lexeme (ρ.lexeme text)
  | .endOfInput => .endOfInput

def ParseError.relabel : ParseError → ParseError
  | .unexpectedToken expected found position =>
    .unexpectedToken expected (found.relabel ρ) (ρ.place position)
  | .invalidAssignmentTarget position => .invalidAssignmentTarget (ρ.place position)

def Event.relabel : Event → Event
  | .started kind => .started kind
  | .recovered site error => .recovered site (error.relabel ρ)

theorem Event.error?_relabel (event : Event) :
    (event.relabel ρ).error? = event.error?.map (ParseError.relabel ρ) := by
  cases event <;> rfl

theorem recovered_relabel (events : List Event) : (events.map (Event.relabel ρ)).filterMap Event.error? =
    (events.filterMap Event.error?).map (ParseError.relabel ρ) := by
  have told : Event.error? ∘ Event.relabel ρ = fun event => event.error?.map (ParseError.relabel ρ) :=
    funext (Event.error?_relabel ρ)
  rw [List.filterMap_map, told, List.map_filterMap]

namespace Parse

/-- An input with other labels. The place in front of the tokens matters only where there are none. -/
structure Relabelled (input input' : Input) : Prop where
  tokens : input'.tokens = input.tokens.map (Token.relabel ρ)
  last : input.tokens = [] → input'.last = ρ.place input.last

variable {ρ} {α β γ ι : Type}

namespace Relabelled

variable {input input' : Input}

theorem cons (token : Token) (tokens : List Token) (last last' : Position) :
    Relabelled ρ ⟨token :: tokens, last⟩ ⟨token.relabel ρ :: tokens.map (Token.relabel ρ), last'⟩ :=
  ⟨rfl, nofun⟩

/-- Behind a token that was taken. -/
theorem behind (token : Token) (tokens : List Token) :
    Relabelled ρ ⟨tokens, token.position⟩ ⟨tokens.map (Token.relabel ρ), (token.relabel ρ).position⟩ :=
  ⟨rfl, fun _ => rfl⟩

/-- Either nothing is left, or the first tokens are of one kind. -/
theorem cases_on (same : Relabelled ρ input input') :
    (∃ last, input = ⟨[], last⟩ ∧ input' = ⟨[], ρ.place last⟩) ∨
      ∃ token tokens last last', input = ⟨token :: tokens, last⟩ ∧
        input' = ⟨token.relabel ρ :: tokens.map (Token.relabel ρ), last'⟩ := by
  obtain ⟨tokens, last⟩ := input
  obtain ⟨tokens', last'⟩ := input'
  obtain ⟨front, ends⟩ := same
  cases tokens with
  | nil =>
    obtain rfl : tokens' = [] := front
    exact Or.inl ⟨last, rfl, congrArg (Input.mk []) (ends rfl)⟩
  | cons token tokens =>
    obtain rfl : tokens' = token.relabel ρ :: tokens.map (Token.relabel ρ) := front
    exact Or.inr ⟨token, tokens, last, last', rfl, rfl⟩

theorem kind (same : Relabelled ρ input input') : input'.kind = input.kind := by
  obtain ⟨last, rfl, rfl⟩ | ⟨token, tokens, last, last', rfl, rfl⟩ := same.cases_on <;> rfl

theorem length (same : Relabelled ρ input input') : input'.tokens.length = input.tokens.length := by
  rw [same.tokens, List.length_map]

theorem unexpected (same : Relabelled ρ input input') (expected : Expected) :
    input'.unexpected expected = (input.unexpected expected).relabel ρ := by
  obtain ⟨last, rfl, rfl⟩ | ⟨token, tokens, last, last', rfl, rfl⟩ := same.cases_on
  · rfl
  · simp only [Input.unexpected, Input.found, Input.position]
    by_cases isEnd : token.kind = .eof
    · rw [if_pos isEnd, if_pos (by exact isEnd)]
      rfl
    · rw [if_neg isEnd, if_neg (by exact isEnd)]
      rfl

theorem ite {c c' : Prop} [Decidable c] [Decidable c'] {other other' : Input} (alike : c' ↔ c)
    (yes : Relabelled ρ input input') (no : Relabelled ρ other other') :
    Relabelled ρ (if c then input else other) (if c' then input' else other') := by
  by_cases holds : c
  · rw [if_pos holds, if_pos (alike.mpr holds)]
    exact yes
  · rw [if_neg holds, if_neg (mt alike.mp holds)]
    exact no

end Relabelled

variable (ρ) in
/-- On an input with other labels the second rule does what the first one does, and `f` puts the
labels into the value. -/
def Relabels (f : α → α) (p p' : Parse α) : Prop :=
  ∀ input input', Relabelled ρ input input' → ∃ result rest rest' events, Relabelled ρ rest rest' ∧
    p input = ⟨result, rest, events⟩ ∧
    p' input' = ⟨(result.map f).mapError (ParseError.relabel ρ), rest', events.map (Event.relabel ρ)⟩

section Combinators

variable {f : α → α} {g : β → β} {p p' q q' : Parse α}

theorem relabels_pure {a a' : α} (same : a' = f a) : Relabels ρ f (pure a) (pure a') := by
  subst same
  exact fun input input' same => ⟨.ok a, input, input', [], same, rfl, rfl⟩

theorem relabels_fail {e e' : ParseError} (same : e' = e.relabel ρ) : Relabels ρ f (fail e) (fail e') := by
  subst same
  exact fun input input' same => ⟨.error e, input, input', [], same, rfl, rfl⟩

theorem relabels_unexpected (expected : Expected) :
    Relabels ρ f (unexpected expected) (unexpected expected) := by
  intro input input' same
  refine ⟨_, input, input', [], same, rfl, ?_⟩
  rw [unexpected, same.unexpected]
  rfl

theorem relabels_peek : Relabels ρ id peek peek := by
  intro input input' same
  refine ⟨_, input, input', [], same, rfl, ?_⟩
  rw [peek, same.kind]
  rfl

theorem relabels_record {event event' : Event} (same : event' = event.relabel ρ) :
    Relabels ρ id (record event) (record event') := by
  subst same
  exact fun input input' same => ⟨.ok (), input, input', [event], same, rfl, rfl⟩

theorem Relabels.bind {h h' : α → Parse β} (first : Relabels ρ f p p')
    (next : ∀ a, Relabels ρ g (h a) (h' (f a))) :
    Relabels ρ g (p >>= h) (p' >>= h') := by
  intro input input' same
  obtain ⟨result, rest, rest', events, same', run, run'⟩ := first input input' same
  cases result with
  | error e => exact ⟨.error e, rest, rest', events, same', bind_of_error run, bind_of_error run'⟩
  | ok a =>
    obtain ⟨result, later, later', events', same'', run₂, run₂'⟩ := next a rest rest' same'
    refine ⟨result, later, later', events ++ events', same'', ?_, ?_⟩
    · rw [bind_of_ok run, run₂]
      rfl
    · rw [bind_of_ok run', run₂', Outcome.behind, List.map_append]

/-- A first value without labels in it. -/
theorem Relabels.then {h h' : α → Parse β} (first : Relabels ρ id p p')
    (next : ∀ a, Relabels ρ g (h a) (h' a)) :
    Relabels ρ g (p >>= h) (p' >>= h') :=
  first.bind next

theorem Relabels.map {h : α → β} (first : Relabels ρ f p p') (commutes : ∀ a, h (f a) = g (h a)) :
    Relabels ρ g (h <$> p) (h <$> p') := by
  rw [map_eq_pure_bind, map_eq_pure_bind]
  exact first.bind fun a => relabels_pure (commutes a)

/-- A branch goes by whether there is a value, and labels do not make one. -/
theorem Relabels.ite_isSome {o : Option γ} {h : γ → γ} (yes : Relabels ρ f p p') (no : Relabels ρ f q q') :
    Relabels ρ f (if o.isSome then p else q) (if (o.map h).isSome then p' else q') := by
  cases o with
  | none => exact no
  | some a => exact yes

/-- A part that may be left out, and what stands behind it. -/
theorem Relabels.optional {p p' : Parse (Option α)} {o : Option γ} {h : γ → γ}
    {next next' : Option α → Parse β} (part : Relabels ρ (Option.map f) p p')
    (onward : ∀ a, Relabels ρ g (next a) (next' (a.map f))) :
    Relabels ρ g (if o.isSome then p >>= next else pure none >>= next)
      (if (o.map h).isSome then p' >>= next' else pure none >>= next') :=
  .ite_isSome (part.bind onward) ((relabels_pure rfl).bind onward)

theorem relabels_takeSome (choose : Token → Option α)
    (chosen : ∀ token, choose (token.relabel ρ) = (choose token).map f) :
    Relabels ρ (Option.map f) (takeSome choose) (takeSome choose) := by
  intro input input' same
  obtain ⟨last, rfl, rfl⟩ | ⟨token, tokens, last, last', rfl, rfl⟩ := same.cases_on
  · exact ⟨.ok none, _, _, [], same, rfl, rfl⟩
  · cases choice : choose token with
    | none =>
      have choice' : choose (token.relabel ρ) = none := by rw [chosen, choice]; rfl
      exact ⟨.ok none, _, _, [], same, takeSome_of_none choice, takeSome_of_none choice'⟩
    | some a =>
      have choice' : choose (token.relabel ρ) = some (f a) := by rw [chosen, choice]; rfl
      exact ⟨.ok (some a), _, _, [], .behind token tokens, takeSome_of_some choice,
        takeSome_of_some choice'⟩

/-- What is chosen by the kind of a token has no labels in it. -/
theorem relabels_takeSome_kind (choose : TokenKind → Option α) :
    Relabels ρ id (takeSome fun token => choose token.kind) (takeSome fun token => choose token.kind) := by
  have same := relabels_takeSome (fun token => choose token.kind) fun token : Token =>
    show choose (token.relabel ρ).kind = (choose token.kind).map id from (congrFun Option.map_id _).symm
  rwa [Option.map_id] at same

theorem relabels_accept (kind : TokenKind) : Relabels ρ (Option.map (Token.relabel ρ)) (accept kind)
    (accept kind) := by
  refine relabels_takeSome _ fun token => ?_
  rw [Token.relabel_kind]
  split <;> rfl

theorem relabels_expect (kind : TokenKind) (expected : Expected) :
    Relabels ρ (Token.relabel ρ) (expect kind expected) (expect kind expected) := by
  refine (relabels_accept kind).bind fun o => ?_
  cases o with
  | none => exact relabels_unexpected expected
  | some token => exact relabels_pure rfl

/-- The guard of the recursion lets both rules make the same calls, since it counts tokens. -/
theorem relabels_recursive {rule : (ι → Parse α) → ι → Parse α} {h : ι → ι}
    (turn : ∀ again : ι → Parse α, (∀ i, Relabels ρ f (again i) (again (h i))) →
      ∀ i, Relabels ρ f (rule again i) (rule again (h i))) (i : ι) :
    Relabels ρ f (recursive rule i) (recursive rule (h i)) := by
  intro input input' same
  induction size : input.tokens.length using Nat.strongRecOn generalizing i input input' with
  | _ size ih =>
    subst size
    rw [recursive_apply, recursive_apply, same.length]
    refine turn _ (fun j later later' same' => ?_) i input input' same
    rw [guarded, guarded, same'.length]
    by_cases shorter : later.tokens.length < input.tokens.length
    · rw [if_pos shorter, if_pos shorter]
      exact ih _ shorter j later later' same' rfl
    · rw [if_neg shorter, if_neg shorter]
      exact relabels_unexpected .shallowNesting later later' same'

theorem relabels_steps {step : α → Parse (Option α)}
    (one : ∀ a, Relabels ρ (Option.map f) (step a) (step (f a))) (a : α) :
    Relabels ρ f (steps step a) (steps step (f a)) := by
  refine relabels_recursive (fun again calls a => (one a).bind fun o => ?_) a
  cases o with
  | none => exact relabels_pure rfl
  | some b => exact calls b

theorem Relabels.extend {first : Parse α} {step : α → Parse (Option α)} (begins : Relabels ρ f first first)
    (one : ∀ a, Relabels ρ (Option.map f) (step a) (step (f a))) :
    Relabels ρ f (extend first step) (extend first step) :=
  begins.bind (relabels_steps one)

theorem Relabels.separated {item : Parse α} (one : Relabels ρ f item item) :
    Relabels ρ (List.map f) (separated item) (separated item) := by
  refine relabels_recursive (h := id) (fun again calls _ => one.bind fun a => ?_) ()
  refine (relabels_accept .comma).bind fun comma => .ite_isSome ?_ (relabels_pure rfl)
  exact (calls ()).bind fun as => relabels_pure rfl

theorem Relabels.separatedUnless {item : Parse α} (one : Relabels ρ f item item) (stop : TokenKind) :
    Relabels ρ (List.map f) (separatedUnless stop item) (separatedUnless stop item) := by
  refine relabels_peek.then fun kind => ?_
  split
  · exact relabels_pure rfl
  · exact one.separated

theorem Relabels.many {item : Parse (Option α)} (one : Relabels ρ (Option.map f) item item)
    (stop : TokenKind → Bool) :
    Relabels ρ (List.map f) (many stop item) (many stop item) := by
  refine relabels_recursive (h := id) (fun again calls _ => relabels_peek.then fun kind => ?_) ()
  split
  · exact relabels_pure rfl
  · refine one.bind fun o => (calls ()).bind fun as => relabels_pure ?_
    cases o <;> rfl

/-- Recovery looks at kinds only. -/
theorem relabelled_skipOn (enclosed : Bool) (token : Token) (tokens : List Token) :
    Relabelled ρ (Input.skipOn enclosed token.position tokens)
      (Input.skipOn enclosed (token.relabel ρ).position (tokens.map (Token.relabel ρ))) := by
  induction tokens generalizing token with
  | nil => exact .behind token []
  | cons next tokens ih =>
    rw [List.map_cons, Input.skipOn, Input.skipOn]
    refine .ite Iff.rfl (.cons ..) ?_
    refine .ite Iff.rfl (.behind next tokens) ?_
    exact .ite Iff.rfl (.cons ..) (ih next)

theorem Relabelled.skip {input input' : Input} (same : Relabelled ρ input input') (enclosed : Bool) :
    Relabelled ρ (input.skip enclosed) (input'.skip enclosed) := by
  obtain ⟨last, rfl, rfl⟩ | ⟨token, tokens, last, last', rfl, rfl⟩ := same.cases_on
  · exact same
  · exact .ite Iff.rfl same (.ite Iff.rfl (.behind token tokens) (relabelled_skipOn enclosed token tokens))

theorem Relabels.recovering (first : Relabels ρ f p p') (site : RecoverySite) (enclosed : Bool) :
    Relabels ρ (Option.map f) (recovering site enclosed p) (recovering site enclosed p') := by
  intro input input' same
  obtain ⟨result, rest, rest', events, same', run, run'⟩ := first input input' same
  cases result with
  | ok a =>
    refine ⟨.ok (some a), rest, rest', events, same', ?_, ?_⟩
    · rw [Parse.recovering, run]
    · rw [Parse.recovering, run']
      rfl
  | error e =>
    refine ⟨.ok none, _, _, events ++ [.recovered site e], same'.skip enclosed, ?_, ?_⟩
    · rw [Parse.recovering, run]
    · rw [Parse.recovering, run', List.map_append]
      rfl

end Combinators

/-- What is put together behind the last step of a rule has the labels put in. -/
theorem relabels_return {f : α → α} {g : β → β} {p p' : Parse α} {h h' : α → β} (first : Relabels ρ f p p')
    (commutes : ∀ a, h' (f a) = g (h a)) :
    Relabels ρ g (p >>= fun a => pure (h a)) (p' >>= fun a => pure (h' a)) :=
  first.bind fun a => relabels_pure (commutes a)

section Expression

/-- A rule that gives an expression, with the same labels in it as there are on the tokens. -/
abbrev RelabelsExpr (ρ : Relabelling) (p : Parse Expr) : Prop := Relabels ρ (Expr.relabel ρ) p p

variable {e : Parse Expr}

theorem leaf?_relabel (token : Token) : (token.relabel ρ).leaf? = token.leaf?.map (Expr.relabel ρ) := by
  unfold Token.leaf?
  rw [Token.relabel_kind]
  split
  case h_4 => rw [Token.relabel_lexeme, ρ.unquote_lexeme]; rfl
  case h_5 | h_6 => rw [Token.relabel_position, ρ.place_line]; rfl
  all_goals rfl

theorem relabels_chain {ο : Type} (op? : TokenKind → Option ο) (node : ο → Expr → Expr → Expr)
    (commutes : ∀ op left right, node op (left.relabel ρ) (right.relabel ρ) =
      (node op left right).relabel ρ)
    (operand : RelabelsExpr ρ e) : RelabelsExpr ρ (chain op? node e) := by
  refine operand.extend fun left => ?_
  refine (relabels_takeSome_kind _).then fun o => ?_
  cases o with
  | none => exact relabels_pure rfl
  | some op => exact relabels_return operand fun right => congrArg some (commutes op left right)

section Over

variable (inner : RelabelsExpr ρ e)
include inner

theorem relabels_primary : RelabelsExpr ρ (primary e) := by
  refine (relabels_takeSome _ leaf?_relabel).bind fun leaf => ?_
  cases leaf with
  | some leaf => exact relabels_pure rfl
  | none =>
    refine (relabels_accept .kwSuper).bind fun keyword => ?_
    cases keyword with
    | some keyword =>
      refine (relabels_expect .dot _).bind fun _ =>
        relabels_return (relabels_expect .identifier _) fun method => ?_
      rw [Token.relabel_position, ρ.place_line]
      rfl
    | none =>
      refine (relabels_accept .leftParen).bind fun paren => .ite_isSome ?_ (relabels_unexpected _)
      exact inner.bind fun _ => relabels_return (relabels_expect .rightParen _) fun _ => rfl

theorem relabels_suffix (target : Expr) :
    Relabels ρ (Option.map (Expr.relabel ρ)) (suffix e target) (suffix e (target.relabel ρ)) := by
  refine (relabels_accept .leftParen).bind fun paren => .ite_isSome ?_ ?_
  · refine (inner.separatedUnless .rightParen).bind fun arguments => ?_
    refine relabels_return (relabels_expect .rightParen _) fun _ => ?_
    rw [Option.map_some, Expr.relabel, Expr.relabelAll_eq_map]
  · refine (relabels_accept .dot).bind fun dot => .ite_isSome ?_ (relabels_pure rfl)
    exact relabels_return (relabels_expect .identifier _) fun name => rfl

theorem relabels_call : RelabelsExpr ρ (call e) :=
  (relabels_primary inner).extend (relabels_suffix inner)

theorem relabels_unary (levels : Nat) : RelabelsExpr ρ (unary e levels) := by
  induction levels with
  | zero =>
    refine relabels_peek.then fun kind => ?_
    split
    · exact (relabels_unexpected _).then fun _ => relabels_call inner
    · exact (relabels_pure (rfl : () = id ())).then fun _ => relabels_call inner
  | succ levels ih =>
    refine (relabels_takeSome_kind _).then fun o => ?_
    cases o with
    | none => exact relabels_call inner
    | some op => exact relabels_return ih fun _ => rfl

theorem relabels_logicOr (levels : Nat) : RelabelsExpr ρ (logicOr e levels) := by
  have factors := relabels_chain TokenKind.factorOp? .binary (fun _ _ _ => rfl)
    (relabels_unary inner levels)
  have terms := relabels_chain TokenKind.termOp? .binary (fun _ _ _ => rfl) factors
  have comparisons := relabels_chain TokenKind.comparisonOp? .binary (fun _ _ _ => rfl) terms
  have equalities := relabels_chain TokenKind.equalityOp? .binary (fun _ _ _ => rfl) comparisons
  have ands := relabels_chain TokenKind.andOp? .logical (fun _ _ _ => rfl) equalities
  exact relabels_chain TokenKind.orOp? .logical (fun _ _ _ => rfl) ands

theorem relabels_assignment (levels : Nat) : RelabelsExpr ρ (assignment e levels) := by
  refine (relabels_logicOr inner levels).bind fun target => (relabels_accept .equal).bind fun sign => ?_
  cases sign with
  | none => exact relabels_pure rfl
  | some sign =>
    refine inner.bind fun value => ?_
    cases target with
    | var | getAttr => exact relabels_pure rfl
    | _ => exact relabels_fail rfl

end Over

theorem relabels_expression (levels : Nat) : RelabelsExpr ρ (expression levels) := by
  induction levels with
  | zero => exact relabels_unexpected .shallowNesting
  | succ levels ih => exact relabels_assignment ih levels

end Expression

section Statement

/-- A rule that gives a statement, with the same labels in it as there are on the tokens. -/
abbrev RelabelsStmt (ρ : Relabelling) (p : Parse Stmt) : Prop := Relabels ρ (Stmt.relabel ρ) p p

variable {e : Parse Expr} {s d : Parse Stmt}

theorem relabels_parameter : Relabels ρ (Parameter.relabel ρ) parameter parameter := by
  refine relabels_return (relabels_expect .identifier _) fun name => ?_
  rw [Token.relabel_position, ρ.place_line]
  rfl

section Declared

variable (declares : RelabelsStmt ρ d)
include declares

theorem relabels_block : Relabels ρ (List.map (Stmt.relabel ρ)) (block d) (block d) := by
  refine ((declares.recovering .declaration true).many endsBody).bind fun body => ?_
  exact relabels_return (relabels_expect .rightBrace _) fun _ => rfl

theorem relabels_function (routine : Routine) :
    Relabels ρ (Stmt.relabelFunction ρ) (function d routine) (function d routine) := by
  refine (relabels_expect .identifier _).bind fun name => (relabels_expect .leftParen _).bind fun _ => ?_
  refine (relabels_parameter.separatedUnless .rightParen).bind fun parameters => ?_
  refine (relabels_expect .rightParen _).bind fun _ => (relabels_expect .leftBrace _).bind fun _ => ?_
  refine relabels_return (relabels_block declares) fun body => ?_
  rw [Token.relabel_position, ρ.place_line, Stmt.relabelFunction, Stmt.relabelAll_eq_map,
    Token.relabel_lexeme]

theorem relabels_classDeclaration : RelabelsStmt ρ (classDeclaration d) := by
  refine (relabels_expect .identifier _).bind fun name => (relabels_accept .less).bind fun less => ?_
  refine .optional ((relabels_expect .identifier _).map fun _ => rfl) fun superclass => ?_
  refine (relabels_expect .leftBrace _).bind fun _ => ?_
  refine (((relabels_function declares .method).recovering .classBody true).many endsBody).bind
    fun methods => ?_
  refine relabels_return (relabels_expect .rightBrace _) fun _ => ?_
  rw [Token.relabel_position, ρ.place_line, Stmt.relabel, Stmt.relabelMethods_eq_map, Option.map_map,
    Option.map_map]
  rfl

end Declared

/-- A loop with other labels is the loop of its parts with other labels. -/
theorem forLoop_relabel (initializer : Option Stmt) (condition increment : Option Expr) (body : Stmt) :
    forLoop (initializer.map (Stmt.relabel ρ)) (condition.map (Expr.relabel ρ))
    (increment.map (Expr.relabel ρ))
      (body.relabel ρ) = (forLoop initializer condition increment body).relabel ρ := by
  cases initializer <;> cases condition <;> cases increment <;> rfl

section Over

variable (inner : RelabelsExpr ρ e)
include inner

theorem relabels_varDeclaration : RelabelsStmt ρ (varDeclaration e) := by
  refine (relabels_expect .identifier _).bind fun name => (relabels_accept .equal).bind fun sign => ?_
  refine .optional (inner.map fun _ => rfl) fun initializer => ?_
  refine relabels_return (relabels_expect .semicolon _) fun _ => ?_
  rw [Token.relabel_position, ρ.place_line]
  rfl

theorem relabels_expressionStatement : RelabelsStmt ρ (expressionStatement e) :=
  inner.bind fun _ => relabels_return (relabels_expect .semicolon _) fun _ => rfl

theorem relabels_printStatement : RelabelsStmt ρ (printStatement e) :=
  inner.bind fun _ => relabels_return (relabels_expect .semicolon _) fun _ => rfl

theorem relabels_expressionUnless (stop : TokenKind) :
    Relabels ρ (Option.map (Expr.relabel ρ)) (expressionUnless e stop) (expressionUnless e stop) := by
  refine relabels_peek.then fun kind => ?_
  split
  · exact relabels_pure rfl
  · exact inner.map fun _ => rfl

theorem relabels_returnStatement (keyword : Token) :
    Relabels ρ (Stmt.relabel ρ) (returnStatement e keyword) (returnStatement e (keyword.relabel ρ)) := by
  refine (relabels_expressionUnless inner .semicolon).bind fun value => ?_
  refine relabels_return (relabels_expect .semicolon _) fun _ => ?_
  rw [Token.relabel_position, ρ.place_line]
  rfl

theorem relabels_forInitializer :
    Relabels ρ (Option.map (Stmt.relabel ρ)) (forInitializer e) (forInitializer e) := by
  refine (relabels_accept .semicolon).bind fun semicolon => .ite_isSome (relabels_pure rfl) ?_
  refine (relabels_accept .kwVar).bind fun keyword => .ite_isSome ?_ ?_
  · exact relabels_return (relabels_varDeclaration inner) fun _ => rfl
  · exact (relabels_expressionStatement inner).map fun _ => rfl

variable (states : RelabelsStmt ρ s)
include states

theorem relabels_whileStatement : RelabelsStmt ρ (whileStatement e s) := by
  refine (relabels_expect .leftParen _).bind fun _ => inner.bind fun condition => ?_
  exact (relabels_expect .rightParen _).bind fun _ => relabels_return states fun _ => rfl

theorem relabels_ifStatement : RelabelsStmt ρ (ifStatement e s) := by
  refine (relabels_expect .leftParen _).bind fun _ => inner.bind fun condition => ?_
  refine (relabels_expect .rightParen _).bind fun _ => states.bind fun thenBranch => ?_
  refine (relabels_accept .kwElse).bind fun otherwise => ?_
  exact .optional (states.map fun _ => rfl) fun elseBranch => relabels_pure (Stmt.relabel_ifElse ..).symm

theorem relabels_forStatement : RelabelsStmt ρ (forStatement e s) := by
  refine (relabels_expect .leftParen _).bind fun _ =>
    (relabels_forInitializer inner).bind fun initializer => ?_
  refine (relabels_expressionUnless inner .semicolon).bind fun condition => ?_
  refine (relabels_expect .semicolon _).bind fun _ => ?_
  refine (relabels_expressionUnless inner .rightParen).bind fun increment => ?_
  refine (relabels_expect .rightParen _).bind fun _ => ?_
  exact relabels_return states fun body => forLoop_relabel initializer condition increment body

theorem relabels_statementWith (declares : RelabelsStmt ρ d) : RelabelsStmt ρ (statementWith e s d) := by
  refine (relabels_accept .kwFor).bind fun _ => .ite_isSome (relabels_forStatement inner states) ?_
  refine (relabels_accept .kwIf).bind fun _ => .ite_isSome (relabels_ifStatement inner states) ?_
  refine (relabels_accept .kwWhile).bind fun _ => .ite_isSome (relabels_whileStatement inner states) ?_
  refine (relabels_accept .kwReturn).bind fun keyword => ?_
  cases keyword with
  | some keyword => exact relabels_returnStatement inner keyword
  | none =>
    refine (relabels_accept .leftBrace).bind fun _ => .ite_isSome ?_ ?_
    · refine relabels_return (relabels_block declares) fun body => ?_
      rw [Stmt.relabel, Stmt.relabelAll_eq_map]
    · refine (relabels_accept .kwPrint).bind fun _ => .ite_isSome (relabels_printStatement inner) ?_
      exact relabels_expressionStatement inner

theorem relabels_declarationWith (declares : RelabelsStmt ρ d) :
    RelabelsStmt ρ (declarationWith e s d) := by
  refine relabels_peek.then fun kind => (relabels_record rfl).then fun _ => ?_
  refine (relabels_accept .kwVar).bind fun _ => .ite_isSome (relabels_varDeclaration inner) ?_
  refine (relabels_accept .kwFun).bind fun _ => .ite_isSome ?_ ?_
  · exact relabels_return (relabels_function declares .function) fun _ => rfl
  · exact (relabels_accept .kwClass).bind fun _ => .ite_isSome (relabels_classDeclaration declares) states

theorem relabels_declarationOver : RelabelsStmt ρ (declarationOver e s) :=
  relabels_recursive (h := id) (fun _ calls _ => relabels_declarationWith inner states (calls ())) ()

end Over

theorem relabels_statement (levels : Nat) : RelabelsStmt ρ (statement levels) := by
  induction levels with
  | zero => exact relabels_unexpected .shallowNesting
  | succ levels ih =>
    have inner : RelabelsExpr ρ (expression levels) := relabels_expression levels
    exact relabels_statementWith inner ih (relabels_declarationOver inner ih)

theorem relabels_declaration (levels : Nat) : RelabelsStmt ρ (declaration levels) :=
  relabels_declarationOver (relabels_expression levels) (relabels_statement levels)

end Statement

end Parse

namespace Session

variable {ρ}

theorem relabels_declarations : Parse.Relabels ρ (List.map (Stmt.relabel ρ)) declarations declarations :=
  ((Parse.relabels_declaration maxNesting).recovering .declaration false).many _

end Session

end LoxFrontEnd
