import LoxFrontEnd.Proofs.Parse.Closure

/-!
Progress. A rule that ends well behind a token it asked for has taken a token, and recovery takes the token
at fault unless it closes a block. So every turn of every loop takes a token or is the last one.
-/

namespace LoxFrontEnd

/-- Recovery goes forward. -/
theorem Input.skipOn_forward (enclosed : Bool) (last : Position) (tokens : List Token) :
    ∃ taken, tokens = taken ++ (Input.skipOn enclosed last tokens).tokens ∧
      (Input.skipOn enclosed last tokens).last = placeAfter last taken := by
  induction tokens generalizing last with
  | nil => exact ⟨[], rfl, rfl⟩
  | cons token tokens ih =>
    rw [Input.skipOn]
    split
    · exact ⟨[], rfl, rfl⟩
    split
    · exact ⟨[token], rfl, rfl⟩
    split
    · exact ⟨[], rfl, rfl⟩
    · obtain ⟨taken, front, place⟩ := ih token.position
      exact ⟨token :: taken, congrArg (token :: ·) front, place⟩

theorem Input.skip_cons (enclosed : Bool) (token : Token) (tokens : List Token) (last : Position) :
    Input.skip enclosed ⟨token :: tokens, last⟩ =
      if token.kind = .rightBrace ∧ enclosed = true then ⟨token :: tokens, last⟩
      else if token.kind = .semicolon then ⟨tokens, token.position⟩
      else Input.skipOn enclosed token.position tokens := rfl

theorem Input.skip_forward (enclosed : Bool) (input : Input) :
    ∃ taken, input.tokens = taken ++ (input.skip enclosed).tokens ∧
      (input.skip enclosed).last = placeAfter input.last taken := by
  obtain ⟨tokens, last⟩ := input
  cases tokens with
  | nil => exact ⟨[], rfl, rfl⟩
  | cons token tokens =>
    rw [Input.skip_cons]
    split
    · exact ⟨[], rfl, rfl⟩
    split
    · exact ⟨[token], rfl, rfl⟩
    · obtain ⟨taken, front, place⟩ := Input.skipOn_forward enclosed token.position tokens
      exact ⟨token :: taken, congrArg (token :: ·) front, place⟩

/-- The first token is skipped whatever it is, unless it closes a block. -/
theorem Input.skip_shorter {enclosed : Bool} {input : Input} (some : input.tokens ≠ [])
    (open' : ¬ (input.kind = .rightBrace ∧ enclosed = true)) :
    (input.skip enclosed).tokens.length < input.tokens.length := by
  obtain ⟨tokens, last⟩ := input
  cases tokens with
  | nil => exact absurd rfl some
  | cons token tokens =>
    rw [Input.skip_cons, if_neg (by exact open')]
    split
    · exact Nat.lt_succ_self _
    · obtain ⟨taken, front, _⟩ := Input.skipOn_forward enclosed token.position tokens
      have lengths := congrArg List.length front
      rw [List.length_append] at lengths
      simp only [List.length_cons]
      omega

namespace Parse

variable {α β ι : Type}

theorem forward_fail (e : ParseError) : Forward (fail e : Parse α) := forward_of_rest_eq fun _ => rfl

theorem forward_started (kind : TokenKind) : Forward (record (.started kind)) :=
  forward_of_rest_eq fun _ => rfl

theorem Forward.recovering {p : Parse α} (forward : Forward p) (site : RecoverySite) (enclosed : Bool) :
    Forward (recovering site enclosed p) := by
  intro input
  obtain ⟨taken, front, place⟩ := forward input
  rw [Parse.recovering]
  rcases run : p input with ⟨e | a, later, events⟩
  · rw [run] at front place
    obtain ⟨skipped, front', place'⟩ := later.skip_forward enclosed
    refine ⟨taken ++ skipped, ?_, ?_⟩
    · rw [front, List.append_assoc]
      exact congrArg _ front'
    · rw [placeAfter_append, ← place]
      exact place'
  · rw [run] at front place
    exact ⟨taken, front, place⟩

theorem forward_sequential : Sequential @Forward where
  pure := forward_pure
  unexpected expected _ := forward_unexpected expected
  peek := forward_peek
  takeSome := forward_takeSome
  bind := Forward.bind
  recursive := forward_recursive

theorem forward_closed : Closed @Forward where
  toSequential := forward_sequential
  started := forward_started
  braced site _ _ forward :=
    (forward_sequential.many (forward.recovering site true) endsBody).bind fun _ =>
      (forward_expect _ _).bind fun _ => forward_pure _

theorem forward_expression (levels : Nat) : Forward (expression levels) :=
  forward_sequential.expression
    (fun levels inner => forward_sequential.assignment (fun _ => forward_fail _) inner levels) levels

theorem forward_statement (levels : Nat) : Forward (statement levels) :=
  forward_closed.statement forward_expression levels

theorem forward_declaration (levels : Nat) : Forward (declaration levels) :=
  forward_closed.declaration forward_expression levels

/-- A rule that ends well has taken a token. -/
def Takes (p : Parse α) : Prop :=
  ∀ input a rest events, p input = ⟨.ok a, rest, events⟩ → rest.tokens.length < input.tokens.length

section Takes

variable {p : Parse α} {f : α → Parse β}

/-- Where a sequence ends well, its first rule ends well, and the others do behind it. -/
theorem bind_eq_ok {input rest : Input} {b : β} {events : List Event}
    (run : (p >>= f) input = ⟨.ok b, rest, events⟩) :
    ∃ a later before after, p input = ⟨.ok a, later, before⟩ ∧ f a later = ⟨.ok b, rest, after⟩ ∧
      events = before ++ after := by
  rcases first : p input with ⟨e | a, later, before⟩
  · rw [bind_of_error first] at run
    cases run
  · rw [bind_of_ok first] at run
    rcases next : f a later with ⟨result, rest', after⟩
    rw [next] at run
    cases run
    exact ⟨a, later, before, after, rfl, next, rfl⟩

theorem Takes.bind (first : Takes p) (next : ∀ a, Forward (f a)) : Takes (p >>= f) := by
  intro input b rest events run
  obtain ⟨a, later, before, after, run, run', -⟩ := bind_eq_ok run
  have taken := first input a later before run
  have less := (next a).length_le later
  rw [run'] at less
  exact Nat.lt_of_le_of_lt less taken

theorem Forward.takes_bind (first : Forward p) (next : ∀ a, Takes (f a)) : Takes (p >>= f) := by
  intro input b rest events run
  obtain ⟨a, later, before, after, run, run', -⟩ := bind_eq_ok run
  have less := first.length_le input
  rw [run] at less
  exact Nat.lt_of_lt_of_le (next a later b rest after run') less

theorem shortens_none : Shortens (pure none : Parse (Option α)) := by
  intro input a rest events run
  cases run

theorem takes_unexpected (expected : Expected) : Takes (unexpected expected : Parse α) := by
  intro input a rest events run
  cases run

/-- Behind a token that was taken anything may follow. -/
theorem shorter_of_takeSome_bind {choose : Token → Option α} {f : Option α → Parse β}
    {input rest : Input} {b : β} {events : List Event} (taken : ∀ a, Forward (f (some a)))
    (passed : ∀ later after, f none later = ⟨.ok b, rest, after⟩ → rest.tokens.length < later.tokens.length)
    (run : (takeSome choose >>= f) input = ⟨.ok b, rest, events⟩) :
    rest.tokens.length < input.tokens.length := by
  obtain ⟨o, later, before, after, run, run', -⟩ := bind_eq_ok run
  have less := (forward_takeSome choose).length_le input
  rw [run] at less
  cases o with
  | none => exact Nat.lt_of_lt_of_le (passed later after run') less
  | some a =>
    have fewer := shortens_takeSome choose input a later before run
    have less := (taken a).length_le later
    rw [run'] at less
    exact Nat.lt_of_le_of_lt less fewer

theorem takes_takeSome_bind {choose : Token → Option α} {f : Option α → Parse β}
    (taken : ∀ a, Forward (f (some a))) (passed : Takes (f none)) : Takes (takeSome choose >>= f) :=
  fun _ b rest _ => shorter_of_takeSome_bind taken fun later after => passed later b rest after

theorem shortens_takeSome_bind {choose : Token → Option α} {f : Option α → Parse (Option β)}
    (taken : ∀ a, Forward (f (some a))) (passed : Shortens (f none)) : Shortens (takeSome choose >>= f) :=
  fun _ b rest _ => shorter_of_takeSome_bind taken fun later after => passed later b rest after

theorem takes_expect (kind : TokenKind) (expected : Expected) : Takes (expect kind expected) :=
  takes_takeSome_bind (fun token => forward_pure token) (takes_unexpected expected)

end Takes

section Declaration

variable {e : Parse Expr} {s d : Parse Stmt}

theorem takes_expressionStatement (inner : Forward e) : Takes (expressionStatement e) :=
  inner.takes_bind fun _ => (takes_expect _ _).bind fun _ => forward_pure _

theorem takes_braced (site : RecoverySite) (expected : Expected) {item : Parse α} (inner : Forward item) :
    Takes (braced site expected item) :=
  (forward_sequential.many (inner.recovering site true) endsBody).takes_bind fun _ =>
    (takes_expect _ _).bind fun _ => forward_pure _

theorem takes_function (inner : Forward d) (routine : Routine) : Takes (function d routine) :=
  (forward_expect _ _).takes_bind fun _ =>
    (forward_expect _ _).takes_bind fun _ =>
      (forward_separatedUnless forward_parameter).takes_bind fun _ =>
        (forward_expect _ _).takes_bind fun _ =>
          (forward_expect _ _).takes_bind fun _ =>
            (takes_braced _ _ inner).bind fun _ => forward_pure _

/-- A statement begins with a keyword or a brace, or it is an expression with a semicolon. -/
theorem takes_statementWith (inner : Forward e) (branch : Forward s) (item : Forward d) :
    Takes (statementWith e s d) := by
  refine takes_takeSome_bind (fun _ => forward_closed.forStatement inner branch) ?_
  refine takes_takeSome_bind (fun _ => forward_closed.ifStatement inner branch) ?_
  refine takes_takeSome_bind (fun _ => forward_closed.whileStatement inner branch) ?_
  refine takes_takeSome_bind (fun _ => forward_closed.returnStatement inner _) ?_
  refine takes_takeSome_bind (fun _ => (forward_closed.braced _ _ item).bind fun _ => forward_pure _) ?_
  refine takes_takeSome_bind (fun _ => forward_closed.printStatement inner) ?_
  exact takes_expressionStatement inner

theorem takes_statement (levels : Nat) : Takes (statement levels) := by
  cases levels with
  | zero => exact takes_unexpected .shallowNesting
  | succ levels =>
    exact takes_statementWith (forward_expression levels) (forward_statement levels)
      (forward_declaration levels)

theorem takes_declaration (levels : Nat) : Takes (declaration levels) := by
  have item := forward_declaration levels
  rw [declaration_eq]
  refine forward_peek.takes_bind fun kind => (forward_started kind).takes_bind fun _ => ?_
  refine takes_takeSome_bind (fun _ => forward_closed.varDeclaration (forward_expression levels)) ?_
  refine takes_takeSome_bind (fun _ => (forward_closed.function item _).bind fun _ => forward_pure _) ?_
  exact takes_takeSome_bind (fun _ => forward_closed.classDeclaration item) (takes_statement levels)

/-- An item of a body takes a token, well-formed or not, where it does not begin with a token that
recovery keeps. -/
theorem Takes.recovering {p : Parse α} (takes : Takes p) (forward : Forward p) (site : RecoverySite)
    {enclosed : Bool} {input : Input} (notEnd : input.kind ≠ .eof)
    (open' : ¬ (input.kind = .rightBrace ∧ enclosed = true)) :
    (recovering site enclosed p input).rest.tokens.length < input.tokens.length := by
  have some : input.tokens ≠ [] := by
    intro none
    rw [Input.kind, none] at notEnd
    exact notEnd rfl
  rw [Parse.recovering]
  rcases run : p input with ⟨e | a, later, events⟩
  · obtain ⟨taken, front, place⟩ := forward input
    rw [run] at front place
    obtain ⟨skipped, front', -⟩ := later.skip_forward enclosed
    have lengths := congrArg List.length front
    have lengths' := congrArg List.length front'
    rw [List.length_append] at lengths lengths'
    show (later.skip enclosed).tokens.length < input.tokens.length
    cases taken with
    | nil =>
      -- the rule failed at the token that it began with, which the loop has looked at
      have same : later = input := by
        obtain ⟨tokens, last⟩ := input
        obtain ⟨tokens', last'⟩ := later
        rw [Input.mk.injEq]
        exact ⟨front.symm, place⟩
      rw [same]
      exact Input.skip_shorter some open'
    | cons token taken =>
      simp only [List.length_cons] at lengths
      omega
  · exact takes input a later events run

end Declaration

theorem shortens_link {ο : Type} {op? : TokenKind → Option ο} {node : ο → Expr → Expr → Expr}
    {operand : Parse Expr} (forward : Forward operand) (left : Expr) :
    Shortens (link op? node operand left) :=
  shortens_takeSome_bind (fun _ => forward.bind fun _ => forward_pure _) shortens_none

theorem shortens_suffix {e : Parse Expr} (inner : Forward e) (target : Expr) :
    Shortens (suffix e target) := by
  have items : Forward (separatedUnless .rightParen e) := forward_separatedUnless inner
  have arguments := items.bind fun es =>
    (forward_expect .rightParen .parenAfterArguments).bind fun _ =>
      forward_pure (some (Expr.call target es))
  have property := (forward_expect .identifier .propertyName).bind fun name =>
    forward_pure (some (Expr.getAttr target name.lexeme))
  refine shortens_takeSome_bind (fun _ => arguments) ?_
  exact shortens_takeSome_bind (fun _ => property) shortens_none

end Parse

end LoxFrontEnd
