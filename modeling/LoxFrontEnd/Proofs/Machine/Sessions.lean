import LoxFrontEnd.Proofs.Machine.Simulation

/-!
Nothing leaks from one call of a session into the next. Every rule of the machine comes back with the
counts that it was called with, well or in error; it has only taken tokens, and put errors behind the
ones in the queue.
-/

namespace LoxFrontEnd.Machine

variable {α : Type} {limit : Nat} {r : Registers}

/-- The rule comes back, with the counts as they were. -/
def Restores (limit : Nat) (r : Registers) (rule : Machine α) : Prop :=
  ∃ result r', rule limit r = some (result, r') ∧ r'.counts = r.counts ∧
    (∃ taken, r.input.tokens = taken ++ r'.input.tokens ∧ r'.input.last = placeAfter r.input.last taken) ∧
    ∃ recovered, r'.session.queue = r.session.queue ++ recovered

theorem Meets.restores {m : Machine α} {p : Parse α} (meets : Meets limit r m p)
    (forward : Parse.Forward p) :
    Restores limit r m :=
  ⟨(p r.input).result, r.after (p r.input), meets, rfl, forward r.input, (p r.input).recovered, rfl⟩

/-- The rules that a call goes through. -/
inductive Rule : {α : Type} → Machine α → Prop
  | declaration : Rule declaration
  | varDeclaration : Rule (varDeclaration expression)
  | function {routine : Routine} : Rule (function declaration routine)
  | parameter : Rule parameter
  | classDeclaration : Rule (classDeclaration declaration)
  | block : Rule (block declaration)
  | statement : Rule statement
  | unnested : Rule (statementWith expression statement declaration)
  | forStatement : Rule (forStatement expression statement)
  | forInitializer : Rule (forInitializer expression)
  | ifStatement : Rule (ifStatement expression statement)
  | whileStatement : Rule (whileStatement expression statement)
  | returnStatement {keyword : Token} : Rule (returnStatement expression keyword)
  | printStatement : Rule (printStatement expression)
  | expressionStatement : Rule (expressionStatement expression)
  | expressionUnless {stop : TokenKind} : Rule (expressionUnless expression stop)
  | expression : Rule expression
  | assignment : Rule (assignment expression)
  | logicOr : Rule (logicOr expression)
  | logicAnd : Rule (logicAnd expression)
  | equality : Rule (equality expression)
  | comparison : Rule (comparison expression)
  | term : Rule (term expression)
  | factor : Rule (factor expression)
  | unary : Rule (unary expression)
  | call : Rule (call expression)
  | suffix {target : Expr} : Rule (suffix expression target)
  | primary : Rule (primary expression)

theorem Rule.restores {rule : Machine α} (isRule : Rule rule) (within : r.input.tokens.length < limit)
    (deep : maxNesting < limit) : Restores limit r rule := by
  obtain ⟨levels, level⟩ : ∃ levels, OnLevel levels r.counts := ⟨_, rfl⟩
  have deep' : levels < limit := Nat.lt_of_le_of_lt (level ▸ Nat.sub_le _ _) deep
  have meets {β : Type} {m : Machine β} {p : Parse β} (realizes : Realizes limit limit (OnLevel levels) m p)
      (forward : Parse.Forward p) : Restores limit r m := (realizes r within level).restores forward
  have le := Nat.le_refl limit
  have inner := realizes_expression le deep'
  have forward := Parse.forward_expression levels
  have branch := realizes_statement le deep'
  have onward := Parse.forward_statement levels
  have item := realizes_declaration le deep'
  have forward' := Parse.forward_declaration levels
  have takes := Parse.takes_declaration levels
  have go := Parse.forward_closed
  cases isRule with
  | declaration => exact meets item forward'
  | varDeclaration => exact meets (realizes_varDeclaration inner forward) (go.varDeclaration forward)
  | function => exact meets (realizes_function item forward' takes le _) (go.function forward' _)
  | parameter => exact meets ((realizes_expect _ _).value _) Parse.forward_parameter
  | classDeclaration =>
    exact meets (realizes_classDeclaration item forward' takes le) (go.classDeclaration forward')
  | block => exact meets (realizes_block item forward' takes le) (go.braced _ _ forward')
  | statement => exact meets branch onward
  | unnested =>
    exact meets (realizes_statementWith inner forward branch onward le forward' takes item)
      (go.statementWith forward onward forward')
  | forStatement =>
    exact meets (realizes_forStatement inner forward branch) (go.forStatement forward onward)
  | forInitializer => exact meets (realizes_forInitializer inner forward) (go.forInitializer forward)
  | ifStatement =>
    exact meets (realizes_ifStatement inner forward branch onward) (go.ifStatement forward onward)
  | whileStatement =>
    exact meets (realizes_whileStatement inner forward branch) (go.whileStatement forward onward)
  | returnStatement => exact meets (realizes_returnStatement inner forward _) (go.returnStatement forward _)
  | printStatement => exact meets (realizes_printStatement inner forward) (go.printStatement forward)
  | expressionStatement =>
    exact meets (realizes_expressionStatement inner forward) (go.expressionStatement forward)
  | expressionUnless => exact meets (realizes_expressionUnless inner _) (go.expressionUnless forward _)
  | expression => exact meets inner forward
  | assignment =>
    exact meets (realizes_assignment inner forward le deep')
      (go.assignment (fun _ => Parse.forward_fail _) forward _)
  | logicOr => exact meets (realizes_logicOr inner forward le deep') (go.logicOr forward _)
  | logicAnd => exact meets (realizes_logicAnd inner forward le deep') (go.logicAnd forward _)
  | equality => exact meets (realizes_equality inner forward le deep') (go.equality forward _)
  | comparison => exact meets (realizes_comparison inner forward le deep') (go.comparison forward _)
  | term => exact meets (realizes_term inner forward le deep') (go.term forward _)
  | factor => exact meets (realizes_factor inner forward le deep') (go.factor forward _)
  | unary => exact meets (realizes_unary inner forward le deep') (go.unary forward _)
  | call => exact meets (realizes_call inner forward le) (go.call forward)
  | suffix => exact meets (realizes_suffix inner forward le _) (go.suffix forward _)
  | primary => exact meets (realizes_primary inner forward) (go.primary forward)

/-- Behind any calls nothing is counted, the tokens are a rest of the list, and the place is the one
of the last token taken. The next call only puts errors behind the others before it takes its answer;
a new parser with the same tokens, place and queue gives the same answer. Within a call every rule
restores the counts. -/
theorem nothing_leaks (tokens : List Token) (calls : List Call) (limit : Nat)
    (within : tokens.length < limit) (deep : maxNesting < limit) :
    let before := (Session.ofTokens tokens).run calls
    let s := before.session
    run limit (.ofTokens tokens) calls = some (before.result, ⟨s, .zero⟩) ∧
    (∃ taken, tokens = taken ++ s.input.tokens ∧ s.input.last = placeAfter .start taken) ∧
    (∀ call, ∃ reply r,
      run limit (.ofTokens tokens) (calls ++ [call]) = some (before.result ++ [reply], r) ∧
      r.counts = .zero ∧
      (∃ taken, s.input.tokens = taken ++ r.input.tokens ∧ r.input.last = placeAfter s.input.last taken) ∧
      (∃ recovered, Session.Answered (s.queue ++ recovered) reply r.session.queue) ∧
      ∀ limit', s.input.tokens.length < limit' → maxNesting < limit' →
        answer limit' ⟨⟨⟨s.input.tokens, s.input.last⟩, s.queue⟩, .zero⟩ call = some (reply, r)) ∧
    ∀ (α : Type) (rule : Machine α) (r : Registers), Rule rule → r.input.tokens.length < limit →
      Restores limit r rule := by
  intro before s
  refine ⟨run_eq calls within deep, (Session.ofTokens tokens).run_forward calls, fun call => ?_,
    fun _ _ _ isRule short => isRule.restores short deep⟩
  obtain ⟨session, result⟩ := (Session.ofTokens tokens).run_append calls [call]
  refine ⟨(s.call call).result, ⟨(s.call call).session, .zero⟩, ?_, rfl, s.call_forward call,
    s.call_answered call, fun limit' within' deep' => answer_eq within' deep' call⟩
  rw [Registers.ofTokens, run_eq (calls ++ [call]) within deep, session, result]
  rfl

/-- A call fails within a class that is never closed, two braces deep, and the next one starts with
nothing open. -/
theorem nothing_leaks_unclosed :
    let tokens : List Token :=
      [⟨.kwClass, "class", ⟨1, 1⟩⟩, ⟨.identifier, "A", ⟨1, 7⟩⟩, ⟨.leftBrace, "\x7b", ⟨1, 9⟩⟩,
        ⟨.identifier, "m", ⟨1, 11⟩⟩, ⟨.leftParen, "(", ⟨1, 12⟩⟩, ⟨.rightParen, ")", ⟨1, 13⟩⟩,
        ⟨.leftBrace, "\x7b", ⟨1, 15⟩⟩, ⟨.kwNil, "nil", ⟨1, 17⟩⟩, ⟨.eof, "", ⟨1, 20⟩⟩]
    tokens.length < 129 ∧ maxNesting < 129 ∧
      run 129 (.ofTokens tokens) [.statement] = some (((Session.ofTokens tokens).run [.statement]).result,
        ⟨⟨⟨[], ⟨1, 20⟩⟩,
          [.unexpectedToken .braceAfterBlock .endOfInput ⟨1, 20⟩]⟩, .zero⟩) := by
  intro tokens
  have within : tokens.length < 129 := by decide
  have deep : maxNesting < 129 := by decide
  obtain ⟨runs, -⟩ := nothing_leaks tokens [.statement] 129 within deep
  refine ⟨within, deep, runs.trans ?_⟩
  have behind : ((Session.ofTokens tokens).run [.statement]).session = ⟨⟨[], ⟨1, 20⟩⟩,
      [.unexpectedToken .braceAfterBlock .endOfInput ⟨1, 20⟩]⟩ := by decide +kernel
  rw [behind]

end LoxFrontEnd.Machine
