import LoxFrontEnd.Proofs.Machine.Realizes
import LoxFrontEnd.Proofs.Machine.Rules
import LoxFrontEnd.Proofs.Parse.Calls

/-!
The machine does what the rules do, rule by rule. On tokens that are fewer than its limit it answers
every call as a session does, and all that it counts is at zero again behind the answer.
-/

namespace LoxFrontEnd.Machine

variable {α β : Type} {limit bound levels : Nat} {allowed : Counts → Prop}

section Expression

variable {e : Machine Expr} {e' : Parse Expr} (inner : Realizes limit bound allowed e e')
  (forward : Parse.Forward e') (within : bound ≤ limit)

theorem realizes_expect (kind : TokenKind) (expected : Expected) :
    Realizes limit bound allowed (expect kind expected) (Parse.expect kind expected) := realizes_lift _

theorem realizes_expect_bind {kind : TokenKind} {expected : Expected} {f : Token → Machine β}
    {g : Token → Parse β} (next : ∀ token, Realizes limit bound allowed (f token) (g token)) :
    Realizes limit bound allowed (expect kind expected >>= f) (Parse.expect kind expected >>= g) :=
  realizes_lift_bind (Parse.forward_expect kind expected) next

/-- A token may be taken, or none. -/
theorem realizes_choose_bind {choose : Token → Option α} {f : Option α → Machine β} {g : Option α → Parse β}
    (next : ∀ o, Realizes limit bound allowed (f o) (g o)) :
    Realizes limit bound allowed (takeSome choose >>= f) (Parse.takeSome choose >>= g) :=
  realizes_lift_bind (Parse.forward_takeSome choose) next

include inner forward

theorem realizes_primary : Realizes limit bound allowed (primary e) (Parse.primary e') := by
  refine realizes_choose_bind fun leaf => ?_
  cases leaf with
  | some leaf => exact realizes_pure leaf
  | none =>
    refine realizes_choose_bind fun keyword => ?_
    cases keyword with
    | some keyword => exact realizes_expect_bind fun _ => (realizes_expect _ _).value _
    | none =>
      refine realizes_choose_bind fun paren => ?_
      split
      · exact inner.bind forward fun _ => (realizes_expect _ _).value _
      · exact realizes_lift _

include within

theorem realizes_suffix (target : Expr) :
    Realizes limit bound allowed (suffix e target) (Parse.suffix e' target) := by
  refine realizes_choose_bind fun paren => ?_
  split
  · refine (inner.separatedUnless within forward _).bind (Parse.forward_separatedUnless forward) fun _ => ?_
    exact (realizes_expect _ _).value _
  refine realizes_choose_bind fun dot => ?_
  split
  · exact (realizes_expect _ _).value _
  · exact realizes_pure none

theorem realizes_call : Realizes limit bound allowed (call e) (Parse.call e') := by
  have first := realizes_primary inner forward
  refine first.bind (Parse.forward_sequential.primary forward) ?_
  exact Realizes.steps within (realizes_suffix inner forward within)
    (Parse.forward_sequential.suffix forward) (Parse.shortens_suffix forward)

omit inner forward

omit within in
theorem realizes_link {ο : Type} (op? : TokenKind → Option ο) (node : ο → Expr → Expr → Expr)
    (inner : Realizes limit bound allowed e e') (left : Expr) :
    Realizes limit bound allowed (link op? node e left) (Parse.link op? node e' left) := by
  refine realizes_choose_bind fun o => ?_
  cases o with
  | none => exact realizes_pure none
  | some op => exact inner.value fun right => some (node op left right)

theorem realizes_chain {ο : Type} (op? : TokenKind → Option ο) (node : ο → Expr → Expr → Expr)
    (inner : Realizes limit bound allowed e e') (forward : Parse.Forward e') :
    Realizes limit bound allowed (chain op? node e) (Parse.chain op? node e') := by
  refine inner.bind forward (Realizes.steps within (realizes_link op? node inner) (fun left => ?_)
    (Parse.shortens_link forward))
  exact Parse.forward_sequential.link op? node forward left

end Expression

section Unary

variable {e : Machine Expr} {e' : Parse Expr} {operators : List UnaryOp} {r : Registers}

theorem sign_none (other : r.input.kind.unaryOp? = none) : sign operators limit r = some (.ok none, r) := by
  rw [sign, bind_of_ok peek_eq, if_pos (by rw [other]; rfl)]
  rfl

/-- The first operator that there is no level for is refused. -/
theorem sign_spent {op : UnaryOp} (isSign : r.input.kind.unaryOp? = some op)
    (spent : maxNesting ≤ r.counts.nesting + operators.length) :
    sign operators limit r = some (.error (r.input.unexpected .shallowNesting), r) := by
  have counted : counts limit r = some (.ok r.counts, r) := rfl
  rw [sign, bind_of_ok peek_eq, if_neg (by rw [isSign]; exact Bool.false_ne_true),
    bind_of_ok counted, if_pos spent]
  exact bind_of_error (congrArg (fun r' => some (Except.error _, r')) (r.after_input _))

theorem sign_some {op : UnaryOp} {later : Input} (isSign : r.input.kind.unaryOp? = some op)
    (left : r.counts.nesting + operators.length < maxNesting)
    (taken : Parse.takeSome (fun token => token.kind.unaryOp?) r.input = ⟨.ok (some op), later, []⟩) :
    sign operators limit r =
      some (.ok (some (operators ++ [op])),
        r.after (⟨.ok (some op), later, []⟩ : Outcome (Option UnaryOp))) := by
  have counted : counts limit r = some (.ok r.counts, r) := rfl
  have took : Meets limit r (takeSome fun token => token.kind.unaryOp?)
      (Parse.takeSome fun token => token.kind.unaryOp?) := meets_lift _
  rw [Meets, taken] at took
  rw [sign, bind_of_ok peek_eq, if_neg (by rw [isSign]; exact Bool.false_ne_true), bind_of_ok counted,
    if_neg (Nat.not_le_of_lt left)]
  exact bind_of_ok took

theorem takes_sign {op : UnaryOp} {input : Input} (isSign : input.kind.unaryOp? = some op) :
    ∃ later, Parse.takeSome (fun token => token.kind.unaryOp?) input = ⟨.ok (some op), later, []⟩ := by
  obtain ⟨tokens, last⟩ := input
  cases tokens with
  | nil => cases isSign
  | cons token tokens => exact ⟨_, Parse.takeSome_of_some isSign⟩

/-- The operators that the machine has collected are applied to what the rule makes of the rest. -/
theorem meets_signs (inner : Realizes limit bound allowed e e') (forward : Parse.Forward e')
    (within : bound ≤ limit) {turns : Nat} (enough : levels < turns)
    (short : r.input.tokens.length < bound) (counted : allowed r.counts)
    (left : maxNesting - (r.counts.nesting + operators.length) = levels) :
    Meets limit r
      (unrolled (stepsTurn sign) turns operators >>= fun os => call e >>= fun operand =>
        pure (os.foldr .unary operand))
      (Parse.unary e' levels >>= fun operand => pure (operators.foldr .unary operand)) := by
  induction turns generalizing levels operators r with
  | zero => exact absurd enough (Nat.not_lt_zero _)
  | succ turns ih =>
    rw [unrolled, stepsTurn, Machine.bind_assoc]
    cases isSign : r.input.kind.unaryOp? with
    | none =>
      have plain := (realizes_call inner forward within r short counted).value (operators.foldr .unary ·)
      rw [Meets, bind_of_ok (sign_none isSign)]
      exact plain.congr (Parse.bind_of_eq (Parse.unary_plain isSign _).symm)
    | some op =>
      cases levels with
      | zero =>
        have spent : maxNesting ≤ r.counts.nesting + operators.length := Nat.le_of_sub_eq_zero left
        rw [Meets, bind_of_error (sign_spent isSign spent), Parse.bind_of_error (Parse.unary_spent isSign),
          Registers.after_input]
      | succ levels =>
        obtain ⟨later, taken⟩ := takes_sign isSign
        have fewer := Parse.shortens_takeSome _ _ _ _ _ taken
        have left' : maxNesting - (r.counts.nesting + (operators ++ [op]).length) = levels := by
          rw [List.length_append, List.length_singleton]
          omega
        have next := @ih levels (operators ++ [op])
          (r.after (⟨.ok (some op), later, []⟩ : Outcome (Option UnaryOp)))
          (Nat.lt_of_succ_lt_succ enough) (Nat.lt_trans fewer short) counted left'
        have same :
            (Parse.unary e' (levels + 1) >>= fun operand => pure (operators.foldr .unary operand)) r.input =
              (Parse.unary e' levels >>= fun operand => pure ((operators ++ [op]).foldr .unary operand))
                later := by
          rw [Parse.unary, bind_assoc, Parse.bind_of_ok taken, Parse.behind_nil, bind_assoc]
          simp only [pure_bind, List.foldr_append, List.foldr_cons, List.foldr_nil]
        rw [Meets, bind_of_ok (sign_some isSign (by omega) taken), same]
        rw [Meets, Registers.after_after, Parse.behind_nil] at next
        exact next

end Unary

section Ladder

variable {e : Machine Expr} {e' : Parse Expr} (inner : Realizes limit bound (OnLevel levels) e e')
  (forward : Parse.Forward e') (within : bound ≤ limit) (deep : levels < limit)
include inner forward within deep

theorem realizes_unary : Realizes limit bound (OnLevel levels) (unary e) (Parse.unary e' levels) := by
  intro r short counted
  have left : maxNesting - (r.counts.nesting + ([] : List UnaryOp).length) = levels := counted
  refine (meets_signs inner forward within deep short counted left).congr ?_
  exact congrFun (bind_pure (Parse.unary e' levels)) r.input

theorem realizes_factor : Realizes limit bound (OnLevel levels) (factor e) (Parse.factor e' levels) :=
  realizes_chain within _ _ (realizes_unary inner forward within deep)
    (Parse.forward_sequential.unary forward levels)

theorem realizes_term : Realizes limit bound (OnLevel levels) (term e) (Parse.term e' levels) :=
  realizes_chain within _ _ (realizes_factor inner forward within deep)
    (Parse.forward_sequential.factor forward levels)

theorem realizes_comparison :
    Realizes limit bound (OnLevel levels) (comparison e) (Parse.comparison e' levels) :=
  realizes_chain within _ _ (realizes_term inner forward within deep)
    (Parse.forward_sequential.term forward levels)

theorem realizes_equality : Realizes limit bound (OnLevel levels) (equality e) (Parse.equality e' levels) :=
  realizes_chain within _ _ (realizes_comparison inner forward within deep)
    (Parse.forward_sequential.comparison forward levels)

theorem realizes_logicAnd : Realizes limit bound (OnLevel levels) (logicAnd e) (Parse.logicAnd e' levels) :=
  realizes_chain within _ _ (realizes_equality inner forward within deep)
    (Parse.forward_sequential.equality forward levels)

theorem realizes_logicOr : Realizes limit bound (OnLevel levels) (logicOr e) (Parse.logicOr e' levels) :=
  realizes_chain within _ _ (realizes_logicAnd inner forward within deep)
    (Parse.forward_sequential.logicAnd forward levels)

theorem realizes_assignment :
    Realizes limit bound (OnLevel levels) (assignment e) (Parse.assignment e' levels) := by
  refine (realizes_logicOr inner forward within deep).bind (Parse.forward_sequential.logicOr forward levels)
    fun target => ?_
  refine realizes_choose_bind fun sign => ?_
  cases sign with
  | none => exact realizes_pure target
  | some sign =>
    refine inner.bind forward fun value => ?_
    cases target <;> first | exact realizes_pure _ | exact realizes_lift _

end Ladder

/-- An expression takes one turn for each level it is read on, and one to be refused. -/
theorem realizes_expression (within : bound ≤ limit) (deep : levels < limit) :
    Realizes limit bound (OnLevel levels) expression (Parse.expression levels) := by
  have turns (turns : Nat) : levels < turns → Realizes limit bound (OnLevel levels)
      (unrolled (fun (again : Unit → Machine Expr) _ => nested (assignment (again ()))) turns ())
      (Parse.expression levels) := by
    induction levels generalizing turns with
    | zero =>
      intro some
      obtain ⟨turns, rfl⟩ := Nat.exists_eq_succ_of_ne_zero (Nat.ne_of_gt some)
      exact realizes_nested_zero _
    | succ levels ih =>
      intro enough
      obtain ⟨turns, rfl⟩ := Nat.exists_eq_succ_of_ne_zero (Nat.ne_of_gt (Nat.zero_lt_of_lt enough))
      have inner := ih (Nat.lt_of_succ_lt deep) turns (Nat.lt_of_succ_lt_succ enough)
      exact (realizes_assignment inner (Parse.forward_expression levels) within
        (Nat.lt_of_succ_lt deep)).nested
  exact fun r short counted => turns limit deep r short counted

/-- The brace of a list of items is open while they are read. The list does not fail, so the brace is
closed again. -/
theorem realizes_braced {item : Machine α} {item' : Parse α} (site : RecoverySite) (expected : Expected)
    (inner : Realizes limit bound (OnLevel levels) item item') (forward : Parse.Forward item')
    (takes : Parse.Takes item') (within : bound ≤ limit) :
    Realizes limit bound (OnLevel levels) (braced expected item) (Parse.braced site expected item') := by
  let enclosed (c : Counts) : Prop := OnLevel levels c ∧ 0 < c.braces
  have inside : Realizes limit bound enclosed item item' := inner.weaken fun _ counted => counted.1
  have one : Realizes limit bound enclosed (recovering item) (Parse.recovering site true item') :=
    inside.recovering site fun _ counted => decide_eq_true counted.2
  have items : Realizes limit bound (OnLevel levels) (opened (many Parse.endsBody (recovering item)))
      (Parse.many Parse.endsBody (Parse.recovering site true item')) := by
    rintro ⟨s, c⟩ short counted
    obtain ⟨as, rest, events, list⟩ := (Parse.ends_body true).items takes forward site s.input
    have run := one.many within ((Parse.ends_body true).shorter takes forward site) ⟨s, c.openBrace⟩ short
      ⟨counted, Nat.succ_pos _⟩
    exact run.opened (congrArg Outcome.result list.many_eq)
  refine items.bind (Parse.forward_sequential.many (forward.recovering site true) _) fun as => ?_
  exact (realizes_expect _ _).value fun _ => as

section Body

variable {d : Machine Stmt} {d' : Parse Stmt} (item : Realizes limit bound (OnLevel levels) d d')
  (forward : Parse.Forward d') (takes : Parse.Takes d') (within : bound ≤ limit)
include item forward takes within

theorem realizes_block : Realizes limit bound (OnLevel levels) (block d) (Parse.block d') :=
  realizes_braced .declaration .braceAfterBlock item forward takes within

theorem realizes_function (routine : Routine) :
    Realizes limit bound (OnLevel levels) (function d routine) (Parse.function d' routine) := by
  have parameter : Realizes limit bound (OnLevel levels) parameter Parse.parameter :=
    (realizes_expect _ _).value _
  refine realizes_expect_bind fun _ => realizes_expect_bind fun _ => ?_
  refine (parameter.separatedUnless within Parse.forward_parameter _).bind
    (Parse.forward_separatedUnless Parse.forward_parameter) fun _ => ?_
  refine realizes_expect_bind fun _ => realizes_expect_bind fun _ => ?_
  exact (realizes_block item forward takes within).value _

theorem realizes_classDeclaration :
    Realizes limit bound (OnLevel levels) (classDeclaration d) (Parse.classDeclaration d') := by
  have method := realizes_function item forward takes within .method
  have methods :=
    realizes_braced .classBody .braceAfterClassBody method (Parse.forward_closed.function forward _)
    (Parse.takes_function forward _) within
  rw [Parse.classDeclaration_eq]
  refine realizes_expect_bind fun name => realizes_choose_bind fun less => ?_
  split
  · refine ((realizes_expect _ _).map some).bind
      (Parse.forward_sequential.map some (Parse.forward_expect _ _)) ?_
    exact fun superclass => realizes_expect_bind fun _ => methods.value _
  · refine (realizes_pure none).bind (Parse.forward_pure none) fun superclass => ?_
    exact realizes_expect_bind fun _ => methods.value _

end Body

section Simple

variable {e : Machine Expr} {e' : Parse Expr} (inner : Realizes limit bound allowed e e')
  (forward : Parse.Forward e')
include inner forward

theorem realizes_varDeclaration :
    Realizes limit bound allowed (varDeclaration e) (Parse.varDeclaration e') := by
  refine realizes_expect_bind fun name => realizes_choose_bind fun sign => ?_
  split
  · exact (inner.map some).bind (Parse.forward_sequential.map some forward) fun _ =>
      (realizes_expect _ _).value _
  · exact (realizes_pure none).bind (Parse.forward_pure none) fun _ => (realizes_expect _ _).value _

theorem realizes_expressionStatement :
    Realizes limit bound allowed (expressionStatement e) (Parse.expressionStatement e') :=
  inner.bind forward fun _ => (realizes_expect _ _).value _

theorem realizes_printStatement :
    Realizes limit bound allowed (printStatement e) (Parse.printStatement e') :=
  inner.bind forward fun _ => (realizes_expect _ _).value _

omit forward in
theorem realizes_expressionUnless (stop : TokenKind) :
    Realizes limit bound allowed (expressionUnless e stop) (Parse.expressionUnless e' stop) := by
  refine realizes_lift_bind Parse.forward_peek fun kind => ?_
  split
  · exact realizes_pure none
  · exact inner.map some

theorem realizes_returnStatement (keyword : Token) :
    Realizes limit bound allowed (returnStatement e keyword) (Parse.returnStatement e' keyword) :=
  (realizes_expressionUnless inner _).bind (Parse.forward_closed.expressionUnless forward _) fun _ =>
    (realizes_expect _ _).value _

theorem realizes_forInitializer :
    Realizes limit bound allowed (forInitializer e) (Parse.forInitializer e') := by
  refine realizes_choose_bind fun semicolon => ?_
  split
  · exact realizes_pure none
  refine realizes_choose_bind fun keyword => ?_
  split
  · exact (realizes_varDeclaration inner forward).value some
  · exact (realizes_expressionStatement inner forward).map some

end Simple

section Statement

variable {e : Machine Expr} {e' : Parse Expr} (inner : Realizes limit bound allowed e e')
  (forward : Parse.Forward e') {s : Machine Stmt} {s' : Parse Stmt}
    (branch : Realizes limit bound allowed s s') (onward : Parse.Forward s')
include inner forward branch

theorem realizes_whileStatement :
    Realizes limit bound allowed (whileStatement e s) (Parse.whileStatement e' s') :=
  realizes_expect_bind fun _ => inner.bind forward fun _ => realizes_expect_bind fun _ => branch.value _

theorem realizes_forStatement :
    Realizes limit bound allowed (forStatement e s) (Parse.forStatement e' s') := by
  refine realizes_expect_bind fun _ => ?_
  refine (realizes_forInitializer inner forward).bind
    (Parse.forward_closed.forInitializer forward) fun _ => ?_
  refine (realizes_expressionUnless inner _).bind
    (Parse.forward_closed.expressionUnless forward _) fun _ => ?_
  refine realizes_expect_bind fun _ => ?_
  refine (realizes_expressionUnless inner _).bind
    (Parse.forward_closed.expressionUnless forward _) fun _ => ?_
  exact realizes_expect_bind fun _ => branch.value _

include onward

theorem realizes_ifStatement :
    Realizes limit bound allowed (ifStatement e s) (Parse.ifStatement e' s') := by
  refine realizes_expect_bind fun _ => inner.bind forward fun _ => realizes_expect_bind fun _ => ?_
  refine branch.bind onward fun _ => realizes_choose_bind fun keyword => ?_
  split
  · exact (branch.map some).bind (Parse.forward_sequential.map some onward) fun _ => realizes_pure _
  · exact (realizes_pure none).bind (Parse.forward_pure none) fun _ => realizes_pure _

end Statement

section Declaration

variable {e : Machine Expr} {e' : Parse Expr} (inner : Realizes limit bound (OnLevel levels) e e')
  (forward : Parse.Forward e') {s d : Machine Stmt} {s' d' : Parse Stmt}
  (branch : Realizes limit bound (OnLevel levels) s s') (onward : Parse.Forward s')
  (within : bound ≤ limit) (forward' : Parse.Forward d') (takes : Parse.Takes d')
include inner forward branch within forward' takes

include onward in
theorem realizes_statementWith (item : Realizes limit bound (OnLevel levels) d d') :
    Realizes limit bound (OnLevel levels) (statementWith e s d) (Parse.statementWith e' s' d') := by
  refine realizes_choose_bind fun keyword => ?_
  split
  · exact realizes_forStatement inner forward branch
  refine realizes_choose_bind fun keyword => ?_
  split
  · exact realizes_ifStatement inner forward branch onward
  refine realizes_choose_bind fun keyword => ?_
  split
  · exact realizes_whileStatement inner forward branch
  refine realizes_choose_bind fun keyword => ?_
  cases keyword with
  | some keyword => exact realizes_returnStatement inner forward keyword
  | none =>
    refine realizes_choose_bind fun brace => ?_
    split
    · exact (realizes_block item forward' takes within).value _
    refine realizes_choose_bind fun keyword => ?_
    split
    · exact realizes_printStatement inner forward
    · exact realizes_expressionStatement inner forward

/-- Where a declaration begins with a keyword, there are fewer tokens for the declarations in it. -/
theorem realizes_declarationWith {fewer : Nat} (isFewer : bound = fewer + 1)
    (item : Realizes limit fewer (OnLevel levels) d d') :
    Realizes limit bound (OnLevel levels) (declarationWith e s d) (Parse.declarationWith e' s' d') := by
  subst isFewer
  have inner' := inner.mono (Nat.le_succ fewer)
  have within' : fewer ≤ limit := Nat.le_of_succ_le within
  refine Realizes.started ?_
  refine realizes_takeSome_bind (fun _ => realizes_varDeclaration inner' forward) ?_
  refine realizes_takeSome_bind
    (fun _ => (realizes_function item forward' takes within' .function).value _) ?_
  exact realizes_takeSome_bind (fun _ => realizes_classDeclaration item forward' takes within') branch

end Declaration

section Whole

variable (within : bound ≤ limit)
include within

/-- The declarations in a declaration stand behind a keyword, so there are turns enough for all of them. -/
theorem realizes_declarationOver (deep : levels < limit) {s : Machine Stmt}
    (plain : Realizes limit bound (OnLevel levels) s (Parse.statement levels)) :
    Realizes limit bound (OnLevel levels) (declarationOver expression s) (Parse.declaration levels) := by
  have inner := realizes_expression within deep
  have turns (turns fewer : Nat) : fewer ≤ turns → fewer ≤ bound → Realizes limit fewer (OnLevel levels)
      (unrolled (fun (again : Unit → Machine Stmt) _ => declarationWith expression s (again ())) turns ())
      (Parse.declaration levels) := by
    induction turns generalizing fewer with
    | zero =>
      intro none _ r short
      exact absurd (Nat.lt_of_lt_of_le short none) (Nat.not_lt_zero _)
    | succ turns ih =>
      intro enough some
      cases fewer with
      | zero => exact fun _ short => absurd short (Nat.not_lt_zero _)
      | succ fewer =>
        rw [Parse.declaration_eq]
        exact realizes_declarationWith (inner.mono some) (Parse.forward_expression levels) (plain.mono some)
          (Nat.le_trans some within) (Parse.forward_declaration levels) (Parse.takes_declaration levels) rfl
          (ih fewer (Nat.le_of_succ_le_succ enough) (Nat.le_of_succ_le some))
  exact fun r short counted => turns limit bound within (Nat.le_refl bound) r short counted

/-- A statement takes one turn for each level it is read on, and one to be refused. -/
theorem realizes_statement (deep : levels < limit) :
    Realizes limit bound (OnLevel levels) statement (Parse.statement levels) := by
  have turns (turns : Nat) : levels < turns → Realizes limit bound (OnLevel levels)
      (unrolled (fun (again : Unit → Machine Stmt) _ =>
        nested (statementWith expression (again ()) (declarationOver expression (again ())))) turns ())
      (Parse.statement levels) := by
    induction levels generalizing turns with
    | zero =>
      intro some
      obtain ⟨turns, rfl⟩ := Nat.exists_eq_succ_of_ne_zero (Nat.ne_of_gt some)
      exact realizes_nested_zero _
    | succ levels ih =>
      intro enough
      obtain ⟨turns, rfl⟩ := Nat.exists_eq_succ_of_ne_zero (Nat.ne_of_gt (Nat.zero_lt_of_lt enough))
      have deep' := Nat.lt_of_succ_lt deep
      have branch := ih deep' turns (Nat.lt_of_succ_lt_succ enough)
      exact (realizes_statementWith (realizes_expression within deep')
        (Parse.forward_expression levels) branch
        (Parse.forward_statement levels) within (Parse.forward_declaration levels)
        (Parse.takes_declaration levels) (realizes_declarationOver within deep' branch)).nested
  exact fun r short counted => turns limit deep r short counted

theorem realizes_declaration (deep : levels < limit) :
    Realizes limit bound (OnLevel levels) declaration (Parse.declaration levels) :=
  realizes_declarationOver within deep (realizes_statement within deep)

/-- No brace is open around the declarations of a program. -/
theorem realizes_declarations (deep : maxNesting < limit) :
    Realizes limit bound (· = .zero) declarations Session.declarations := by
  have one : Realizes limit bound (· = .zero) declaration (Parse.declaration maxNesting) :=
    (realizes_declaration within deep).weaken fun c isZero =>
      congrArg (fun c : Counts => maxNesting - c.nesting) isZero
  refine (one.recovering .declaration ?_).many within ?_
  · exact fun c isZero => congrArg (fun c : Counts => decide (0 < c.braces)) isZero
  · exact Parse.ends_input.shorter (Parse.takes_declaration _) (Parse.forward_declaration _) .declaration

end Whole

section Call

variable {s : Session}

/-- That nothing may follow is asked behind the tree, and only where nothing is in the queue. Asking
takes no token and tells nothing. -/
theorem single_eq {m : Machine α} {p : Parse α} (meets : Meets limit ⟨s, .zero⟩ m p) :
    single m limit ⟨s, .zero⟩ = some ((s.single p).result, ⟨(s.single p).session, .zero⟩) := by
  have run : m limit ⟨s, .zero⟩ =
      some ((p s.input).result, ⟨⟨(p s.input).rest, s.queue ++ (p s.input).recovered⟩, .zero⟩) := meets
  cases queue : s.queue ++ (p s.input).recovered with
  | cons e errors =>
    rw [Session.single_of_cons queue, single, run, queue]
    rfl
  | nil =>
    rw [Session.single_of_nil queue, single, run, queue]
    rcases outcome : p s.input with ⟨e | a, rest, events⟩
    · rw [Session.whole_of_error outcome]
    · obtain ⟨result, asked⟩ := Parse.expectEnd_stays a rest
      have asks :
          Meets limit ⟨⟨rest, []⟩, .zero⟩ (do lift Parse.expectEnd; return a)
          (do Parse.expectEnd; return a) :=
        (meets_lift Parse.expectEnd).value fun _ => a
      rw [Meets] at asks
      rw [Session.whole_of_ok outcome, asked]
      refine asks.trans ?_
      rw [Registers.input]
      simp only [asked]
      rfl

variable (within : s.input.tokens.length < limit) (deep : maxNesting < limit)
include within deep

theorem program_eq : program limit ⟨s, .zero⟩ = some (s.program.result, ⟨s.program.session, .zero⟩) := by
  have run : declarations limit ⟨s, .zero⟩ = some ((Session.declarations s.input).result,
      ⟨⟨(Session.declarations s.input).rest, s.queue ++ (Session.declarations s.input).recovered⟩,
        .zero⟩) :=
    realizes_declarations (Nat.le_refl limit) deep ⟨s, .zero⟩ within rfl
  obtain ⟨ss, rest, events, items⟩ := Parse.items_declarations s.input
  have read : Session.declarations s.input = ⟨.ok ss, rest, events⟩ := items.many_eq
  rw [read] at run
  rw [program, run, Session.program, read]
  simp only []
  cases s.queue ++ (⟨.ok ss, rest, events⟩ : Outcome (List Stmt)).recovered <;> rfl

/-- One call on registers that count nothing is answered as the session answers it, and they count
nothing behind it. -/
theorem answer_eq (call : Call) :
    answer limit ⟨s, .zero⟩ call = some ((s.call call).result, ⟨(s.call call).session, .zero⟩) := by
  have levels : OnLevel maxNesting Counts.zero := Nat.sub_zero maxNesting
  cases call with
  | program =>
    rw [answer, program_eq within deep]
    rfl
  | statement =>
    rw [answer, single_eq (realizes_declaration (Nat.le_refl limit) deep ⟨s, .zero⟩ within levels)]
    rfl
  | expression =>
    rw [answer, single_eq (realizes_expression (Nat.le_refl limit) deep ⟨s, .zero⟩ within levels)]
    rfl

end Call

/-- Within a limit above the number of tokens, the machine answers call after call. -/
theorem run_eq {s : Session} (calls : List Call) (within : s.input.tokens.length < limit)
    (deep : maxNesting < limit) :
    run limit ⟨s, .zero⟩ calls = some ((s.run calls).result, ⟨(s.run calls).session, .zero⟩) := by
  induction calls generalizing s with
  | nil => rfl
  | cons call calls ih =>
    have within' := Nat.lt_of_le_of_lt (s.call_length_le call) within
    rw [run, answer_eq within deep]
    exact congrArg (fun others => others.bind fun others =>
      some ((s.call call).result :: others.1, others.2))
      (ih within')

end LoxFrontEnd.Machine
