import LoxFrontEnd.Parse.Session
import LoxFrontEnd.Proofs.Parse.ExpressionPrediction

/-!
The rules of statements and declarations track their phrases. The first token shows which statement it
is. An `else` is taken for the nearest `if`, and nothing is lost by that: whatever could go on with it
for another `if` can go on with it for this one.
-/

namespace LoxFrontEnd

open Grammar

namespace Parse

variable {α : Type} {K : TokenKind → Prop} {stack : List Symbol}

theorem tracks_many {item : Item} {p : Parse α} {stop : TokenKind → Bool} (site : RecoverySite)
    (enclosed : Bool)
    (one : Tracks AnyKind (item.symbol :: .phrase (.items item) :: stack) p
      fun _ => .phrase (.items item) :: stack)
    (goes : ∀ k, stop k = false → ¬ Begins stack k)
    (ends : ∀ k, stop k = true → ¬ (Nonterminal.items item).Opens k) :
    Tracks AnyKind (.phrase (.items item) :: stack)
      (many stop (recovering site enclosed p)) fun _ => stack := by
  refine tracks_recursive (C := (· = stack)) (S := (.phrase (.items item) :: ·))
    (fun again calls _ stack' same => ?_) () rfl
  subst same
  refine tracks_peek fun k _ => ?_
  split
  next isEnd =>
    refine .predict (fun _ same => predicts_skip (by simp [productions]) ?_) tracks_pure
    rw [same]
    exact ends k isEnd
  next other =>
    refine .predict (fun _ same => predicts_next [item.symbol, .phrase (.items item)] rfl ?_) ?_
    · rw [same]
      exact goes k (Bool.eq_false_iff.mpr other)
    · refine (one.recovering site enclosed).any.bind fun first => ?_
      exact (calls () stack' rfl).bind fun others => tracks_pure

theorem endsBody_goes (k : TokenKind) (goes : endsBody k = false) :
    ¬ Begins (.mark .rightBrace :: stack) k := by
  rintro rfl
  cases goes

section

variable {e : Parse Expr}
  (expr : ∀ stack, ClosedTo 0 stack → Tracks AnyKind (.phrase .expression :: stack) e fun _ => stack)
include expr

theorem tracks_varDeclaration :
    Tracks AnyKind (.phrase .varDecl :: stack) (varDeclaration e) fun _ => stack := by
  have value : Predicts .equal (.phrase .assigned :: .mark .semicolon :: stack)
      (.mark .equal :: .phrase .expression :: .mark .semicolon :: stack) :=
    predicts_next [.mark .equal, .phrase .expression] rfl (by simp)
  refine .predict (fun _ _ => predicts_only [.mark .identifier, .phrase .assigned, .mark .semicolon] rfl) ?_
  refine .bind (tracks_expect (by decide)) fun name => ?_
  refine tracks_accept (by decide) (fun _ => value) (fun _ => ?_) ?_
  · refine ((expr _ (closedTo_mark rfl)).map some).bind fun initializer => ?_
    exact .bind (tracks_expect (by decide)) fun _ => tracks_pure
  · refine .predict (fun k other => predicts_skip (by simp [productions]) other.2) ?_
    exact .bind tracks_pure fun _ => .bind (tracks_expect (by decide)) fun _ => tracks_pure

theorem tracks_expressionStatement :
    Tracks AnyKind (.phrase .expression :: .mark .semicolon :: stack)
      (expressionStatement e) fun _ => stack :=
  (expr _ (closedTo_mark rfl)).bind fun _ => .bind (tracks_expect (by decide)) fun _ => tracks_pure

theorem tracks_printStatement :
    Tracks AnyKind (.phrase .expression :: .mark .semicolon :: stack) (printStatement e) fun _ => stack :=
  (expr _ (closedTo_mark rfl)).bind fun _ => .bind (tracks_expect (by decide)) fun _ => tracks_pure

theorem tracks_expressionUnless {stop : TokenKind} (none : stop.rank? = none)
    (starts : startsExpr stop = false) :
    Tracks AnyKind (.phrase .optional :: .mark stop :: stack) (expressionUnless e stop)
      fun _ => .mark stop :: stack := by
  refine tracks_peek fun k _ => ?_
  split
  next ends =>
    refine .predict (fun _ same => predicts_skip (by simp [productions]) fun opens => ?_) tracks_pure
    rw [same, ends] at opens
    exact Bool.false_ne_true (starts.symm.trans opens)
  next goes =>
    refine .predict (fun _ same => predicts_next [.phrase .expression] rfl ?_)
      ((expr _ (closedTo_mark none)).map some).any
    rw [same]
    exact goes

theorem tracks_returnStatement (keyword : Token) :
    Tracks AnyKind (.phrase .optional :: .mark .semicolon :: stack)
      (returnStatement e keyword) fun _ => stack :=
  (tracks_expressionUnless expr rfl rfl).bind fun _ =>
    .bind (tracks_expect (by decide)) fun _ => tracks_pure

theorem tracks_forInitializer :
    Tracks AnyKind (.phrase .initial :: stack) (forInitializer e) fun _ => stack := by
  refine tracks_alternative [] (by simp [productions])
    (by simp [productions, startsExpr, startsOperand]) (fun _ => tracks_pure) ?_
  refine tracks_alternative [.phrase .varDecl] (by simp [productions])
    (by simp [productions, startsExpr, startsOperand]) (fun _ => ?_) ?_
  · exact (tracks_varDeclaration expr).map some
  · refine .predict (fun k other => ?_) ((tracks_expressionStatement expr).map some).any
    exact predicts_production [.phrase .expression, .mark .semicolon] (by simp [productions])
      (by simp [productions, other.1.2, other.2])

section

variable {s : Parse Stmt}
  (stmt : ∀ stack, ElseShifts stack → Tracks AnyKind (.phrase .statement :: stack) s fun _ => stack)
  (shifts : ElseShifts stack)
include stmt shifts

theorem tracks_whileStatement :
    Tracks AnyKind
      (.mark .leftParen :: .phrase .expression :: .mark .rightParen :: .phrase .statement :: stack)
      (whileStatement e s) fun _ => stack := by
  refine .bind (tracks_expect (by decide)) fun _ => (expr _ (closedTo_mark rfl)).bind fun condition => ?_
  exact .bind (tracks_expect (by decide)) fun _ => (stmt stack shifts).bind fun body => tracks_pure

theorem tracks_ifStatement :
    Tracks AnyKind (.mark .leftParen :: .phrase .expression :: .mark .rightParen :: .phrase .statement ::
      .phrase .otherwise :: stack) (ifStatement e s) fun _ => stack := by
  refine .bind (tracks_expect (by decide)) fun _ => (expr _ (closedTo_mark rfl)).bind fun condition => ?_
  refine .bind (tracks_expect (by decide)) fun _ => (stmt _ shifts.otherwise).bind fun thenBranch => ?_
  refine tracks_accept (by decide) (fun _ => shifts.elseBranch) (fun _ => ?_) ?_
  · exact ((stmt stack shifts).map some).bind fun elseBranch => tracks_pure
  · exact .predict (fun k other => predicts_skip (by simp [productions]) other.2) tracks_pure

theorem tracks_forStatement :
    Tracks AnyKind (.mark .leftParen :: .phrase .initial :: .phrase .optional :: .mark .semicolon ::
      .phrase .optional :: .mark .rightParen :: .phrase .statement :: stack)
    (forStatement e s) fun _ => stack := by
  refine .bind (tracks_expect (by decide)) fun _ => (tracks_forInitializer expr).bind fun initializer => ?_
  refine (tracks_expressionUnless expr rfl rfl).bind fun condition =>
    .bind (tracks_expect (by decide)) fun _ => ?_
  refine (tracks_expressionUnless expr rfl rfl).bind fun increment =>
    .bind (tracks_expect (by decide)) fun _ => ?_
  exact (stmt stack shifts).bind fun body => tracks_pure

end

end

section

variable {d : Parse Stmt}
  (decl : ∀ stack, ElseShifts stack → Tracks AnyKind (.phrase .declaration :: stack) d fun _ => stack)
include decl

/-- No declaration begins with `else`, so none follows one in a body. -/
theorem tracks_body {stop : TokenKind → Bool} (site : RecoverySite) (enclosed : Bool)
    (goes : ∀ k, stop k = false → ¬ Begins stack k)
    (ends : ∀ k, stop k = true → startsDeclaration k = false) (noElse : stop .kwElse = false) :
    Tracks AnyKind (.phrase (.items .declaration) :: stack)
      (many stop (recovering site enclosed d)) fun _ => stack := by
  refine tracks_many site enclosed (decl _ (elseShifts_of_not_begins ?_)) goes fun k isEnd opens => ?_
  · rintro (opens | ⟨_, begins⟩)
    · cases opens
    · exact goes _ noElse begins
  · exact Bool.false_ne_true ((ends k isEnd).symm.trans opens)

theorem tracks_block :
    Tracks AnyKind (.phrase (.items .declaration) :: .mark .rightBrace :: stack)
      (block d) fun _ => stack := by
  have ends (k : TokenKind) (isEnd : endsBody k = true) : startsDeclaration k = false := by
    rcases of_decide_eq_true isEnd with rfl | rfl <;> rfl
  refine (tracks_body decl .declaration true endsBody_goes ends rfl).bind fun body => ?_
  exact .bind (tracks_expect (by decide)) fun _ => tracks_pure

omit decl in
theorem tracks_parameters :
    Tracks AnyKind (.phrase (.list .parameter) :: .mark .rightParen :: stack)
      (separatedUnless .rightParen parameter) fun _ => .mark .rightParen :: stack :=
  tracks_list (.bind (tracks_expect (by decide)) fun _ => tracks_pure) (by rintro ⟨⟩) (by decide)

theorem tracks_function (routine : Routine) :
    Tracks AnyKind (.phrase .function :: stack) (function d routine) fun _ => stack := by
  refine .predict (fun _ _ => predicts_only [.mark .identifier, .mark .leftParen,
    .phrase (.list .parameter), .mark .rightParen, .mark .leftBrace, .phrase (.items .declaration),
    .mark .rightBrace] rfl) ?_
  refine .bind (tracks_expect (by decide)) fun name => .bind (tracks_expect (by decide)) fun _ => ?_
  refine tracks_parameters.bind fun parameters => .bind (tracks_expect (by decide)) fun _ => ?_
  exact .bind (tracks_expect (by decide)) fun _ => (tracks_block decl).bind fun body => tracks_pure

theorem tracks_classDeclaration :
    Tracks AnyKind (.mark .identifier :: .phrase .superclass :: .mark .leftBrace ::
      .phrase (.items .method) :: .mark .rightBrace :: stack) (classDeclaration d) fun _ => stack := by
  have above : Predicts .less
      (.phrase .superclass :: .mark .leftBrace :: .phrase (.items .method) :: .mark .rightBrace :: stack)
      (.mark .less :: .mark .identifier :: .mark .leftBrace :: .phrase (.items .method) ::
        .mark .rightBrace :: stack) :=
    predicts_next [.mark .less, .mark .identifier] rfl (by simp)
  have methods : Tracks AnyKind (.phrase (.items .method) :: .mark .rightBrace :: stack)
      (many endsBody (recovering .classBody true (function d .method)))
      fun _ => .mark .rightBrace :: stack := by
    refine tracks_many .classBody true (tracks_function decl .method) endsBody_goes fun k isEnd => ?_
    rcases of_decide_eq_true isEnd with rfl | rfl <;> rintro ⟨⟩
  refine .bind (tracks_expect (by decide)) fun name => tracks_accept (by decide) (fun _ => above)
    (fun _ => ?_) ?_
  · refine (Tracks.map (tracks_expect (by decide)) some).bind fun superclass =>
      .bind (tracks_expect (by decide)) fun _ => ?_
    exact methods.bind fun methods => .bind (tracks_expect (by decide)) fun _ => tracks_pure
  · refine .predict (fun k other => predicts_skip (by simp [productions]) other.2) ?_
    refine .bind tracks_pure fun _ => .bind (tracks_expect (by decide)) fun _ => ?_
    exact methods.bind fun methods => .bind (tracks_expect (by decide)) fun _ => tracks_pure

variable {e : Parse Expr} {s : Parse Stmt}
  (expr : ∀ stack, ClosedTo 0 stack → Tracks AnyKind (.phrase .expression :: stack) e fun _ => stack)
  (stmt : ∀ stack, ElseShifts stack → Tracks AnyKind (.phrase .statement :: stack) s fun _ => stack)
  (shifts : ElseShifts stack)
include expr stmt shifts

theorem tracks_declarationWith :
    Tracks AnyKind (.phrase .declaration :: stack) (declarationWith e s d) fun _ => stack := by
  refine tracks_peek fun kind _ => (tracks_started kind).bind fun _ => ?_
  refine tracks_alternative [.phrase .varDecl] (by simp [productions])
    (by simp [productions, startsStmt, startsExpr, startsOperand])
    (fun _ => tracks_varDeclaration expr) ?_
  refine tracks_alternative [.phrase .function] (by simp [productions])
    (by simp [productions, startsStmt, startsExpr, startsOperand])
    (fun _ => ?_) ?_
  · exact (tracks_function decl .function).bind fun _ => tracks_pure
  refine tracks_alternative [.mark .identifier, .phrase .superclass, .mark .leftBrace,
    .phrase (.items .method), .mark .rightBrace] (by simp [productions])
    (by simp [productions, startsStmt, startsExpr, startsOperand])
    (fun _ => tracks_classDeclaration decl) ?_
  refine .predict (fun k other => ?_) (stmt stack shifts).any
  obtain ⟨⟨⟨_, notVar⟩, notFun⟩, notClass⟩ := other
  exact predicts_production [.phrase .statement] (by simp [productions])
    (by simp [productions, notVar, notFun, notClass])

theorem tracks_statementWith :
    Tracks AnyKind (.phrase .statement :: stack) (statementWith e s d) fun _ => stack := by
  refine tracks_alternative [.mark .leftParen, .phrase .initial, .phrase .optional, .mark .semicolon,
    .phrase .optional, .mark .rightParen, .phrase .statement] (by simp [productions])
    (by simp [productions, startsExpr, startsOperand])
    (fun _ => tracks_forStatement expr stmt shifts) ?_
  refine tracks_alternative [.mark .leftParen, .phrase .expression, .mark .rightParen, .phrase .statement,
    .phrase .otherwise] (by simp [productions])
    (by simp [productions, startsExpr, startsOperand])
    (fun _ => tracks_ifStatement expr stmt shifts) ?_
  refine tracks_alternative [.mark .leftParen, .phrase .expression, .mark .rightParen, .phrase .statement]
    (by simp [productions])
    (by simp [productions, startsExpr, startsOperand])
    (fun _ => tracks_whileStatement expr stmt shifts) ?_
  refine tracks_alternative [.phrase .optional, .mark .semicolon] (by simp [productions])
    (by simp [productions, startsExpr, startsOperand])
    (fun keyword => tracks_returnStatement expr keyword) ?_
  refine tracks_alternative [.phrase (.items .declaration), .mark .rightBrace] (by simp [productions])
    (by simp [productions, startsExpr, startsOperand])
    (fun _ => (tracks_block decl).bind fun _ => tracks_pure) ?_
  refine tracks_alternative [.phrase .expression, .mark .semicolon] (by simp [productions])
    (by simp [productions, startsExpr, startsOperand])
    (fun _ => tracks_printStatement expr) ?_
  refine .predict (fun k other => ?_) (tracks_expressionStatement expr).any
  obtain ⟨⟨⟨⟨⟨⟨_, notFor⟩, notIf⟩, notWhile⟩, notReturn⟩, notBrace⟩, notPrint⟩ := other
  exact predicts_production [.phrase .expression, .mark .semicolon] (by simp [productions])
    (by simp [productions, notFor, notIf, notWhile, notReturn, notBrace, notPrint])

end

theorem tracks_declarationOver {e : Parse Expr} {s : Parse Stmt}
    (expr : ∀ stack, ClosedTo 0 stack → Tracks AnyKind (.phrase .expression :: stack) e fun _ => stack)
    (stmt : ∀ stack, ElseShifts stack → Tracks AnyKind (.phrase .statement :: stack) s fun _ => stack)
    (stack : List Symbol) (shifts : ElseShifts stack) :
    Tracks AnyKind (.phrase .declaration :: stack) (declarationOver e s) fun _ => stack :=
  tracks_recursive (C := ElseShifts) (S := (.phrase .declaration :: ·))
    (fun _ decl _ _ shifts => tracks_declarationWith (decl ()) expr stmt shifts) () shifts

theorem tracks_statement (levels : Nat) (stack : List Symbol) (shifts : ElseShifts stack) :
    Tracks AnyKind (.phrase .statement :: stack) (statement levels) fun _ => stack := by
  induction levels generalizing stack with
  | zero => exact tracks_shallowNesting
  | succ levels ih =>
    have expr := tracks_expression levels
    exact tracks_statementWith (tracks_declarationOver expr ih) expr ih shifts

theorem tracks_declaration (levels : Nat) (stack : List Symbol) (shifts : ElseShifts stack) :
    Tracks AnyKind (.phrase .declaration :: stack) (declaration levels) fun _ => stack :=
  tracks_declarationOver (tracks_expression levels) (tracks_statement levels) stack shifts

end Parse

end LoxFrontEnd
