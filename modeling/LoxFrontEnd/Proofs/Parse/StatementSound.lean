import LoxFrontEnd.Proofs.Grammar.Statement
import LoxFrontEnd.Proofs.Parse.ExpressionSound
import LoxFrontEnd.Proofs.Parse.Locality

/-!
What the rules of statements and declarations read is derived by the grammar. A statement that ends in
an `if` without `else` has been read only where no `else` stands behind it.
-/

namespace LoxFrontEnd.Parse

open Grammar

variable {α : Type}

/-- What a rule reads is a phrase, and no `else` behind it could have been taken. -/
def YieldsStmt (p : Parse Stmt) (phrase : Tail → Stmt → List Token → Prop) : Prop :=
  ∀ input s rest, Reads p input s rest → ∃ taken tail, input.tokens = taken ++ rest.tokens ∧
    phrase tail s taken ∧ (tail = .dangling → rest.kind ≠ .kwElse)

theorem Yields.closed {p : Parse Stmt} {phrase : Tail → Stmt → List Token → Prop}
    (yields : Yields p (phrase .closed)) : YieldsStmt p phrase := by
  intro input s rest read
  obtain ⟨taken, front, derives⟩ := yields _ _ _ read
  exact ⟨taken, .closed, front, derives, nofun⟩

theorem YieldsStmt.mono {p : Parse Stmt} {phrase phrase' : Tail → Stmt → List Token → Prop}
    (yields : YieldsStmt p phrase) (weaker : ∀ tail s taken, phrase tail s taken → phrase' tail s taken) :
    YieldsStmt p phrase' := by
  intro input s rest read
  obtain ⟨taken, tail, front, derives, follow⟩ := yields _ _ _ read
  exact ⟨taken, tail, front, weaker _ _ _ derives, follow⟩

theorem forLoop_eq_forTree (initializer : Option Stmt) (condition increment : Option Expr) (body : Stmt) :
    forLoop initializer condition increment body = forTree initializer condition (turn body increment) := by
  cases increment <;> rfl

section

variable {limit depth : Nat} {expression : Parse Expr} {statement declaration : Parse Stmt}

section Expression

variable (expr : Yields expression fun e taken => DerivesExpr limit depth (.expression e) taken)

include expr

theorem expressionUnless_yields (stop : TokenKind) :
    Yields (expressionUnless expression stop) (OptionalExpr limit depth) := by
  intro input o rest read
  rw [expressionUnless, reads_peek_bind] at read
  split at read
  · obtain ⟨rfl, rfl⟩ := reads_pure.mp read
    exact ⟨[], rfl, .none⟩
  · obtain ⟨taken, front, e, rfl, phrase⟩ := expr.map some _ _ _ read
    exact ⟨taken, front, .some phrase⟩

theorem varDeclaration_yields {keyword : Token} (isVar : keyword.kind = .kwVar) :
    Yields (varDeclaration expression) fun s taken =>
      Derives limit depth (.varDecl s) (keyword :: taken) := by
  intro input s rest read
  simp only [varDeclaration, reads_expect_bind, reads_accept_ite] at read
  obtain ⟨name, tokens, front, isName, ⟨sign, tokens', rfl, isEqual, read⟩ | ⟨_, read⟩⟩ := read
  · obtain ⟨_, taken, semicolon, rfl, ⟨e, rfl, phrase⟩, isSemicolon, front'⟩ := (expr.map some).marked read
    refine ⟨name :: sign :: (taken ++ [semicolon]), ?_,
      .initialized isVar isName isEqual phrase isSemicolon⟩
    dsimp only at front'
    rw [front, front', List.cons_append, List.cons_append]
  · simp only [pure_bind, reads_expect_bind, reads_pure] at read
    obtain ⟨semicolon, tokens', rfl, isSemicolon, rfl, rfl⟩ := read
    exact ⟨[name, semicolon], front, .uninitialized isVar isName isSemicolon⟩

theorem expressionStatement_yields : Yields (expressionStatement expression) fun s taken =>
    Derives limit depth (.unnested .closed s) taken ∧
      Derives limit depth (.initializer (some s)) taken := by
  intro input s rest read
  obtain ⟨e, taken, semicolon, rfl, phrase, isSemicolon, front⟩ := expr.marked read
  exact ⟨taken ++ [semicolon], front, .expr phrase isSemicolon, .exprInitializer phrase isSemicolon⟩

theorem printStatement_yields {keyword : Token} (isPrint : keyword.kind = .kwPrint) :
    Yields (printStatement expression) fun s taken =>
      Derives limit depth (.unnested .closed s) (keyword :: taken) := by
  intro input s rest read
  obtain ⟨e, taken, semicolon, rfl, phrase, isSemicolon, front⟩ := expr.marked read
  exact ⟨taken ++ [semicolon], front, .print isPrint phrase isSemicolon⟩

theorem returnStatement_yields {keyword : Token} (isReturn : keyword.kind = .kwReturn) :
    Yields (returnStatement expression keyword) fun s taken =>
      Derives limit depth (.unnested .closed s) (keyword :: taken) := by
  intro input s rest read
  obtain ⟨value, taken, semicolon, rfl, optional, isSemicolon, front⟩ :=
    (expressionUnless_yields expr .semicolon).marked read
  exact ⟨taken ++ [semicolon], front, .ret isReturn optional isSemicolon⟩

theorem forInitializer_yields : Yields (forInitializer expression) fun o taken =>
    Derives limit depth (.initializer o) taken := by
  intro input o rest read
  simp only [forInitializer, reads_accept_ite] at read
  rcases read with ⟨semicolon, tokens, front, isSemicolon, last⟩ |
    ⟨_, ⟨keyword, tokens, front, isVar, next⟩ | ⟨_, next⟩⟩
  · obtain ⟨rfl, rfl⟩ := reads_pure.mp last
    exact ⟨[semicolon], front, .noInitializer isSemicolon⟩
  · obtain ⟨s, later, first, last⟩ := reads_bind.mp next
    obtain ⟨rfl, rfl⟩ := reads_pure.mp last
    obtain ⟨taken, front', phrase⟩ := varDeclaration_yields expr isVar _ _ _ first
    refine ⟨keyword :: taken, ?_, .varInitializer phrase⟩
    rw [front, List.cons_append]
    exact congrArg _ front'
  · obtain ⟨taken, front, s, rfl, _, phrase⟩ := (expressionStatement_yields expr).map some _ _ _ next
    exact ⟨taken, front, phrase⟩

/-- A condition in parentheses, as it stands behind `if` and `while`. -/
theorem condition_taken {expected expected' : Expected} {f : Expr → Parse α} {input rest : Input} {a : α}
    (read : Reads (expect .leftParen expected >>= fun _ => expression >>= fun e =>
      expect .rightParen expected' >>= fun _ => f e) input a rest) :
    ∃ opening e condition closing later, opening.kind = .leftParen ∧ closing.kind = .rightParen ∧
      DerivesExpr limit depth (.expression e) condition ∧
      input.tokens = opening :: (condition ++ closing :: Input.tokens later) ∧
      Reads (f e) later a rest := by
  obtain ⟨opening, tokens, front, opens, next⟩ := reads_expect_bind.mp read
  obtain ⟨e, later, first, next'⟩ := reads_bind.mp next
  obtain ⟨condition, front', phrase⟩ := expr _ _ _ first
  obtain ⟨closing, tokens', front'', closes, last⟩ := reads_expect_bind.mp next'
  refine ⟨opening, e, condition, closing, _, opens, closes, phrase, ?_, last⟩
  rw [front, ← front'', ← front']

variable (stmt : YieldsStmt statement fun tail s taken => Derives limit depth (.statement tail s) taken)

include stmt

theorem whileStatement_yields {keyword : Token} (isWhile : keyword.kind = .kwWhile) :
    YieldsStmt (whileStatement expression statement) fun tail s taken =>
      Derives limit depth (.unnested tail s) (keyword :: taken) := by
  intro input s rest read
  obtain ⟨opening, e, condition, closing, later, opens, closes, phrase, front, next⟩ :=
    condition_taken expr read
  obtain ⟨body, later', first, last⟩ := reads_bind.mp next
  obtain ⟨rfl, rfl⟩ := reads_pure.mp last
  obtain ⟨taken, tail, front', derives, follow⟩ := stmt _ _ _ first
  refine ⟨opening :: (condition ++ closing :: taken), tail, ?_,
    .whileLoop isWhile opens phrase closes derives, follow⟩
  rw [front, front']
  simp only [List.cons_append, List.append_assoc]

/-- An `else` is taken wherever it can be, so a branch in front of one has no open `if` at its end. -/
theorem ifStatement_yields {keyword : Token} (isIf : keyword.kind = .kwIf) :
    YieldsStmt (ifStatement expression statement) fun tail s taken =>
      Derives limit depth (.unnested tail s) (keyword :: taken) := by
  intro input s rest read
  obtain ⟨opening, e, condition, closing, later, opens, closes, phrase, front, next⟩ :=
    condition_taken expr read
  obtain ⟨thenBranch, later', first, next'⟩ := reads_bind.mp next
  obtain ⟨taken, tail, front', derives, follow⟩ := stmt _ _ _ first
  rw [reads_accept_ite] at next'
  rcases next' with ⟨otherwise, tokens, front'', isElse, next'⟩ | ⟨noElse, last⟩
  · obtain ⟨o, behind, second, last⟩ := reads_bind.mp next'
    obtain ⟨elseBranch, second', rfl⟩ := reads_map.mp second
    obtain ⟨rfl, rfl⟩ := reads_pure.mp last
    obtain ⟨taken', tail', front''', derives', follow'⟩ := stmt _ _ _ second'
    have closed : tail = .closed := by
      cases tail with
      | closed => rfl
      | dangling =>
        refine absurd ?_ (follow rfl)
        rw [Input.kind, front'']
        exact isElse
    subst closed
    refine ⟨opening :: (condition ++ closing :: (taken ++ otherwise :: taken')), tail', ?_,
      .ifElse isIf opens phrase closes derives isElse derives', follow'⟩
    rw [front, front', front'']
    simp only [List.cons_append, List.append_assoc, ← front''']
  · simp only [pure_bind, reads_pure] at last
    obtain ⟨rfl, rfl⟩ := last
    refine ⟨opening :: (condition ++ closing :: taken), .dangling, ?_,
      .ifThen isIf opens phrase closes derives, fun _ => ?_⟩
    · rw [front, front']
      simp only [List.cons_append, List.append_assoc]
    · obtain ⟨tokens, last⟩ := rest
      cases tokens with
      | nil => exact nofun
      | cons token tokens => exact noElse token rfl

theorem forStatement_yields {keyword : Token} (isFor : keyword.kind = .kwFor) :
    YieldsStmt (forStatement expression statement) fun tail s taken =>
      Derives limit depth (.unnested tail s) (keyword :: taken) := by
  intro input s rest read
  obtain ⟨opening, tokens, front, opens, next⟩ := reads_expect_bind.mp read
  obtain ⟨start, later, readStart, next⟩ := reads_bind.mp next
  obtain ⟨initializer, frontStart, derivesStart⟩ := forInitializer_yields expr _ _ _ readStart
  obtain ⟨o, later', readCondition, next⟩ := reads_bind.mp next
  obtain ⟨condition, frontCondition, optional⟩ := expressionUnless_yields expr _ _ _ _ readCondition
  obtain ⟨semicolon, tokens', frontSemicolon, isSemicolon, next⟩ := reads_expect_bind.mp next
  obtain ⟨o', later'', readIncrement, next⟩ := reads_bind.mp next
  obtain ⟨increment, frontIncrement, optional'⟩ := expressionUnless_yields expr _ _ _ _ readIncrement
  obtain ⟨closing, tokens'', frontClosing, closes, next⟩ := reads_expect_bind.mp next
  obtain ⟨body, behind, readBody, last⟩ := reads_bind.mp next
  obtain ⟨taken, tail, frontBody, derives, follow⟩ := stmt _ _ _ readBody
  obtain ⟨rfl, rfl⟩ := reads_pure.mp last
  refine ⟨opening :: (initializer ++ (condition ++ semicolon :: (increment ++ closing :: taken))),
    tail, ?_, ?_, follow⟩
  · dsimp only at frontStart frontIncrement frontBody
    rw [front, frontStart, frontCondition, frontSemicolon, frontIncrement, frontClosing, frontBody]
    simp only [List.cons_append, List.append_assoc]
  · rw [forLoop_eq_forTree]
    exact .forLoop isFor opens derivesStart optional isSemicolon optional' closes derives

end Expression

/-- Items that each make a list of phrases longer make a list of phrases. -/
theorem many_yields {item : Parse α} {stop : TokenKind → Bool} {site : RecoverySite} {enclosed : Bool}
    {phrase : α → List Token → Prop} {phrases : List α → List Token → Prop} (one : Yields item phrase)
    (none : phrases [] []) (more : ∀ {a as first others}, phrase a first → phrases as others →
      phrases (a :: as) (first ++ others)) :
    Yields (many stop (recovering site enclosed item)) phrases := by
  intro input items rest read
  refine reads_recursive (P := fun (_ : Unit) input items rest => ∃ taken,
    input.tokens = taken ++ rest.tokens ∧ phrases items taken) ?_ read
  intro again ih _ input items rest read
  rw [reads_peek_bind] at read
  split at read
  · obtain ⟨rfl, rfl⟩ := reads_pure.mp read
    exact ⟨[], rfl, none⟩
  · obtain ⟨o, later, first, next⟩ := reads_bind.mp read
    obtain ⟨a, rfl, first'⟩ := reads_recovering.mp first
    obtain ⟨others, later', second, last⟩ := reads_bind.mp next
    obtain ⟨rfl, rfl⟩ := reads_pure.mp last
    obtain ⟨taken, front, known⟩ := one _ _ _ first'
    obtain ⟨taken', front', known'⟩ := ih _ _ _ _ second
    exact ⟨taken ++ taken', by rw [front, front', List.append_assoc], more known known'⟩

theorem parameter_yields : Yields parameter fun p taken =>
    ∃ name : Token, name.kind = .identifier ∧ p = ⟨name.lexeme, name.position.line⟩ ∧ taken = [name] := by
  intro input p rest read
  obtain ⟨name, tokens, front, isName, last⟩ := reads_expect_bind.mp read
  obtain ⟨rfl, rfl⟩ := reads_pure.mp last
  exact ⟨[name], front, name, isName, rfl, rfl⟩

theorem parameters_yields : Yields (separatedUnless .rightParen parameter) Parameters := by
  refine separatedUnless_yields parameter_yields .none ?_ ?_
  · rintro p taken ⟨name, isName, rfl, rfl⟩
    exact .last isName
  · rintro p p' ps first comma others ⟨name, isName, rfl, rfl⟩ isComma parameters
    exact .more isName isComma parameters

section Declaration

variable (decl : YieldsStmt declaration fun tail s taken => Derives limit depth (.declaration tail s) taken)

include decl

theorem body_yields {stop : TokenKind → Bool} {site : RecoverySite} {enclosed : Bool} :
    Yields (many stop (recovering site enclosed declaration)) fun ss taken =>
      Derives limit depth (.body ss) taken := by
  have one : Yields declaration fun s taken => ∃ tail, Derives limit depth (.declaration tail s) taken := by
    intro input s rest read
    obtain ⟨taken, tail, front, derives, _⟩ := decl _ _ _ read
    exact ⟨taken, front, tail, derives⟩
  exact many_yields one .empty fun ⟨_, derives⟩ others => .item derives others

theorem block_yields : Yields (block declaration) fun ss taken => ∃ tokens closing,
    taken = tokens ++ [closing] ∧ Derives limit depth (.body ss) tokens ∧ closing.kind = .rightBrace := by
  intro input ss rest read
  obtain ⟨body, taken, closing, rfl, derives, closes, front⟩ := (body_yields decl).marked read
  exact ⟨taken ++ [closing], front, taken, closing, rfl, derives, closes⟩

theorem function_yields (routine : Routine) : Yields (function declaration routine) fun f taken =>
    Derives limit depth (.function f) taken := by
  intro input f rest read
  obtain ⟨name, tokens, front, isName, next⟩ := reads_expect_bind.mp read
  obtain ⟨opening, tokens', front', opens, next⟩ := reads_expect_bind.mp next
  obtain ⟨ps, later, readParameters, next⟩ := reads_bind.mp next
  obtain ⟨taken, front'', parameters⟩ := parameters_yields _ _ _ readParameters
  obtain ⟨closing, tokens'', frontClosing, closes, next⟩ := reads_expect_bind.mp next
  obtain ⟨brace, tokens''', frontBrace, isBrace, next⟩ := reads_expect_bind.mp next
  obtain ⟨body, later', readBody, last⟩ := reads_bind.mp next
  obtain ⟨rfl, rfl⟩ := reads_pure.mp last
  obtain ⟨_, frontBody, bodyTokens, close, rfl, derives, isClose⟩ := block_yields decl _ _ _ readBody
  refine ⟨name :: opening :: (taken ++ closing :: brace :: (bodyTokens ++ [close])), ?_,
    .function isName opens parameters closes isBrace derives isClose⟩
  dsimp only at front' front'' frontBrace frontBody
  rw [front, front', front'', frontClosing, frontBrace, frontBody]
  simp only [List.cons_append, List.append_assoc]

theorem methods_yields {stop : TokenKind → Bool} {site : RecoverySite} {enclosed : Bool} :
    Yields (many stop (recovering site enclosed (function declaration .method))) fun fs taken =>
      Derives limit depth (.methods fs) taken :=
  many_yields (function_yields decl .method) .noMethods .method

theorem classDeclaration_yields {keyword : Token} (isClass : keyword.kind = .kwClass) :
    Yields (classDeclaration declaration) fun s taken =>
      Derives limit depth (.declaration .closed s) (keyword :: taken) := by
  intro input s rest read
  obtain ⟨name, tokens, front, isName, next⟩ := reads_expect_bind.mp read
  have header :
      ∃ (above : List Token) (superclass : Option Token) (later : Input), tokens = above ++ later.tokens ∧
      Superclass (superclass.map Token.lexeme) above ∧ Reads (do
        let _ ← expect .leftBrace .braceBeforeClassBody
        let methods ← many endsBody (recovering .classBody true (function declaration .method))
        let _ ← expect .rightBrace .braceAfterClassBody
        return Stmt.classDecl name.lexeme (superclass.map Token.lexeme) methods name.position.line)
      later s rest := by
    rcases reads_accept_ite.mp next with ⟨less, tokens', front', isLess, next⟩ | ⟨_, next⟩
    · obtain ⟨superclass, later, first, next⟩ := reads_bind.mp next
      obtain ⟨above, named, rfl⟩ := reads_map.mp first
      obtain ⟨isAbove, front'', _⟩ := reads_expect.mp named
      refine ⟨[less, above], some above, later, ?_, .some isLess isAbove, next⟩
      dsimp only at front' front''
      rw [front', front'']
      rfl
    · rw [pure_bind] at next
      exact ⟨[], none, _, rfl, .none, next⟩
  obtain ⟨above, superclass, later, frontAbove, isSuperclass, next⟩ := header
  obtain ⟨brace, tokens', frontBrace, isBrace, next⟩ := reads_expect_bind.mp next
  obtain ⟨fs, later', readMethods, next⟩ := reads_bind.mp next
  obtain ⟨taken, frontMethods, derives⟩ := methods_yields decl _ _ _ readMethods
  obtain ⟨closing, tokens'', frontClosing, closes, last⟩ := reads_expect_bind.mp next
  obtain ⟨rfl, rfl⟩ := reads_pure.mp last
  refine ⟨name :: (above ++ brace :: (taken ++ [closing])), ?_,
    .classDeclaration isClass isName isSuperclass isBrace derives closes⟩
  dsimp only at frontMethods
  rw [front, frontAbove, frontBrace, frontMethods, frontClosing]
  simp only [List.cons_append, List.append_assoc, List.nil_append]

variable (expr : Yields expression fun e taken => DerivesExpr limit depth (.expression e) taken)
  (stmt : YieldsStmt statement fun tail s taken => Derives limit depth (.statement tail s) taken)

include expr stmt

theorem declarationWith_yields : YieldsStmt (declarationWith expression statement declaration)
    fun tail s taken => Derives limit depth (.declaration tail s) taken := by
  intro input s rest read
  simp only [declarationWith, reads_peek_bind, reads_started_bind, reads_accept_ite] at read
  rcases read with ⟨keyword, tokens, front, isVar, next⟩ | ⟨_, ⟨keyword, tokens, front, isFun, next⟩ |
    ⟨_, ⟨keyword, tokens, front, isClass, next⟩ | ⟨_, next⟩⟩⟩
  · obtain ⟨taken, front', derives⟩ := varDeclaration_yields expr isVar _ _ _ next
    refine ⟨keyword :: taken, .closed, ?_, .varDeclaration derives, nofun⟩
    exact front.trans (congrArg _ front')
  · obtain ⟨f, later, first, last⟩ := reads_bind.mp next
    obtain ⟨rfl, rfl⟩ := reads_pure.mp last
    obtain ⟨taken, front', derives⟩ := function_yields decl _ _ _ _ first
    refine ⟨keyword :: taken, .closed, ?_, .funDeclaration isFun derives, nofun⟩
    exact front.trans (congrArg _ front')
  · obtain ⟨taken, front', derives⟩ := classDeclaration_yields decl isClass _ _ _ next
    refine ⟨keyword :: taken, .closed, ?_, derives, nofun⟩
    exact front.trans (congrArg _ front')
  · exact (stmt.mono fun _ _ _ => Derives.plain) _ _ _ next

theorem statementWith_yields : YieldsStmt (statementWith expression statement declaration)
    fun tail s taken => Derives limit depth (.unnested tail s) taken := by
  intro input s rest read
  have behind {keyword : Token} {tokens : List Token} {p : Parse Stmt}
      (front : input.tokens = keyword :: tokens) (next : Reads p ⟨tokens, keyword.position⟩ s rest)
      (yields : YieldsStmt p
        fun tail s taken => Derives limit depth (.unnested tail s) (keyword :: taken)) :
      ∃ taken tail, input.tokens = taken ++ rest.tokens ∧
        Derives limit depth (.unnested tail s) taken ∧ (tail = .dangling → rest.kind ≠ .kwElse) := by
    obtain ⟨taken, tail, front', derives, follow⟩ := yields _ _ _ next
    exact ⟨keyword :: taken, tail, front.trans (congrArg _ front'), derives, follow⟩
  rw [statementWith] at read
  obtain ⟨keyword, tokens, front, isFor, next⟩ | ⟨_, read⟩ := reads_accept_ite.mp read
  · exact behind front next (forStatement_yields expr stmt isFor)
  obtain ⟨keyword, tokens, front, isIf, next⟩ | ⟨_, read⟩ := reads_accept_ite.mp read
  · exact behind front next (ifStatement_yields expr stmt isIf)
  obtain ⟨keyword, tokens, front, isWhile, next⟩ | ⟨_, read⟩ := reads_accept_ite.mp read
  · exact behind front next (whileStatement_yields expr stmt isWhile)
  obtain ⟨keyword, tokens, front, isReturn, next⟩ | ⟨_, read⟩ := reads_accept_bind.mp read
  · exact behind front next (Yields.closed (returnStatement_yields expr isReturn))
  obtain ⟨opening, tokens, front, opens, next⟩ | ⟨_, read⟩ := reads_accept_ite.mp read
  · refine behind front next (Yields.closed ?_)
    intro input s rest read
    obtain ⟨ss, later, first, last⟩ := reads_bind.mp read
    obtain ⟨rfl, rfl⟩ := reads_pure.mp last
    obtain ⟨_, front', tokens, closing, rfl, derives, closes⟩ := block_yields decl _ _ _ first
    exact ⟨_, front', .block opens derives closes⟩
  obtain ⟨keyword, tokens, front, isPrint, next⟩ | ⟨_, read⟩ := reads_accept_ite.mp read
  · exact behind front next (Yields.closed (printStatement_yields expr isPrint))
  obtain ⟨taken, front, derives, _⟩ := expressionStatement_yields expr _ _ _ read
  exact ⟨taken, .closed, front, derives, nofun⟩

end Declaration

/-- Declarations in the body of a declaration stand at its own depth, so the recursion goes along the
input and not along the levels. -/
theorem declarationOver_yields
    (expr : Yields expression fun e taken => DerivesExpr limit depth (.expression e) taken)
    (stmt : YieldsStmt statement fun tail s taken => Derives limit depth (.statement tail s) taken) :
    YieldsStmt (declarationOver expression statement) fun tail s taken =>
      Derives limit depth (.declaration tail s) taken := by
  intro input s rest read
  refine reads_recursive (P := fun (_ : Unit) input s rest => ∃ taken tail,
    input.tokens = taken ++ rest.tokens ∧ Derives limit depth (.declaration tail s) taken ∧
      (tail = .dangling → rest.kind ≠ .kwElse)) ?_ read
  intro again ih _ input s rest read
  exact declarationWith_yields (fun input s rest => ih () input s rest) expr stmt _ _ _ read

end

/-- What is read as a statement is one, at the depth that goes with the levels left. -/
theorem statement_yields {limit depth levels : Nat} (balance : depth + levels = limit) :
    YieldsStmt (statement levels) fun tail s taken => Derives limit depth (.statement tail s) taken := by
  induction levels generalizing depth with
  | zero =>
    intro input s rest read
    exact absurd read not_reads_unexpected
  | succ levels ih =>
    have expr : Yields (expression levels) fun e taken =>
        DerivesExpr limit (depth + 1) (.expression e) taken := expression_yields (by omega)
    have stmt : YieldsStmt (statement levels) fun tail s taken =>
        Derives limit (depth + 1) (.statement tail s) taken := ih (by omega)
    rw [statement_succ]
    exact (statementWith_yields (declarationOver_yields expr stmt) expr stmt).mono
      fun _ _ _ => .nested (by omega)

theorem declaration_yields {limit depth levels : Nat} (balance : depth + levels = limit) :
    YieldsStmt (declaration levels) fun tail s taken => Derives limit depth (.declaration tail s) taken :=
  declarationOver_yields (expression_yields balance) (statement_yields balance)

end LoxFrontEnd.Parse
