import LoxFrontEnd.Proofs.Parse.Locality

/-!
Properties that all rules have. What the rules for one token have, and what sequences and rules tied to
themselves have where their parts have it, every rule for expressions has; with what braces need, every
rule for statements has it as well.
-/

namespace LoxFrontEnd

/-- The brace that closes a block or the body of a class. It is asked for behind a list of items, and
nowhere else. -/
def Expected.closesBody : Expected → Bool
  | .braceAfterBlock | .braceAfterClassBody => true
  | _ => false

namespace Parse

/-- A property of rules that is kept where rules are put together. Errors that miss a closing brace
are left to the rule for items in braces. -/
structure Sequential (K : (α : Type) → Parse α → Prop) : Prop where
  pure {α : Type} (a : α) : K α (pure a)
  unexpected {α : Type} (expected : Expected) : expected.closesBody = false → K α (unexpected expected)
  peek : K TokenKind peek
  takeSome {α : Type} (choose : Token → Option α) : K (Option α) (takeSome choose)
  bind {α β : Type} {p : Parse α} {f : α → Parse β} : K α p → (∀ a, K β (f a)) → K β (p >>= f)
  recursive {ι α : Type} {rule : (ι → Parse α) → ι → Parse α} :
    (∀ again : ι → Parse α, (∀ i, K α (again i)) → ∀ i, K α (rule again i)) → ∀ i, K α (recursive rule i)

namespace Sequential

variable {K : (α : Type) → Parse α → Prop} (closed : Sequential K) {α β : Type} {e : Parse Expr}
include closed

theorem map {p : Parse α} (f : α → β) (kept : K α p) : K β (f <$> p) := by
  rw [map_eq_pure_bind]
  exact closed.bind kept fun a => closed.pure (f a)

theorem accept (kind : TokenKind) : K (Option Token) (accept kind) := closed.takeSome _

theorem expect_of (kind : TokenKind) {expected : Expected} (refused : K Token (Parse.unexpected expected)) :
    K Token (expect kind expected) := by
  refine closed.bind (closed.accept kind) fun o => ?_
  cases o with
  | none => exact refused
  | some token => exact closed.pure token

theorem expect (kind : TokenKind) (expected : Expected) (other : expected.closesBody = false) :
    K Token (expect kind expected) := closed.expect_of kind (closed.unexpected expected other)

theorem separated {item : Parse α} (one : K α item) : K (List α) (separated item) := by
  refine closed.recursive (fun again others _ => closed.bind one fun a => ?_) ()
  refine closed.bind (closed.accept _) fun comma => ?_
  split
  · exact closed.bind (others ()) fun _ => closed.pure _
  · exact closed.pure _

theorem separatedUnless {item : Parse α} (one : K α item) (stop : TokenKind) :
    K (List α) (separatedUnless stop item) := by
  refine closed.bind closed.peek fun kind => ?_
  split
  · exact closed.pure []
  · exact closed.separated one

theorem steps {step : α → Parse (Option α)} (one : ∀ a, K (Option α) (step a)) (a : α) :
    K α (steps step a) := by
  refine closed.recursive (fun again others a => closed.bind (one a) fun o => ?_) a
  cases o with
  | none => exact closed.pure a
  | some b => exact others b

theorem many {item : Parse (Option α)} (one : K (Option α) item) (stop : TokenKind → Bool) :
    K (List α) (many stop item) := by
  refine closed.recursive (fun again others _ => closed.bind closed.peek fun kind => ?_) ()
  split
  · exact closed.pure []
  · exact closed.bind one fun _ => closed.bind (others ()) fun _ => closed.pure _

theorem link {ο : Type} (op? : TokenKind → Option ο) (node : ο → Expr → Expr → Expr) (operand : K Expr e)
    (left : Expr) : K (Option Expr) (link op? node e left) := by
  refine closed.bind (closed.takeSome _) fun o => ?_
  cases o with
  | none => exact closed.pure none
  | some op => exact closed.bind operand fun right => closed.pure _

theorem chain {ο : Type} (op? : TokenKind → Option ο) (node : ο → Expr → Expr → Expr) (operand : K Expr e) :
    K Expr (chain op? node e) :=
  closed.bind operand (closed.steps (closed.link op? node operand))

theorem primary (inner : K Expr e) : K Expr (primary e) := by
  refine closed.bind (closed.takeSome _) fun leaf => ?_
  split
  · exact closed.pure _
  refine closed.bind (closed.accept _) fun keyword => ?_
  split
  · refine closed.bind (closed.expect _ _ rfl) fun _ => ?_
    exact closed.bind (closed.expect _ _ rfl) fun _ => closed.pure _
  refine closed.bind (closed.accept _) fun paren => ?_
  split
  · exact closed.bind inner fun _ => closed.bind (closed.expect _ _ rfl) fun _ => closed.pure _
  · exact closed.unexpected _ rfl

theorem suffix (inner : K Expr e) (target : Expr) : K (Option Expr) (suffix e target) := by
  refine closed.bind (closed.accept _) fun paren => ?_
  split
  · refine closed.bind (closed.separatedUnless inner _) fun _ => ?_
    exact closed.bind (closed.expect _ _ rfl) fun _ => closed.pure _
  refine closed.bind (closed.accept _) fun dot => ?_
  split
  · exact closed.bind (closed.expect _ _ rfl) fun _ => closed.pure _
  · exact closed.pure none

theorem call (inner : K Expr e) : K Expr (call e) :=
  closed.bind (closed.primary inner) (closed.steps (closed.suffix inner))

theorem unary (inner : K Expr e) (levels : Nat) : K Expr (unary e levels) := by
  induction levels with
  | zero =>
    refine closed.bind closed.peek fun kind => ?_
    split
    · exact closed.bind (closed.unexpected _ rfl) fun _ => closed.call inner
    · exact closed.call inner
  | succ levels ih =>
    refine closed.bind (closed.takeSome _) fun o => ?_
    cases o with
    | none => exact closed.call inner
    | some op => exact closed.bind ih fun _ => closed.pure _

theorem factor (inner : K Expr e) (levels : Nat) : K Expr (factor e levels) :=
  closed.chain _ _ (closed.unary inner levels)

theorem term (inner : K Expr e) (levels : Nat) : K Expr (term e levels) :=
  closed.chain _ _ (closed.factor inner levels)

theorem comparison (inner : K Expr e) (levels : Nat) : K Expr (comparison e levels) :=
  closed.chain _ _ (closed.term inner levels)

theorem equality (inner : K Expr e) (levels : Nat) : K Expr (equality e levels) :=
  closed.chain _ _ (closed.comparison inner levels)

theorem logicAnd (inner : K Expr e) (levels : Nat) : K Expr (logicAnd e levels) :=
  closed.chain _ _ (closed.equality inner levels)

theorem logicOr (inner : K Expr e) (levels : Nat) : K Expr (logicOr e levels) :=
  closed.chain _ _ (closed.logicAnd inner levels)

/-- Failing for a reason of one's own is the only thing that expressions need besides. -/
theorem assignment (fails : ∀ position, K Expr (fail (.invalidAssignmentTarget position)))
    (inner : K Expr e) (levels : Nat) : K Expr (assignment e levels) := by
  refine closed.bind (closed.logicOr inner levels) fun target =>
    closed.bind (closed.accept _) fun sign => ?_
  cases sign with
  | none => exact closed.pure target
  | some sign =>
    refine closed.bind inner fun value => ?_
    split
    · exact closed.pure _
    · exact closed.pure _
    · exact fails _

theorem expression (assigned : ∀ levels, K Expr (Parse.expression levels) →
      K Expr (Parse.assignment (Parse.expression levels) levels)) (levels : Nat) :
    K Expr (Parse.expression levels) := by
  induction levels with
  | zero => exact closed.unexpected .shallowNesting rfl
  | succ levels ih => exact assigned levels ih

end Sequential

/-- Items with the brace that closes them. -/
def braced {α : Type} (site : RecoverySite) (expected : Expected) (item : Parse α) : Parse (List α) := do
  let items ← many endsBody (recovering site true item)
  let _ ← expect .rightBrace expected
  return items

theorem classDeclaration_eq (declaration : Parse Stmt) : classDeclaration declaration = do
    let name ← expect .identifier .className
    let superclass ←
      if (← accept .less).isSome then some <$> expect .identifier .superclassName else pure none
    let _ ← expect .leftBrace .braceBeforeClassBody
    let methods ← braced .classBody .braceAfterClassBody (function declaration .method)
    return .classDecl name.lexeme (superclass.map Token.lexeme) methods name.position.line := by
  simp only [classDeclaration, braced, bind_assoc, pure_bind]

/-- A property that is kept in statements as well: where a declaration begins, and in braces. -/
structure Closed (K : (α : Type) → Parse α → Prop) : Prop extends Sequential K where
  started (kind : TokenKind) : K Unit (record (.started kind))
  braced {α : Type} (site : RecoverySite) (expected : Expected) {item : Parse α} :
    K α item → K (List α) (braced site expected item)

namespace Closed

variable {K : (α : Type) → Parse α → Prop} (closed : Closed K) {e : Parse Expr} {s d : Parse Stmt}
include closed

theorem parameter : K Parameter parameter :=
  closed.bind (closed.expect _ _ rfl) fun _ => closed.pure _

theorem function (inner : K Stmt d) (routine : Routine) : K Function (function d routine) :=
  closed.bind (closed.expect _ _ rfl) fun _ =>
    closed.bind (closed.expect _ _ rfl) fun _ =>
      closed.bind (closed.separatedUnless closed.parameter _) fun _ =>
        closed.bind (closed.expect _ _ rfl) fun _ =>
          closed.bind (closed.expect _ _ rfl) fun _ =>
            closed.bind (closed.braced _ _ inner) fun _ => closed.pure _

theorem classDeclaration (inner : K Stmt d) : K Stmt (classDeclaration d) := by
  rw [classDeclaration_eq]
  refine closed.bind (closed.expect _ _ rfl) fun name => closed.bind (closed.accept _) fun less => ?_
  have body (superclass : Option Token) : K Stmt (do
      let _ ← Parse.expect .leftBrace .braceBeforeClassBody
      let methods ← Parse.braced .classBody .braceAfterClassBody (Parse.function d .method)
      return Stmt.classDecl name.lexeme (superclass.map Token.lexeme) methods name.position.line) :=
    closed.bind (closed.expect _ _ rfl) fun _ =>
      closed.bind (closed.braced _ _ (closed.function inner .method)) fun _ => closed.pure _
  split
  · exact closed.bind (closed.map some (closed.expect _ _ rfl)) body
  · exact closed.bind (closed.pure none) body

theorem varDeclaration (inner : K Expr e) : K Stmt (varDeclaration e) := by
  refine closed.bind (closed.expect _ _ rfl) fun name => closed.bind (closed.accept _) fun sign => ?_
  split
  · refine closed.bind (closed.map some inner) fun _ => ?_
    exact closed.bind (closed.expect _ _ rfl) fun _ => closed.pure _
  · refine closed.bind (closed.pure none) fun _ => ?_
    exact closed.bind (closed.expect _ _ rfl) fun _ => closed.pure _

theorem expressionStatement (inner : K Expr e) : K Stmt (expressionStatement e) :=
  closed.bind inner fun _ => closed.bind (closed.expect _ _ rfl) fun _ => closed.pure _

theorem printStatement (inner : K Expr e) : K Stmt (printStatement e) :=
  closed.bind inner fun _ => closed.bind (closed.expect _ _ rfl) fun _ => closed.pure _

theorem expressionUnless (inner : K Expr e) (stop : TokenKind) :
    K (Option Expr) (expressionUnless e stop) := by
  refine closed.bind closed.peek fun kind => ?_
  split
  · exact closed.pure none
  · exact closed.map some inner

theorem returnStatement (inner : K Expr e) (keyword : Token) : K Stmt (returnStatement e keyword) :=
  closed.bind (closed.expressionUnless inner _) fun _ => closed.bind (closed.expect _ _ rfl) fun _ =>
    closed.pure _

theorem whileStatement (inner : K Expr e) (body : K Stmt s) : K Stmt (whileStatement e s) :=
  closed.bind (closed.expect _ _ rfl) fun _ => closed.bind inner fun _ =>
    closed.bind (closed.expect _ _ rfl) fun _ => closed.bind body fun _ => closed.pure _

theorem ifStatement (inner : K Expr e) (branch : K Stmt s) : K Stmt (ifStatement e s) := by
  refine closed.bind (closed.expect _ _ rfl) fun _ => closed.bind inner fun condition => ?_
  refine closed.bind (closed.expect _ _ rfl) fun _ => closed.bind branch fun _ =>
    closed.bind (closed.accept _) fun _ => ?_
  split
  · exact closed.bind (closed.map some branch) fun _ => closed.pure _
  · exact closed.bind (closed.pure none) fun _ => closed.pure _

theorem forInitializer (inner : K Expr e) : K (Option Stmt) (forInitializer e) := by
  refine closed.bind (closed.accept _) fun semicolon => ?_
  split
  · exact closed.pure none
  refine closed.bind (closed.accept _) fun keyword => ?_
  split
  · exact closed.bind (closed.varDeclaration inner) fun _ => closed.pure _
  · exact closed.map some (closed.expressionStatement inner)

theorem forStatement (inner : K Expr e) (body : K Stmt s) : K Stmt (forStatement e s) := by
  refine closed.bind (closed.expect _ _ rfl) fun _ => closed.bind (closed.forInitializer inner) fun _ => ?_
  refine closed.bind (closed.expressionUnless inner _) fun _ =>
    closed.bind (closed.expect _ _ rfl) fun _ => ?_
  refine closed.bind (closed.expressionUnless inner _) fun _ =>
    closed.bind (closed.expect _ _ rfl) fun _ => ?_
  exact closed.bind body fun _ => closed.pure _

theorem statementWith (inner : K Expr e) (branch : K Stmt s) (item : K Stmt d) :
    K Stmt (statementWith e s d) := by
  refine closed.bind (closed.accept _) fun keyword => ?_
  split
  · exact closed.forStatement inner branch
  refine closed.bind (closed.accept _) fun keyword => ?_
  split
  · exact closed.ifStatement inner branch
  refine closed.bind (closed.accept _) fun keyword => ?_
  split
  · exact closed.whileStatement inner branch
  refine closed.bind (closed.accept _) fun keyword => ?_
  split
  · exact closed.returnStatement inner _
  refine closed.bind (closed.accept _) fun brace => ?_
  split
  · exact closed.bind (closed.braced _ _ item) fun _ => closed.pure _
  refine closed.bind (closed.accept _) fun keyword => ?_
  split
  · exact closed.printStatement inner
  · exact closed.expressionStatement inner

theorem declarationWith (inner : K Expr e) (plain : K Stmt s) (item : K Stmt d) :
    K Stmt (declarationWith e s d) := by
  refine closed.bind closed.peek fun kind => closed.bind (closed.started kind) fun _ => ?_
  refine closed.bind (closed.accept _) fun keyword => ?_
  split
  · exact closed.varDeclaration inner
  refine closed.bind (closed.accept _) fun keyword => ?_
  split
  · exact closed.bind (closed.function item _) fun _ => closed.pure _
  refine closed.bind (closed.accept _) fun keyword => ?_
  split
  · exact closed.classDeclaration item
  · exact plain

theorem declarationOver (inner : K Expr e) (plain : K Stmt s) : K Stmt (declarationOver e s) :=
  closed.recursive (fun _ item _ => closed.declarationWith inner plain (item ())) ()

theorem statement (expressions : ∀ levels, K Expr (expression levels)) (levels : Nat) :
    K Stmt (statement levels) := by
  induction levels with
  | zero => exact closed.unexpected .shallowNesting rfl
  | succ levels ih =>
    exact closed.statementWith (expressions levels) ih (closed.declarationOver (expressions levels) ih)

theorem declaration (expressions : ∀ levels, K Expr (expression levels)) (levels : Nat) :
    K Stmt (declaration levels) :=
  closed.declarationOver (expressions levels) (closed.statement expressions levels)

end Closed

end Parse

end LoxFrontEnd
