import LoxFrontEnd.Proofs.Parse.ExpressionComplete
import LoxFrontEnd.Proofs.Parse.StatementSound

/-!
What the grammar derives is read by the rules of statements and declarations. Behind a statement that
ends in an open `if` there may be no `else`, since the rule would take it.
-/

namespace LoxFrontEnd.Parse

open Grammar

theorem kind_cons_ne {token : Token} {tokens : List Token} {last : Position} {kind other : TokenKind}
    (ofKind : token.kind = kind) (ne : kind ≠ other) : Input.kind ⟨token :: tokens, last⟩ ≠ other := by
  rw [Input.kind_cons, ofKind]
  exact ne

section

variable {limit depth levels : Nat} {rest : List Token} {last : Position}

/-- An expression in front of a semicolon or a closing parenthesis. -/
theorem reads_before {e : Expr} {tokens : List Token} {mark : Token} (balance : depth + levels = limit)
    (derives : DerivesExpr limit depth (.expression e) tokens) {kind : TokenKind}
    (isMark : mark.kind = kind) (none : kind.rank? = none) :
    Spans (expression levels) last tokens e (mark :: rest) :=
  reads_expression balance derives (by rw [Input.kind_cons, isMark, none])

theorem reads_optional {o : Option Expr} {tokens : List Token} {mark : Token} {stop : TokenKind}
    (balance : depth + levels = limit) (optional : OptionalExpr limit depth o tokens)
    (isMark : mark.kind = stop) (none : stop.rank? = none) (starts : startsExpr stop = false) :
    Spans (expressionUnless (expression levels) stop) last tokens o (mark :: rest) := by
  rw [Spans, expressionUnless, reads_peek_bind]
  cases optional with
  | none =>
    rw [if_pos (by exact isMark)]
    exact Spans.pure
  | some derives =>
    have opens := startsExpr_of_derives derives (by simp) (mark :: rest) last
    rw [if_neg (kind_ne_of_starts opens starts)]
    exact (reads_before balance derives isMark none).map

theorem reads_expressionStatement {e : Expr} {tokens : List Token} {semicolon : Token}
    (balance : depth + levels = limit) (derives : DerivesExpr limit depth (.expression e) tokens)
    (isSemicolon : semicolon.kind = .semicolon) :
    Spans (expressionStatement (expression levels)) last (tokens ++ [semicolon]) (.expr e) rest :=
  (reads_before balance derives isSemicolon rfl).bind (.expected isSemicolon .pure)

theorem reads_parameter {name : Token} (isName : name.kind = .identifier) :
    Spans parameter last [name] ⟨name.lexeme, name.position.line⟩ rest :=
  .expected isName .pure

theorem reads_separated_parameters {ps : List Parameter} {tokens : List Token}
    (parameters : Parameters ps tokens) (some : ps ≠ []) (closed : Input.kind ⟨rest, last⟩ = .rightParen) :
    Spans (separated parameter) last tokens ps rest := by
  induction parameters generalizing last with
  | none => exact absurd rfl some
  | last isName =>
    refine Reads.separated_last (reads_parameter isName) ?_
    show Input.kind ⟨rest, last⟩ ≠ .comma
    rw [closed]
    nofun
  | more isName isComma _ ih =>
    exact (reads_parameter isName).separated_more isComma (ih (List.cons_ne_nil _ _) closed)

theorem reads_parameters {ps : List Parameter} {tokens : List Token} (parameters : Parameters ps tokens)
    (closed : Input.kind ⟨rest, last⟩ = .rightParen) :
    Spans (separatedUnless .rightParen parameter) last tokens ps rest := by
  have starts (name : Token) (isName : name.kind = .identifier) (others : List Token) :
      Input.kind ⟨name :: others ++ rest, last⟩ ≠ .rightParen := kind_cons_ne isName (by decide)
  have listed (some : ps ≠ []) := reads_separated_parameters parameters some closed
  cases parameters with
  | none => exact Reads.separatedUnless_nil closed
  | last isName => exact (reads_separatedUnless (starts _ isName _)).mpr (listed (List.cons_ne_nil _ _))
  | more isName isComma others =>
    exact (reads_separatedUnless (starts _ isName _)).mpr (listed (List.cons_ne_nil _ _))

end

/-- How the rules read a phrase, whatever may stand behind it. -/
def CompleteStmt (levels : Nat) : Phrase → List Token → Prop
  | .declaration tail s, tokens => ∀ rest last, (tail = .dangling → Input.kind ⟨rest, last⟩ ≠ .kwElse) →
      Spans (declaration levels) last tokens s rest
  | .statement tail s, tokens => ∀ rest last, (tail = .dangling → Input.kind ⟨rest, last⟩ ≠ .kwElse) →
      Spans (statement levels) last tokens s rest
  | .unnested tail s, tokens => ∀ rest last, (tail = .dangling → Input.kind ⟨rest, last⟩ ≠ .kwElse) →
      Spans (statement (levels + 1)) last tokens s rest
  | .varDecl s, tokens => ∃ keyword others, tokens = keyword :: others ∧ keyword.kind = .kwVar ∧ ∀ rest,
      Spans (varDeclaration (expression levels)) keyword.position others s rest
  | .initializer o, tokens => ∀ rest last, Spans (forInitializer (expression levels)) last tokens o rest
  | .function f, tokens => ∀ routine rest last,
      Spans (function (declaration levels) routine) last tokens f rest
  | .methods fs, tokens => ∀ rest last, Input.kind ⟨rest, last⟩ = .rightBrace →
      Spans (many endsBody (recovering .classBody true (function (declaration levels) .method)))
        last tokens fs rest
  | .body ss, tokens => ∀ (stop : TokenKind → Bool) site enclosed rest last,
      (∀ kind, startsDeclaration kind = true → stop kind = false) →
      stop (Input.kind ⟨rest, last⟩) = true → Input.kind ⟨rest, last⟩ ≠ .kwElse →
      Spans (many stop (recovering site enclosed (declaration levels))) last tokens ss rest

theorem startsDeclaration_endsBody (kind : TokenKind) (starts : startsDeclaration kind = true) :
    endsBody kind = false :=
  decide_eq_false fun ends => ends.elim (kind_ne_of_starts starts rfl) (kind_ne_of_starts starts rfl)

section

variable {levels : Nat} {tokens rest : List Token} {last : Position}

theorem endsBody_of_closes {closing : Token} (closes : closing.kind = .rightBrace) :
    endsBody (Input.kind ⟨closing :: rest, last⟩) = true := by
  rw [Input.kind_cons, closes]
  rfl

theorem reads_superclassName {parent : Token} (isParent : parent.kind = .identifier) :
    Spans (some <$> expect .identifier .superclassName) last [parent] (some parent) rest :=
  reads_map.mpr ⟨parent, reads_expect.mpr ⟨isParent, rfl, rfl⟩, rfl⟩

theorem reads_block {ss : List Stmt} {closing : Token} (body : CompleteStmt levels (.body ss) tokens)
    (closes : closing.kind = .rightBrace) :
    Spans (block (declaration levels)) last (tokens ++ [closing]) ss rest := by
  have items := body endsBody .declaration true (closing :: rest) last startsDeclaration_endsBody
    (endsBody_of_closes closes) (kind_cons_ne closes (by decide))
  exact items.bind (.expected closes .pure)

/-- A declaration tells the kind of its first token, and takes nothing by that. -/
theorem Spans.declared {s : Stmt}
    (read : Spans (do
      if (← accept .kwVar).isSome then
        varDeclaration (expression levels)
      else if (← accept .kwFun).isSome then
        return .funDecl (← function (declaration levels) .function)
      else if (← accept .kwClass).isSome then
        classDeclaration (declaration levels)
      else
        statement levels) last tokens s rest) :
    Spans (declaration levels) last tokens s rest := by
  rw [Spans, declaration_eq, declarationWith, reads_peek_bind, reads_started_bind]
  exact read

end

theorem completeStmt_of_derives {limit depth : Nat} {phrase : Phrase} {tokens : List Token}
    (derives : Derives limit depth phrase tokens) :
    ∀ levels, depth + levels = limit → CompleteStmt levels phrase tokens := by
  induction derives with
  | varDeclaration _ ih =>
    intro levels balance rest last _
    obtain ⟨keyword, others, rfl, isVar, read⟩ := ih levels balance
    exact .declared (.accepted isVar (read rest))
  | funDeclaration isFun _ ih =>
    intro levels balance rest last _
    refine .declared (.passed (kind_cons_ne isFun (by decide)) (.accepted isFun ?_))
    exact (ih levels balance _ _ _).ends .pure
  | @classDeclaration _ _ _ _ _ brace _ _ closing isClass isName superclass isBrace _ closes ih =>
    intro levels balance rest last _
    have methods := ih levels balance (closing :: rest) brace.position closes
    refine .declared (.passed (kind_cons_ne isClass (by decide)) (.passed (kind_cons_ne isClass (by decide))
      (.accepted isClass (.expected isName ?_))))
    cases superclass with
    | none =>
      refine .passed (kind_cons_ne isBrace (by decide)) (Spans.pure.bind (.expected isBrace ?_))
      exact methods.bind (.expected closes .pure)
    | some isLess isAbove =>
      refine .accepted isLess ((reads_superclassName isAbove).bind (.expected isBrace ?_))
      exact methods.bind (.expected closes .pure)
  | plain derives ih =>
    intro levels balance rest last follow
    obtain ⟨token, others, rfl, opens⟩ := derives.opens.resolve_left (fun none => none.2)
    refine .declared (.passed ?_ (.passed ?_ (.passed ?_ (ih levels balance rest last follow)))) <;>
      exact kind_ne_of_starts opens rfl
  | nested room _ ih =>
    intro levels balance rest last follow
    obtain ⟨levels, rfl⟩ : ∃ fewer, levels = fewer + 1 := ⟨levels - 1, by omega⟩
    exact ih levels (by omega) rest last follow
  | @expr _ _ _ semicolon derives isSemicolon =>
    intro levels balance rest last _
    have starts := startsExpr_of_derives derives (by simp) ([semicolon] ++ rest) last
    rw [← List.append_assoc] at starts
    iterate 6 refine .passed (kind_ne_of_starts starts rfl) ?_
    exact reads_expressionStatement balance derives isSemicolon
  | print isPrint derives isSemicolon =>
    intro levels balance rest last _
    iterate 5 refine .passed (kind_cons_ne isPrint (by decide)) ?_
    refine .accepted isPrint ?_
    exact (reads_before balance derives isSemicolon rfl).bind (.expected isSemicolon .pure)
  | ret isReturn optional isSemicolon =>
    intro levels balance rest last _
    iterate 3 refine .passed (kind_cons_ne isReturn (by decide)) ?_
    refine .accepted isReturn ?_
    exact (reads_optional balance optional isSemicolon rfl rfl).bind (.expected isSemicolon .pure)
  | block opens _ closes ih =>
    intro levels balance rest last _
    iterate 4 refine .passed (kind_cons_ne opens (by decide)) ?_
    exact .accepted opens ((reads_block (ih levels balance) closes).ends .pure)
  | @whileLoop _ _ _ _ _ _ closing _ _ isWhile opens derives closes _ ih =>
    intro levels balance rest last follow
    iterate 2 refine .passed (kind_cons_ne isWhile (by decide)) ?_
    refine .accepted isWhile (.expected opens ?_)
    refine (reads_before balance derives closes rfl).bind (.expected closes ?_)
    exact (ih levels balance rest closing.position follow).ends .pure
  | @ifThen _ _ _ _ _ _ closing _ _ isIf opens derives closes body ih =>
    intro levels balance rest last follow
    have noElse : Input.kind ⟨rest, last⟩ ≠ .kwElse := follow rfl
    refine .passed (kind_cons_ne isIf (by decide)) (.accepted isIf (.expected opens ?_))
    refine (reads_before balance derives closes rfl).bind (.expected closes ?_)
    exact (ih levels balance rest closing.position fun _ => noElse).ends
      (.passed noElse (Spans.pure.ends .pure))
  | @ifElse _ _ _ _ _ _ _ _ _ otherwise _ body' isIf opens derives closes _ isElse _ ih ihElse =>
    intro levels balance rest last follow
    refine .passed (kind_cons_ne isIf (by decide)) (.accepted isIf (.expected opens ?_))
    refine (reads_before balance derives closes rfl).bind (.expected closes ?_)
    refine (ih levels balance (otherwise :: (body' ++ rest)) _ nofun).bind (.accepted isElse ?_)
    exact (ihElse levels balance rest otherwise.position follow).map.ends .pure
  | @forLoop _ _ _ _ _ _ _ _ _ _ _ closing _ _ isFor opens _ optional isSemicolon optional' closes
      _ ihStart ih =>
    intro levels balance rest last follow
    refine .accepted isFor (.expected opens ((ihStart levels balance _ _).bind ?_))
    refine (reads_optional balance optional isSemicolon rfl rfl).bind (.expected isSemicolon ?_)
    refine (reads_optional balance optional' closes rfl rfl).bind (.expected closes ?_)
    rw [← forLoop_eq_forTree]
    exact (ih levels balance rest closing.position follow).ends .pure
  | @uninitialized _ keyword name semicolon isVar isName isSemicolon =>
    intro levels balance
    refine ⟨keyword, [name, semicolon], rfl, isVar, fun rest => .expected isName ?_⟩
    exact .passed (kind_cons_ne isSemicolon (by decide)) (Spans.pure.bind (.expected isSemicolon .pure))
  | @initialized _ keyword name sign _ tokens semicolon isVar isName isEqual derives isSemicolon =>
    intro levels balance
    refine ⟨keyword, name :: sign :: (tokens ++ [semicolon]), rfl, isVar, fun rest => ?_⟩
    refine .expected isName (.accepted isEqual ?_)
    exact (reads_before balance derives isSemicolon rfl).map.bind (.expected isSemicolon .pure)
  | noInitializer isSemicolon =>
    intro levels balance rest last
    exact .accepted isSemicolon .pure
  | varInitializer _ ih =>
    intro levels balance rest last
    obtain ⟨keyword, others, rfl, isVar, read⟩ := ih levels balance
    exact .passed (kind_cons_ne isVar (by decide)) (.accepted isVar ((read rest).ends .pure))
  | @exprInitializer _ _ _ semicolon derives isSemicolon =>
    intro levels balance rest last
    have starts := startsExpr_of_derives derives (by simp) ([semicolon] ++ rest) last
    rw [← List.append_assoc] at starts
    iterate 2 refine .passed (kind_ne_of_starts starts rfl) ?_
    exact (reads_expressionStatement balance derives isSemicolon).map
  | function isName opens parameters closes isBrace _ isClose ih =>
    intro levels balance routine rest last
    refine .expected isName (.expected opens ?_)
    refine (reads_parameters parameters (by exact closes)).bind (.expected closes (.expected isBrace ?_))
    exact (reads_block (ih levels balance) isClose).ends .pure
  | noMethods =>
    intro levels balance rest last closed
    exact Reads.many_stop (by rw [List.nil_append, closed]; rfl)
  | @method _ f fs first others derives _ ih ihOthers =>
    intro levels balance rest last closed
    obtain ⟨token, tokens, rfl, opens⟩ := derives.opens.resolve_left (fun none => none.2)
    have goes : endsBody token.kind = false := by
      rw [opens]
      rfl
    have read := ih levels balance .method (others ++ rest) last
    exact .many_next goes (reads_recovering.mpr ⟨f, rfl, read⟩) (ihOthers levels balance rest _ closed)
  | empty =>
    intro levels balance stop site enclosed rest last _ ends _
    exact Reads.many_stop ends
  | @item _ tail s ss first others derives derivesOthers ih ihOthers =>
    intro levels balance stop site enclosed rest last goes ends noElse
    obtain ⟨token, tokens, rfl, opens⟩ := derives.opens.resolve_left (fun none => none.2)
    have follow : Input.kind ⟨others ++ rest, last⟩ ≠ .kwElse := by
      rcases derivesOthers.opens with ⟨rfl, _⟩ | ⟨next, behind, rfl, opensNext⟩
      · exact noElse
      · exact kind_ne_of_starts opensNext rfl
    have read := ih levels balance (others ++ rest) last fun _ => follow
    exact .many_next (goes _ opens) (reads_recovering.mpr ⟨s, rfl, read⟩)
      (ihOthers levels balance stop site enclosed rest _ goes ends noElse)

end LoxFrontEnd.Parse
