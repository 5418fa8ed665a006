import LoxFrontEnd.Proofs.Grammar.Canonical
import LoxFrontEnd.Proofs.Grammar.Statement
import LoxFrontEnd.Proofs.Tree.CanonicalProgram

/-!
Canonical programs are the ones that the grammar derives. A statement whose tail is closed takes no
`else` from behind, and a tree that is not open has a derivation with a closed tail; loops with `for`
have become blocks, which are never open.
-/

namespace LoxFrontEnd

namespace Grammar

open LoxFrontEnd.Stmt

/-- What a derivation makes of a tree. -/
def CanonicalPhrase : Phrase → Prop
  | .declaration tail s => s.Canonical ∧ (s.Open → tail = .dangling)
  | .statement tail s | .unnested tail s => s.Canonical ∧ ¬ s.IsDeclaration ∧ (s.Open → tail = .dangling)
  | .varDecl s => s.Canonical ∧ ¬ s.Open
  | .initializer o => ∀ s ∈ o, s.Canonical
  | .function f => FunctionCanonical f
  | .methods fs => MethodsCanonical fs
  | .body ss => CanonicalAll ss

section

variable {limit depth : Nat} {tokens : List Token}

theorem canonical_of_expression {e : Expr} (derives : DerivesExpr limit depth (.expression e) tokens) :
    e.Canonical :=
  (shaped_of_derives derives).1

theorem OptionalExpr.canonical {o : Option Expr} (optional : OptionalExpr limit depth o tokens) :
    Expr.OptionCanonical o := by
  cases optional with
  | none => trivial
  | some derives => exact canonical_of_expression derives

/-- Without a condition a loop has the one that is always true. -/
theorem OptionalExpr.canonical_getD {o : Option Expr} (optional : OptionalExpr limit depth o tokens) :
    (o.getD (.literal (.bool true))).Canonical := by
  cases optional with
  | none => trivial
  | some derives => exact canonical_of_expression derives

theorem canonical_turn {o : Option Expr} {s : Stmt} (optional : OptionalExpr limit depth o tokens)
    (canonical : s.Canonical) (plain : ¬ s.IsDeclaration) :
    (turn s o).Canonical ∧ ¬ (turn s o).IsDeclaration := by
  cases optional with
  | none => exact ⟨canonical, plain⟩
  | some derives => exact ⟨⟨canonical, canonical_of_expression derives, trivial⟩, id⟩

theorem canonical_forTree {o : Option Stmt} {o' : Option Expr} {s : Stmt}
    (initializer : ∀ s ∈ o, s.Canonical) (condition : OptionalExpr limit depth o' tokens)
    (body : s.Canonical ∧ ¬ s.IsDeclaration) : (forTree o o' s).Canonical := by
  have loop : CanonicalAll [.whileLoop (o'.getD (.literal (.bool true))) s] :=
    ⟨⟨condition.canonical_getD, body.2, body.1⟩, trivial⟩
  cases o with
  | none => exact loop
  | some start => exact ⟨initializer start rfl, loop⟩

end

/-- Derived trees are canonical. -/
theorem canonicalPhrase_of_derives {limit depth : Nat} {phrase : Phrase} {tokens : List Token}
    (derives : Derives limit depth phrase tokens) : CanonicalPhrase phrase := by
  induction derives with
  | varDeclaration _ ih => exact ⟨ih.1, fun isOpen => absurd isOpen ih.2⟩
  | funDeclaration _ _ ih => exact ⟨ih, False.elim⟩
  | classDeclaration _ _ _ _ _ _ ih => exact ⟨ih, False.elim⟩
  | plain _ ih => exact ⟨ih.1, ih.2.2⟩
  | nested _ _ ih => exact ih
  | expr derives | print _ derives => exact ⟨canonical_of_expression derives, id, False.elim⟩
  | ret _ optional => exact ⟨optional.canonical, id, False.elim⟩
  | block _ _ _ ih => exact ⟨ih, id, False.elim⟩
  | whileLoop _ _ derives _ _ ih =>
    exact ⟨⟨canonical_of_expression derives, ih.2.1, ih.1⟩, id, ih.2.2⟩
  | ifThen _ _ derives _ _ ih =>
    exact ⟨⟨canonical_of_expression derives, ih.2.1, ih.1⟩, id, fun _ => rfl⟩
  | ifElse _ _ derives _ _ _ _ ih ihElse =>
    have closed : ¬ Open _ := fun isOpen => nomatch ih.2.2 isOpen
    exact ⟨⟨canonical_of_expression derives, ⟨ih.2.1, ih.1⟩, closed, ihElse.2.1, ihElse.1⟩, id, ihElse.2.2⟩
  | forLoop _ _ _ condition _ increment _ _ ihStart ih =>
    exact ⟨canonical_forTree ihStart condition (canonical_turn increment ih.1 ih.2.1), id, False.elim⟩
  | uninitialized => exact ⟨trivial, id⟩
  | initialized _ _ _ derives => exact ⟨canonical_of_expression derives, id⟩
  | noInitializer => exact nofun
  | varInitializer _ ih =>
    rintro s ⟨⟩
    exact ih.1
  | exprInitializer derives =>
    rintro s ⟨⟩
    exact canonical_of_expression derives
  | function _ _ _ _ _ _ _ ih => exact ih
  | noMethods | empty => trivial
  | method _ _ ih ihOthers => exact ⟨ih, ihOthers⟩
  | item _ _ ih ihOthers => exact ⟨ih.1, ihOthers⟩

section

variable {limit depth : Nat} {tokens : List Token}

theorem expression_of_canonical {e : Expr} (canonical : e.Canonical) (enters : e.Enters limit depth)
    (renders : tokens.map Token.mark = e.rendering) :
    ∃ e', e'.Alike e ∧ DerivesExpr limit depth (.expression e') tokens := by
  obtain ⟨e', alike, derived⟩ := derives_of_canonical e canonical enters.2 renders
  exact ⟨e', alike, derived.expression enters.1⟩

theorem optional_of_canonical {o : Option Expr} (canonical : Expr.OptionCanonical o)
    (enters : Expr.OptionEnters limit depth o) (renders : tokens.map Token.mark = Expr.optionRendering o) :
    ∃ o', o'.map (Expr.mapLines fun _ => 0) = o.map (Expr.mapLines fun _ => 0) ∧
      OptionalExpr limit depth o' tokens := by
  cases o with
  | none =>
    obtain rfl := List.map_eq_nil_iff.mp renders
    exact ⟨none, rfl, .none⟩
  | some e =>
    obtain ⟨e', alike, derives⟩ := expression_of_canonical canonical enters renders
    exact ⟨some e', congrArg some alike, .some derives⟩

theorem parameters_of_rendering {tokens : List Token} (ps : List Parameter)
    (renders : tokens.map Token.mark = Parameter.renderingAll ps) :
    ∃ ps', ps'.map (Parameter.mapLine fun _ => 0) = ps.map (Parameter.mapLine fun _ => 0) ∧
      Parameters ps' tokens := by
  match ps with
  | [] =>
    obtain rfl := List.map_eq_nil_iff.mp renders
    exact ⟨[], rfl, .none⟩
  | [⟨text, line⟩] =>
    obtain ⟨name, rfl, isName⟩ := List.map_eq_singleton_iff.mp renders
    obtain rfl : text = name.lexeme := Option.some.inj (Token.lexeme_of_mark isName rfl)
    exact ⟨[⟨name.lexeme, name.position.line⟩], rfl, .last (Token.kind_of_mark isName)⟩
  | ⟨text, line⟩ :: next :: ps =>
    obtain ⟨name, others, rfl, isName, rendersOthers⟩ := List.map_eq_cons_iff.mp renders
    obtain ⟨comma, others, rfl, isComma, rendersOthers⟩ := List.map_eq_cons_iff.mp rendersOthers
    obtain rfl : text = name.lexeme := Option.some.inj (Token.lexeme_of_mark isName rfl)
    obtain ⟨ps', alike, parameters⟩ := parameters_of_rendering (next :: ps) rendersOthers
    match ps' with
    | next' :: ps' =>
      exact ⟨⟨name.lexeme, name.position.line⟩ :: next' :: ps', congrArg (_ :: ·) alike,
        .more (Token.kind_of_mark isName) (Token.kind_of_mark isComma) parameters⟩

/-- Tokens that show a mark behind other marks end in a token with that mark. -/
theorem split_last {first : List Mark} {m : Mark} (shown : tokens.map Token.mark = first ++ [m]) :
    ∃ left token, tokens = left ++ [token] ∧ left.map Token.mark = first ∧ token.mark = m := by
  obtain ⟨left, token, right, rfl, isFirst, isMark, isSecond⟩ := split_marks shown
  obtain rfl := List.map_eq_nil_iff.mp isSecond
  exact ⟨left, token, rfl, isFirst, isMark⟩

/-- A keyword with a condition in parentheses behind it. -/
theorem split_condition {kind : TokenKind} {e : Expr} {behind : List Mark} (canonical : e.Canonical)
    (enters : e.Enters limit depth) (renders : tokens.map Token.mark =
      .sign kind :: .sign .leftParen :: (e.rendering ++ .sign .rightParen :: behind)) :
    ∃ keyword opening e' condition closing rest,
      tokens = keyword :: opening :: (condition ++ closing :: rest) ∧
      keyword.kind = kind ∧ opening.kind = .leftParen ∧ e'.Alike e ∧
      DerivesExpr limit depth (.expression e') condition ∧ closing.kind = .rightParen ∧
      rest.map Token.mark = behind := by
  obtain ⟨keyword, others, rfl, isKeyword, rendersOthers⟩ := List.map_eq_cons_iff.mp renders
  obtain ⟨opening, others, rfl, isOpening, rendersOthers⟩ := List.map_eq_cons_iff.mp rendersOthers
  obtain ⟨condition, closing, rest, rfl, rendersCondition, isClosing, rendersRest⟩ :=
    split_marks rendersOthers
  obtain ⟨e', alike, derives⟩ := expression_of_canonical canonical enters rendersCondition
  exact ⟨keyword, opening, e', condition, closing, rest, rfl, Token.kind_of_mark isKeyword,
    Token.kind_of_mark isOpening, alike, derives, Token.kind_of_mark isClosing, rendersRest⟩

/-- What is derived for a statement: the statement but for its lines, with a tail that dangles only
where the statement is open. Where it is no declaration it is derived as a statement. -/
def Restored (limit depth : Nat) (s : Stmt) (tokens : List Token) : Prop :=
  ∃ s' tail, s'.Alike s ∧ (tail = .dangling → s.Open) ∧ Derives limit depth (.declaration tail s') tokens ∧
    (¬ s.IsDeclaration → Derives limit depth (.statement tail s') tokens)

theorem Restored.of_unnested {s s' : Stmt} {tail : Tail} (room : depth < limit) (alike : s'.Alike s)
    (dangles : tail = .dangling → s.Open) (derives : Derives limit (depth + 1) (.unnested tail s') tokens) :
    Restored limit depth s tokens :=
  have nested : Derives limit depth (.statement tail s') tokens := .nested room derives
  ⟨s', tail, alike, dangles, .plain nested, fun _ => nested⟩

theorem Restored.of_closed {s s' : Stmt} (room : depth < limit) (alike : s'.Alike s)
    (derives : Derives limit (depth + 1) (.unnested .closed s') tokens) : Restored limit depth s tokens :=
  .of_unnested room alike (fun dangles : Tail.closed = .dangling => nomatch dangles) derives

theorem Restored.of_declaration {s s' : Stmt} (alike : s'.Alike s) (declares : s.IsDeclaration)
    (derives : Derives limit depth (.declaration .closed s') tokens) : Restored limit depth s tokens :=
  ⟨s', .closed, alike, nofun, derives, fun plain => absurd declares plain⟩

/-- A branch or the body of a loop. -/
theorem Restored.statement {s : Stmt} (restored : Restored limit depth s tokens)
    (plain : ¬ s.IsDeclaration) :
    ∃ s' tail, s'.Alike s ∧ (tail = .dangling → s.Open) ∧
      Derives limit depth (.statement tail s') tokens := by
  obtain ⟨s', tail, alike, dangles, -, derives⟩ := restored
  exact ⟨s', tail, alike, dangles, derives plain⟩

end

mutual

/-- A canonical statement is derived from each of its renderings, but for its lines. -/
theorem restored_of_canonical {limit depth : Nat} {tokens : List Token} (s : Stmt) (canonical : s.Canonical)
    (fits : s.Fits limit depth) (renders : tokens.map Token.mark = s.rendering) :
    Restored limit depth s tokens := by
  match s with
  | .expr e =>
    obtain ⟨inner, semicolon, rfl, rendersInner, isSemicolon⟩ := split_last renders
    obtain ⟨e', alike, derives⟩ := expression_of_canonical canonical fits.2 rendersInner
    have whole : (Stmt.expr e').Alike (.expr e) := congrArg Stmt.expr alike
    exact .of_closed fits.1 whole (.expr derives (Token.kind_of_mark isSemicolon))
  | .print e =>
    obtain ⟨keyword, others, rfl, isKeyword, rendersOthers⟩ := List.map_eq_cons_iff.mp renders
    obtain ⟨inner, semicolon, rfl, rendersInner, isSemicolon⟩ := split_last rendersOthers
    obtain ⟨e', alike, derives⟩ := expression_of_canonical canonical fits.2 rendersInner
    have whole : (Stmt.print e').Alike (.print e) := congrArg Stmt.print alike
    exact .of_closed fits.1 whole
      (.print (Token.kind_of_mark isKeyword) derives (Token.kind_of_mark isSemicolon))
  | .ret value line =>
    obtain ⟨keyword, others, rfl, isKeyword, rendersOthers⟩ := List.map_eq_cons_iff.mp renders
    obtain ⟨inner, semicolon, rfl, rendersInner, isSemicolon⟩ := split_last rendersOthers
    obtain ⟨o, alike, optional⟩ := optional_of_canonical canonical fits.2 rendersInner
    have whole : (Stmt.ret o keyword.position.line).Alike (.ret value line) := congrArg (Stmt.ret · 0) alike
    exact .of_closed fits.1 whole
      (.ret (Token.kind_of_mark isKeyword) optional (Token.kind_of_mark isSemicolon))
  | .block body =>
    obtain ⟨opening, others, rfl, isOpening, rendersOthers⟩ := List.map_eq_cons_iff.mp renders
    obtain ⟨inner, closing, rfl, rendersInner, isClosing⟩ := split_last rendersOthers
    obtain ⟨body', alike, derives⟩ := restoredAll_of_canonical body canonical fits.2 rendersInner
    have whole : (Stmt.block body').Alike (.block body) := congrArg Stmt.block alike
    exact .of_closed fits.1 whole
      (.block (Token.kind_of_mark isOpening) derives (Token.kind_of_mark isClosing))
  | .whileLoop condition body =>
    obtain ⟨canonicalCondition, plain, canonicalBody⟩ := canonical
    obtain ⟨room, enters, fitsBody⟩ := fits
    obtain ⟨keyword, opening, e, tokens, closing, others, rfl, isWhile, opens, alike, derives, closes,
      rendersBody⟩ :=
      split_condition canonicalCondition enters renders
    obtain ⟨s, tail, alike', dangles, derives'⟩ :=
      (restored_of_canonical body canonicalBody fitsBody rendersBody).statement plain
    have whole : (Stmt.whileLoop e s).Alike (.whileLoop condition body) := alike.whileLoop alike'
    exact .of_unnested room whole dangles
      (.whileLoop isWhile opens derives closes derives')
  | .ifElse condition thenBranch none =>
    obtain ⟨canonicalCondition, plain, canonicalThen⟩ := canonical
    obtain ⟨room, enters, fitsThen⟩ := fits
    obtain ⟨keyword, opening, e, tokens, closing, others, rfl, isIf, opens, alike, derives, closes,
      rendersThen⟩ :=
      split_condition canonicalCondition enters renders
    obtain ⟨s, tail, alike', -, derives'⟩ :=
      (restored_of_canonical thenBranch canonicalThen fitsThen rendersThen).statement plain
    have whole : (Stmt.ifElse e s none).Alike (.ifElse condition thenBranch none) := alike.ifThen alike'
    exact .of_unnested room whole (fun _ => trivial)
      (.ifThen isIf opens derives closes derives')
  | .ifElse condition thenBranch (some elseBranch) =>
    obtain ⟨canonicalCondition, ⟨plain, canonicalThen⟩, closed, plainElse, canonicalElse⟩ := canonical
    obtain ⟨room, enters, fitsThen, fitsElse⟩ := fits
    obtain ⟨keyword, opening, e, tokens, closing, others, rfl, isIf, opens, alike, derives, closes,
      rendersOthers⟩ :=
      split_condition canonicalCondition enters renders
    obtain ⟨body, otherwise, body', rfl, rendersThen, isElse, rendersElse⟩ := split_marks rendersOthers
    obtain ⟨s, tail, alikeThen, dangles, derivesThen⟩ :=
      (restored_of_canonical thenBranch canonicalThen fitsThen rendersThen).statement plain
    obtain ⟨s', tail', alikeElse, danglesElse, derivesElse⟩ :=
      (restored_of_canonical elseBranch canonicalElse fitsElse rendersElse).statement plainElse
    obtain rfl : tail = .closed := by
      cases tail with
      | closed => rfl
      | dangling => exact absurd (dangles rfl) closed
    have whole : (Stmt.ifElse e s (some s')).Alike (.ifElse condition thenBranch (some elseBranch)) :=
      alike.ifElse alikeThen alikeElse
    exact .of_unnested room whole danglesElse
      (.ifElse isIf opens derives closes derivesThen (Token.kind_of_mark isElse) derivesElse)
  | .varDecl name initializer line =>
    obtain ⟨keyword, others, rfl, isVar, rendersOthers⟩ := List.map_eq_cons_iff.mp renders
    obtain ⟨named, others, rfl, isName, rendersOthers⟩ := List.map_eq_cons_iff.mp rendersOthers
    obtain ⟨inner, semicolon, rfl, rendersInner, isSemicolon⟩ := split_last rendersOthers
    obtain rfl : name = named.lexeme := Option.some.inj (Token.lexeme_of_mark isName rfl)
    cases initializer with
    | none =>
      obtain rfl := List.map_eq_nil_iff.mp rendersInner
      have whole : (Stmt.varDecl named.lexeme none named.position.line).Alike
          (.varDecl named.lexeme none line) := rfl
      exact .of_declaration whole trivial
        (.varDeclaration (.uninitialized (Token.kind_of_mark isVar) (Token.kind_of_mark isName)
          (Token.kind_of_mark isSemicolon)))
    | some e =>
      obtain ⟨sign, others, rfl, isSign, rendersValue⟩ := List.map_eq_cons_iff.mp rendersInner
      obtain ⟨e', alike, derives⟩ := expression_of_canonical canonical fits rendersValue
      have whole : (Stmt.varDecl named.lexeme (some e') named.position.line).Alike
          (.varDecl named.lexeme (some e) line) :=
        congrArg (fun e => Stmt.varDecl named.lexeme (some e) 0) alike
      exact .of_declaration whole trivial
        (.varDeclaration (.initialized (Token.kind_of_mark isVar) (Token.kind_of_mark isName)
          (Token.kind_of_mark isSign) derives (Token.kind_of_mark isSemicolon)))
  | .funDecl function =>
    obtain ⟨keyword, others, rfl, isFun, rendersFunction⟩ := List.map_eq_cons_iff.mp renders
    obtain ⟨f, alike, derives⟩ := functionRestored_of_canonical function canonical fits rendersFunction
    have whole : (Stmt.funDecl f).Alike (.funDecl function) := congrArg Stmt.funDecl alike
    exact .of_declaration whole trivial (.funDeclaration (Token.kind_of_mark isFun) derives)
  | .classDecl name superclass methods line =>
    obtain ⟨keyword, others, rfl, isClass, rendersOthers⟩ := List.map_eq_cons_iff.mp renders
    obtain ⟨named, others, rfl, isName, rendersOthers⟩ := List.map_eq_cons_iff.mp rendersOthers
    obtain ⟨above, opening, others, rfl, rendersAbove, isOpening, rendersOthers⟩ :=
      split_marks rendersOthers
    obtain ⟨inner, closing, rfl, rendersInner, isClosing⟩ := split_last rendersOthers
    obtain rfl : name = named.lexeme := Option.some.inj (Token.lexeme_of_mark isName rfl)
    obtain ⟨fs, alike, derives⟩ := methodsRestored_of_canonical methods canonical fits rendersInner
    have isSuperclass : Superclass superclass above := by
      cases superclass with
      | none =>
        obtain rfl := List.map_eq_nil_iff.mp rendersAbove
        exact .none
      | some text =>
        obtain ⟨less, others, rfl, isLess, rendersOthers⟩ := List.map_eq_cons_iff.mp rendersAbove
        obtain ⟨parent, rfl, isParent⟩ := List.map_eq_singleton_iff.mp rendersOthers
        obtain rfl : text = parent.lexeme := Option.some.inj (Token.lexeme_of_mark isParent rfl)
        exact .some (Token.kind_of_mark isLess) (Token.kind_of_mark isParent)
    have whole : (Stmt.classDecl named.lexeme superclass fs named.position.line).Alike
        (.classDecl named.lexeme superclass methods line) :=
      congrArg (Stmt.classDecl named.lexeme superclass · 0) alike
    exact .of_declaration whole trivial
      (.classDeclaration (Token.kind_of_mark isClass) (Token.kind_of_mark isName) isSuperclass
        (Token.kind_of_mark isOpening) derives (Token.kind_of_mark isClosing))

theorem restoredAll_of_canonical {limit depth : Nat} {tokens : List Token} (ss : List Stmt)
    (canonical : CanonicalAll ss) (fits : FitsAll limit depth ss)
    (renders : tokens.map Token.mark = renderingAll ss) :
    ∃ ss', AlikeAll ss' ss ∧ Derives limit depth (.body ss') tokens := by
  match ss with
  | [] =>
    obtain rfl := List.map_eq_nil_iff.mp renders
    exact ⟨[], rfl, .empty⟩
  | s :: ss =>
    obtain ⟨first, others, rfl, rendersFirst, rendersOthers⟩ := List.map_eq_append_iff.mp renders
    obtain ⟨s', tail, alike, -, derives, -⟩ := restored_of_canonical s canonical.1 fits.1 rendersFirst
    obtain ⟨ss', alike', derives'⟩ := restoredAll_of_canonical ss canonical.2 fits.2 rendersOthers
    exact ⟨s' :: ss', alike.cons alike', .item derives derives'⟩

theorem functionRestored_of_canonical {limit depth : Nat} {tokens : List Token} (f : Function)
    (canonical : FunctionCanonical f) (fits : FunctionFits limit depth f)
    (renders : tokens.map Token.mark = functionRendering f) :
    ∃ f', FunctionAlike f' f ∧ Derives limit depth (.function f') tokens := by
  obtain ⟨name, parameters, body, line⟩ := f
  obtain ⟨named, others, rfl, isName, rendersOthers⟩ := List.map_eq_cons_iff.mp renders
  obtain ⟨opening, others, rfl, isOpening, rendersOthers⟩ := List.map_eq_cons_iff.mp rendersOthers
  obtain ⟨first, closing, others, rfl, rendersParameters, isClosing, rendersOthers⟩ :=
    split_marks rendersOthers
  obtain ⟨brace, others, rfl, isBrace, rendersOthers⟩ := List.map_eq_cons_iff.mp rendersOthers
  obtain ⟨inner, close, rfl, rendersInner, isClose⟩ := split_last rendersOthers
  obtain rfl : name = named.lexeme := Option.some.inj (Token.lexeme_of_mark isName rfl)
  obtain ⟨ps, alikeParameters, isParameters⟩ := parameters_of_rendering parameters rendersParameters
  obtain ⟨ss, alike, derives⟩ := restoredAll_of_canonical body canonical fits rendersInner
  refine ⟨⟨named.lexeme, ps, ss, named.position.line⟩, ?_, .function (Token.kind_of_mark isName)
    (Token.kind_of_mark isOpening) isParameters (Token.kind_of_mark isClosing)
    (Token.kind_of_mark isBrace) derives (Token.kind_of_mark isClose)⟩
  unfold AlikeAll at alike
  rw [FunctionAlike, functionMapLines, functionMapLines, alikeParameters, alike]

theorem methodsRestored_of_canonical {limit depth : Nat} {tokens : List Token} (fs : List Function)
    (canonical : MethodsCanonical fs) (fits : MethodsFit limit depth fs)
    (renders : tokens.map Token.mark = methodsRendering fs) :
    ∃ fs', MethodsAlike fs' fs ∧ Derives limit depth (.methods fs') tokens := by
  match fs with
  | [] =>
    obtain rfl := List.map_eq_nil_iff.mp renders
    exact ⟨[], rfl, .noMethods⟩
  | f :: fs =>
    obtain ⟨first, others, rfl, rendersFirst, rendersOthers⟩ := List.map_eq_append_iff.mp renders
    obtain ⟨f', alike, derives⟩ := functionRestored_of_canonical f canonical.1 fits.1 rendersFirst
    obtain ⟨fs', alike', derives'⟩ := methodsRestored_of_canonical fs canonical.2 fits.2 rendersOthers
    exact ⟨f' :: fs', alike.cons alike', .method derives derives'⟩

end

end Grammar

end LoxFrontEnd
