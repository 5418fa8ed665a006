import LoxFrontEnd.Parse.Error
import LoxFrontEnd.Proofs.Grammar.Expression

/-!
The grammar of statements, declarations and programs. It is made unambiguous by a mark on statements
that end in an `if` without `else`: such a statement is no branch in front of an `else`, so that an
`else` belongs to the nearest `if` that can take it.
-/

namespace LoxFrontEnd

namespace Grammar

/-- Whether a statement ends in an `if` that could still take an `else`. -/
inductive Tail where
  | dangling | closed
  deriving DecidableEq

inductive OptionalExpr (limit depth : Nat) : Option Expr → List Token → Prop
  | none : OptionalExpr limit depth none []
  | some {e tokens} : DerivesExpr limit depth (.expression e) tokens →
      OptionalExpr limit depth (some e) tokens

/-- Parameters with commas between them. -/
inductive Parameters : List Parameter → List Token → Prop
  | none : Parameters [] []
  | last {name} : name.kind = .identifier → Parameters [⟨name.lexeme, name.position.line⟩] [name]
  | more {name comma : Token} {p ps others} : name.kind = .identifier → comma.kind = .comma →
      Parameters (p :: ps) others →
      Parameters (⟨name.lexeme, name.position.line⟩ :: p :: ps) (name :: comma :: others)

inductive Superclass : Option String → List Token → Prop
  | none : Superclass none []
  | some {less name} : less.kind = .less → name.kind = .identifier →
      Superclass (some name.lexeme) [less, name]

/-- The body of a loop with its increment, which comes last in every turn. -/
def turn (body : Stmt) : Option Expr → Stmt
  | none => body
  | some increment => .block [body, .expr increment]

/-- A `for` loop is a `while` loop in a block of its own. Without a condition it goes on for ever. -/
def forTree (initializer : Option Stmt) (condition : Option Expr) (turn : Stmt) : Stmt :=
  .block (initializer.toList ++ [.whileLoop (condition.getD (.literal (.bool true))) turn])

/-- The parts that programs are made of. -/
inductive Phrase where
  | declaration (tail : Tail) (s : Stmt)
  /-- A statement, which takes a level of its own. -/
  | statement (tail : Tail) (s : Stmt)
  /-- A statement at the level that has been taken for it. -/
  | unnested (tail : Tail) (s : Stmt)
  | varDecl (s : Stmt)
  /-- The first clause of a `for` loop, with its semicolon. -/
  | initializer (s : Option Stmt)
  | function (f : Function)
  | methods (fs : List Function)
  | body (ss : List Stmt)

/-- `Derives limit depth phrase tokens`: the tokens are a phrase at this depth, and no part of it is
nested deeper than the limit. Bodies of functions and classes stand at the depth of their declaration. -/
inductive Derives (limit : Nat) : Nat → Phrase → List Token → Prop
  | varDeclaration {depth s tokens} : Derives limit depth (.varDecl s) tokens →
      Derives limit depth (.declaration .closed s) tokens
  | funDeclaration {depth keyword f tokens} : keyword.kind = .kwFun →
      Derives limit depth (.function f) tokens →
      Derives limit depth (.declaration .closed (.funDecl f)) (keyword :: tokens)
  | classDeclaration {depth keyword name superclass above opening fs tokens closing} :
      keyword.kind = .kwClass → name.kind = .identifier → Superclass superclass above →
      opening.kind = .leftBrace → Derives limit depth (.methods fs) tokens →
      closing.kind = .rightBrace →
      Derives limit depth
        (.declaration .closed (.classDecl name.lexeme superclass fs name.position.line))
        (keyword :: name :: (above ++ opening :: (tokens ++ [closing])))
  | plain {depth tail s tokens} : Derives limit depth (.statement tail s) tokens →
      Derives limit depth (.declaration tail s) tokens
  | nested {depth tail s tokens} : depth < limit →
      Derives limit (depth + 1) (.unnested tail s) tokens →
      Derives limit depth (.statement tail s) tokens
  | expr {depth e tokens semicolon} : DerivesExpr limit depth (.expression e) tokens →
      semicolon.kind = .semicolon →
      Derives limit depth (.unnested .closed (.expr e)) (tokens ++ [semicolon])
  | print {depth keyword e tokens semicolon} : keyword.kind = .kwPrint →
      DerivesExpr limit depth (.expression e) tokens → semicolon.kind = .semicolon →
      Derives limit depth (.unnested .closed (.print e)) (keyword :: (tokens ++ [semicolon]))
  | ret {depth keyword value tokens semicolon} : keyword.kind = .kwReturn →
      OptionalExpr limit depth value tokens → semicolon.kind = .semicolon →
      Derives limit depth (.unnested .closed (.ret value keyword.position.line))
        (keyword :: (tokens ++ [semicolon]))
  | block {depth opening ss tokens closing} : opening.kind = .leftBrace →
      Derives limit depth (.body ss) tokens → closing.kind = .rightBrace →
      Derives limit depth (.unnested .closed (.block ss)) (opening :: (tokens ++ [closing]))
  | whileLoop {depth tail keyword opening e condition closing s body} : keyword.kind = .kwWhile →
      opening.kind = .leftParen → DerivesExpr limit depth (.expression e) condition →
      closing.kind = .rightParen → Derives limit depth (.statement tail s) body →
      Derives limit depth (.unnested tail (.whileLoop e s))
        (keyword :: opening :: (condition ++ closing :: body))
  | ifThen {depth tail keyword opening e condition closing s body} : keyword.kind = .kwIf →
      opening.kind = .leftParen → DerivesExpr limit depth (.expression e) condition →
      closing.kind = .rightParen → Derives limit depth (.statement tail s) body →
      Derives limit depth (.unnested .dangling (.ifElse e s none))
        (keyword :: opening :: (condition ++ closing :: body))
  | ifElse {depth tail keyword opening e condition closing s body otherwise s' body'} :
      keyword.kind = .kwIf → opening.kind = .leftParen →
      DerivesExpr limit depth (.expression e) condition → closing.kind = .rightParen →
      Derives limit depth (.statement .closed s) body → otherwise.kind = .kwElse →
      Derives limit depth (.statement tail s') body' →
      Derives limit depth (.unnested tail (.ifElse e s (some s')))
        (keyword :: opening :: (condition ++ closing :: (body ++ otherwise :: body')))
  | forLoop {depth tail keyword opening start initializer o condition semicolon o' increment
      closing s body} :
      keyword.kind = .kwFor → opening.kind = .leftParen →
      Derives limit depth (.initializer start) initializer → OptionalExpr limit depth o condition →
      semicolon.kind = .semicolon → OptionalExpr limit depth o' increment →
      closing.kind = .rightParen → Derives limit depth (.statement tail s) body →
      Derives limit depth (.unnested tail (forTree start o (turn s o')))
        (keyword :: opening ::
          (initializer ++ (condition ++ semicolon :: (increment ++ closing :: body))))
  | uninitialized {depth keyword name semicolon} : keyword.kind = .kwVar → name.kind = .identifier →
      semicolon.kind = .semicolon →
      Derives limit depth (.varDecl (.varDecl name.lexeme none name.position.line))
        [keyword, name, semicolon]
  | initialized {depth keyword name sign e tokens semicolon} : keyword.kind = .kwVar →
      name.kind = .identifier → sign.kind = .equal →
      DerivesExpr limit depth (.expression e) tokens → semicolon.kind = .semicolon →
      Derives limit depth (.varDecl (.varDecl name.lexeme (some e) name.position.line))
        (keyword :: name :: sign :: (tokens ++ [semicolon]))
  | noInitializer {depth semicolon} : semicolon.kind = .semicolon →
      Derives limit depth (.initializer none) [semicolon]
  | varInitializer {depth s tokens} : Derives limit depth (.varDecl s) tokens →
      Derives limit depth (.initializer (some s)) tokens
  | exprInitializer {depth e tokens semicolon} : DerivesExpr limit depth (.expression e) tokens →
      semicolon.kind = .semicolon →
      Derives limit depth (.initializer (some (.expr e))) (tokens ++ [semicolon])
  | function {depth name opening ps parameters closing brace ss tokens close} :
      name.kind = .identifier → opening.kind = .leftParen → Parameters ps parameters →
      closing.kind = .rightParen → brace.kind = .leftBrace → Derives limit depth (.body ss) tokens →
      close.kind = .rightBrace →
      Derives limit depth (.function ⟨name.lexeme, ps, ss, name.position.line⟩)
        (name :: opening :: (parameters ++ closing :: brace :: (tokens ++ [close])))
  | noMethods {depth} : Derives limit depth (.methods []) []
  | method {depth f fs first others} : Derives limit depth (.function f) first →
      Derives limit depth (.methods fs) others →
      Derives limit depth (.methods (f :: fs)) (first ++ others)
  | empty {depth} : Derives limit depth (.body []) []
  | item {depth tail s ss first others} : Derives limit depth (.declaration tail s) first →
      Derives limit depth (.body ss) others →
      Derives limit depth (.body (s :: ss)) (first ++ others)

/-- The tokens of a program, without the end mark. -/
def DerivesProgram (tokens : List Token) (p : Program) : Prop :=
  Derives maxNesting 0 (.body p.declarations) tokens

theorem OptionalExpr.roomier {limit limit' depth depth' : Nat} {o : Option Expr} {tokens : List Token}
    (optional : OptionalExpr limit depth o tokens) (room : depth' + limit ≤ depth + limit') :
    OptionalExpr limit' depth' o tokens := by
  cases optional with
  | none => exact .none
  | some derives => exact .some (derives.roomier room)

/-- A phrase stands where it has as many levels below it, or more. -/
theorem Derives.roomier {limit limit' depth depth' : Nat} {phrase : Phrase} {tokens : List Token}
    (derives : Derives limit depth phrase tokens) (room : depth' + limit ≤ depth + limit') :
    Derives limit' depth' phrase tokens := by
  induction derives generalizing depth' with
  | varDeclaration _ ih => exact .varDeclaration (ih room)
  | funDeclaration isFun _ ih => exact .funDeclaration isFun (ih room)
  | classDeclaration isClass isName inherits opens _ closes ih =>
    exact .classDeclaration isClass isName inherits opens (ih room) closes
  | plain _ ih => exact .plain (ih room)
  | nested deeper _ ih => exact .nested (by omega) (ih (by omega))
  | expr derives isSemicolon => exact .expr (derives.roomier room) isSemicolon
  | print isPrint derives isSemicolon => exact .print isPrint (derives.roomier room) isSemicolon
  | ret isReturn optional isSemicolon => exact .ret isReturn (optional.roomier room) isSemicolon
  | block opens _ closes ih => exact .block opens (ih room) closes
  | whileLoop isWhile opens derives closes _ ih =>
    exact .whileLoop isWhile opens (derives.roomier room) closes (ih room)
  | ifThen isIf opens derives closes _ ih =>
    exact .ifThen isIf opens (derives.roomier room) closes (ih room)
  | ifElse isIf opens derives closes _ isElse _ ih ihElse =>
    exact .ifElse isIf opens (derives.roomier room) closes (ih room) isElse (ihElse room)
  | forLoop isFor opens _ optional isSemicolon optional' closes _ ihStart ih =>
    exact .forLoop isFor opens (ihStart room) (optional.roomier room) isSemicolon
      (optional'.roomier room) closes (ih room)
  | uninitialized isVar isName isSemicolon => exact .uninitialized isVar isName isSemicolon
  | initialized isVar isName isEqual derives isSemicolon =>
    exact .initialized isVar isName isEqual (derives.roomier room) isSemicolon
  | noInitializer isSemicolon => exact .noInitializer isSemicolon
  | varInitializer _ ih => exact .varInitializer (ih room)
  | exprInitializer derives isSemicolon => exact .exprInitializer (derives.roomier room) isSemicolon
  | function isName opens parameters closes isBrace _ isClose ih =>
    exact .function isName opens parameters closes isBrace (ih room) isClose
  | noMethods => exact .noMethods
  | method _ _ ih ihOthers => exact .method (ih room) (ihOthers room)
  | empty => exact .empty
  | item _ _ ih ihOthers => exact .item (ih room) (ihOthers room)

/-- The kinds of tokens that a statement begins with. -/
def startsStmt (kind : TokenKind) : Bool :=
  startsExpr kind || match kind with
    | .kwFor | .kwIf | .kwWhile | .kwReturn | .kwPrint | .leftBrace => true
    | _ => false

def startsDeclaration (kind : TokenKind) : Bool :=
  startsStmt kind || match kind with
    | .kwVar | .kwFun | .kwClass => true
    | _ => false

theorem startsStmt_of_startsExpr {kind : TokenKind} (starts : startsExpr kind = true) :
    startsStmt kind = true := by
  simp only [startsStmt, starts, Bool.true_or]

theorem startsDeclaration_of_startsStmt {kind : TokenKind} (starts : startsStmt kind = true) :
    startsDeclaration kind = true := by
  simp only [startsDeclaration, starts, Bool.true_or]

/-- The kinds of tokens that a phrase begins with, if it has any. -/
def Phrase.Opens : Phrase → TokenKind → Prop
  | .declaration .., kind | .body _, kind => startsDeclaration kind = true
  | .statement .., kind | .unnested .., kind => startsStmt kind = true
  | .varDecl _, kind => kind = .kwVar
  | .initializer _, kind => kind = .semicolon ∨ kind = .kwVar ∨ startsExpr kind = true
  | .function _, kind | .methods _, kind => kind = .identifier

/-- Lists of items may be empty. -/
def Phrase.IsList : Phrase → Prop
  | .methods _ | .body _ => True
  | _ => False

/-- Every phrase has a first token, but for an empty list. -/
theorem Derives.opens {limit depth : Nat} {phrase : Phrase} {tokens : List Token}
    (derives : Derives limit depth phrase tokens) :
    (tokens = [] ∧ phrase.IsList) ∨
      ∃ token others, tokens = token :: others ∧ phrase.Opens token.kind := by
  induction derives with
  | varDeclaration _ ih =>
    obtain ⟨token, others, rfl, opens⟩ := ih.resolve_left (fun none => none.2)
    exact Or.inr ⟨token, others, rfl, by rw [opens]; rfl⟩
  | plain _ ih =>
    obtain ⟨token, others, rfl, opens⟩ := ih.resolve_left (fun none => none.2)
    exact Or.inr ⟨token, others, rfl, startsDeclaration_of_startsStmt opens⟩
  | nested _ _ ih => exact ih
  | expr expr =>
    obtain ⟨token, others, rfl, opens⟩ := expr.opens nofun
    exact Or.inr ⟨token, _, rfl, startsStmt_of_startsExpr opens⟩
  | varInitializer _ ih =>
    obtain ⟨token, others, rfl, opens⟩ := ih.resolve_left (fun none => none.2)
    exact Or.inr ⟨token, others, rfl, Or.inr (Or.inl opens)⟩
  | exprInitializer expr =>
    obtain ⟨token, others, rfl, opens⟩ := expr.opens nofun
    exact Or.inr ⟨token, _, rfl, Or.inr (Or.inr opens)⟩
  | method _ _ ih | item _ _ ih =>
    obtain ⟨token, others, rfl, opens⟩ := ih.resolve_left (fun none => none.2)
    exact Or.inr ⟨token, _, rfl, opens⟩
  | noMethods | empty => exact Or.inl ⟨rfl, trivial⟩
  | noInitializer semicolon => exact Or.inr ⟨_, _, rfl, Or.inl semicolon⟩
  | uninitialized keyword | initialized keyword | function keyword =>
    exact Or.inr ⟨_, _, rfl, keyword⟩
  | funDeclaration keyword | classDeclaration keyword | print keyword | ret keyword | block keyword
  | whileLoop keyword | ifThen keyword | ifElse keyword | forLoop keyword =>
    exact Or.inr ⟨_, _, rfl, by rw [keyword]; rfl⟩

theorem OptionalExpr.kind_ne_eof {limit depth : Nat} {o : Option Expr} {tokens : List Token}
    (optional : OptionalExpr limit depth o tokens) : ∀ token ∈ tokens, token.kind ≠ .eof := by
  cases optional with
  | none => exact fun _ member => absurd member List.not_mem_nil
  | some derives => exact derives.kind_ne_eof

theorem Parameters.kind_ne_eof {ps : List Parameter} {tokens : List Token}
    (parameters : Parameters ps tokens) : ∀ token ∈ tokens, token.kind ≠ .eof := by
  induction parameters <;> grind

/-- No phrase has an end mark in it. -/
theorem Derives.kind_ne_eof {limit depth : Nat} {phrase : Phrase} {tokens : List Token}
    (derives : Derives limit depth phrase tokens) : ∀ token ∈ tokens, token.kind ≠ .eof := by
  induction derives with
  | classDeclaration _ _ superclass => cases superclass <;> grind
  | expr expr | exprInitializer expr => grind [expr.kind_ne_eof]
  | print _ expr => grind [expr.kind_ne_eof]
  | ret _ value => grind [value.kind_ne_eof]
  | whileLoop _ _ expr | ifThen _ _ expr | ifElse _ _ expr => grind [expr.kind_ne_eof]
  | forLoop _ _ _ condition _ increment => grind [condition.kind_ne_eof, increment.kind_ne_eof]
  | initialized _ _ _ expr => grind [expr.kind_ne_eof]
  | function _ _ parameters => grind [parameters.kind_ne_eof]
  | _ => grind

end Grammar

end LoxFrontEnd
