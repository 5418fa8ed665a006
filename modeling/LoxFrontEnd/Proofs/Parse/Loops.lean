import LoxFrontEnd.Proofs.Parse.StatementLevels

/-!
A `for` loop means the `while` loop that is written out for it. Its clauses and its body are read
alike in both forms, since nothing behind the mark that ends a clause plays a part in how it is read.
The written-out form is nested deeper by up to three levels, and may be refused for that.
-/

namespace LoxFrontEnd

open Grammar Parse

/-- The tokens of a `for` loop. The first clause has its semicolon, the others may be empty. -/
structure Clauses where
  initial : List Token
  condition : List Token
  increment : List Token
  body : List Token

/-- The tokens around the clauses of a `for` loop. -/
structure ForMarks where
  keyword : Token
  opening : Token
  semicolon : Token
  closing : Token
  isFor : keyword.kind = .kwFor
  opens : opening.kind = .leftParen
  isSemicolon : semicolon.kind = .semicolon
  closes : closing.kind = .rightParen

/-- The tokens around the same clauses, where the loop is written out: braces around all of it, then
those of the `while` loop, and those of the body with its increment. -/
structure WhileMarks where
  brace : Token
  keyword : Token
  opening : Token
  truth : Token
  closing : Token
  brace' : Token
  semicolon : Token
  close' : Token
  close : Token
  isBrace : brace.kind = .leftBrace
  isWhile : keyword.kind = .kwWhile
  opens : opening.kind = .leftParen
  isTruth : truth.kind = .bool true
  closes : closing.kind = .rightParen
  isBrace' : brace'.kind = .leftBrace
  isSemicolon : semicolon.kind = .semicolon
  isClose' : close'.kind = .rightBrace
  isClose : close.kind = .rightBrace

namespace Clauses

/-- `for ( initial condition ; increment ) body` -/
def forForm (c : Clauses) (m : ForMarks) : List Token :=
  m.keyword :: m.opening ::
    (c.initial ++ (c.condition ++ m.semicolon :: (c.increment ++ m.closing :: c.body)))

/-- The first clause, without the semicolon of one that is empty. -/
def initialForm (c : Clauses) : List Token :=
  match c.initial with
  | [_] => []
  | initial => initial

/-- The condition, or `true` for one that is empty. -/
def conditionForm (c : Clauses) (m : WhileMarks) : List Token :=
  match c.condition with
  | [] => [m.truth]
  | condition => condition

/-- The body, in braces with the increment behind it if there is one. -/
def turnForm (c : Clauses) (m : WhileMarks) : List Token :=
  match c.increment with
  | [] => c.body
  | increment => m.brace' :: (c.body ++ (increment ++ [m.semicolon]) ++ [m.close'])

/-- `{ initial while ( condition ) { body increment ; } }` -/
def whileForm (c : Clauses) (m : WhileMarks) : List Token :=
  m.brace ::
    (c.initialForm ++ (m.keyword :: m.opening :: (c.conditionForm m ++ m.closing :: c.turnForm m)) ++
      [m.close])

/-- Each clause is one, however deep it is nested, and there is no end mark in the body. -/
structure WellFormed (c : Clauses) : Prop where
  initial : ∃ limit o, Derives limit 0 (.initializer o) c.initial
  condition : ∃ limit o, OptionalExpr limit 0 o c.condition
  increment : ∃ limit o, OptionalExpr limit 0 o c.increment
  body : ∀ token ∈ c.body, token.kind ≠ .eof

/-- What the clauses and the body are at some depth. -/
structure Means (limit depth : Nat) (c : Clauses) (start : Option Stmt) (o o' : Option Expr)
    (tail : Tail) (s : Stmt) :
    Prop where
  initial : Derives limit depth (.initializer start) c.initial
  condition : OptionalExpr limit depth o c.condition
  increment : OptionalExpr limit depth o' c.increment
  body : Derives limit depth (.statement tail s) c.body

end Clauses

namespace Grammar

variable {limit limit' depth depth' : Nat} {first first' rest rest' : List Token}

/-- What stands behind the first clause of a loop plays no part in where it ends. -/
theorem Derives.initializer_unique {o o' : Option Stmt}
    (derives : Derives limit depth (.initializer o) first)
    (derives' : Derives limit' depth' (.initializer o') first') (same : first ++ rest = first' ++ rest') :
    first = first' ∧ rest = rest' := by
  have higher : Derives (limit + limit') 0 (.initializer o) first := derives.roomier (by omega)
  have higher' : Derives (limit + limit') 0 (.initializer o') first' := derives'.roomier (by omega)
  have read := completeStmt_of_derives higher _ (Nat.zero_add _) rest .start
  have read' := completeStmt_of_derives higher' _ (Nat.zero_add _) rest' .start
  exact read.unique read' same

/-- Nor does what stands behind the mark that ends another clause. -/
theorem OptionalExpr.unique {o o' : Option Expr} {mark mark' : Token} {kind : TokenKind}
    (optional : OptionalExpr limit depth o first) (optional' : OptionalExpr limit' depth' o' first')
    (isMark : mark.kind = kind) (isMark' : mark'.kind = kind) (unranked : kind.rank? = Option.none)
    (starts : startsExpr kind = false) (same : first ++ mark :: rest = first' ++ mark' :: rest') :
    first = first' ∧ rest = rest' := by
  have higher : OptionalExpr (limit + limit') 0 o first := optional.roomier (by omega)
  have higher' : OptionalExpr (limit + limit') 0 o' first' := optional'.roomier (by omega)
  have read : Spans _ .start first o (mark :: rest) :=
    reads_optional (Nat.zero_add _) higher isMark unranked starts
  have read' : Spans _ .start first' o' (mark' :: rest') :=
    reads_optional (Nat.zero_add _) higher' isMark' unranked starts
  obtain ⟨rfl, behind⟩ := read.unique read' same
  exact ⟨rfl, (List.cons.inj behind).2⟩

end Grammar

namespace Clauses

variable {c : Clauses} {limit depth : Nat}

theorem WellFormed.endless (wellFormed : c.WellFormed) (m : ForMarks) :
    ∀ token ∈ c.forForm m, token.kind ≠ .eof := by
  obtain ⟨⟨_, _, initial⟩, ⟨_, _, condition⟩, ⟨_, _, increment⟩, body⟩ := wellFormed
  have isInitial := initial.kind_ne_eof
  have isCondition := condition.kind_ne_eof
  have isIncrement := increment.kind_ne_eof
  obtain ⟨keyword, opening, semicolon, closing, isFor, opens, isSemicolon, closes⟩ := m
  simp only [forForm]
  grind

/-- A `for` loop as a declaration is made of its clauses. No other statement begins with its keyword. -/
theorem means_of_forForm (wellFormed : c.WellFormed) (m : ForMarks) {tail : Tail} {s : Stmt}
    (derives : Derives limit depth (.declaration tail s) (c.forForm m)) :
    ∃ start o o' tail' body, c.Means limit (depth + 1) start o o' tail' body ∧
      s = forTree start o (turn body o') := by
  generalize isForm : c.forForm m = tokens at derives
  have front : ∃ others, tokens = m.keyword :: others := ⟨_, isForm.symm⟩
  have other {keyword : Token} {others : List Token} {kind : TokenKind} (isKind : keyword.kind = kind)
      (same : tokens = keyword :: others) (ne : kind ≠ .kwFor) : False := by
    obtain ⟨others', same'⟩ := front
    obtain ⟨rfl, -⟩ := List.cons.inj (same.symm.trans same')
    exact ne (isKind.symm.trans m.isFor)
  cases derives with
  | varDeclaration declared =>
    obtain ⟨token, others, same, opens⟩ := declared.opens.resolve_left fun none => none.2
    exact (other opens same nofun).elim
  | funDeclaration isFun => exact (other isFun rfl nofun).elim
  | classDeclaration isClass => exact (other isClass rfl nofun).elim
  | plain plain =>
    cases plain with
    | nested _ unnested =>
      cases unnested with
      | expr derives =>
        obtain ⟨token, others, rfl, opens⟩ := derives.opens nofun
        exact (other rfl rfl (kind_ne_of_starts opens rfl)).elim
      | print isPrint => exact (other isPrint rfl nofun).elim
      | ret isReturn => exact (other isReturn rfl nofun).elim
      | block opens => exact (other opens rfl nofun).elim
      | whileLoop isWhile => exact (other isWhile rfl nofun).elim
      | ifThen isIf => exact (other isIf rfl nofun).elim
      | ifElse isIf => exact (other isIf rfl nofun).elim
      | forLoop _ _ start condition isSemicolon increment closes body =>
        obtain ⟨⟨_, _, isInitial⟩, ⟨_, _, isCondition⟩, ⟨_, _, isIncrement⟩, -⟩ := wellFormed
        have clauses := (List.cons.inj (List.cons.inj isForm).2).2
        obtain ⟨rfl, afterInitial⟩ := isInitial.initializer_unique start clauses
        obtain ⟨rfl, afterCondition⟩ :=
          isCondition.unique condition m.isSemicolon isSemicolon rfl rfl afterInitial
        obtain ⟨rfl, rfl⟩ := isIncrement.unique increment m.closes closes rfl rfl afterCondition
        exact ⟨_, _, _, _, _, ⟨start, condition, increment, body⟩, rfl⟩

section Written

variable {start : Option Stmt} {o o' : Option Expr} {tail : Tail} {s : Stmt} (m : WhileMarks)

theorem Means.roomier {limit' depth' : Nat} (means : c.Means limit depth start o o' tail s)
    (room : depth' + limit ≤ depth + limit') : c.Means limit' depth' start o o' tail s where
  initial := means.initial.roomier room
  condition := means.condition.roomier room
  increment := means.increment.roomier room
  body := means.body.roomier room

/-- The first clause is a declaration, or nothing. -/
theorem derives_initialForm (means : c.Means limit (depth + 1) start o o' tail s) (room : depth < limit)
    {ss : List Stmt} {others : List Token} (behind : Derives limit depth (.body ss) others) :
    Derives limit depth (.body (start.toList ++ ss)) (c.initialForm ++ others) := by
  have clause := means.initial
  rw [initialForm]
  generalize c.initial = initial at clause
  cases clause with
  | noInitializer => exact behind
  | varInitializer declared =>
    have declaration :=
      Derives.varDeclaration (declared.roomier (by omega : depth + limit ≤ depth + 1 + limit))
    cases declared <;> exact .item declaration behind
  | @exprInitializer _ e tokens semicolon derives isSemicolon =>
    have declaration := Derives.plain (.nested room (.expr derives isSemicolon))
    obtain ⟨token, others, rfl, -⟩ := derives.opens nofun
    cases others <;> exact .item declaration behind

theorem derives_conditionForm (means : c.Means limit depth start o o' tail s) (room : depth < limit) :
    DerivesExpr limit depth (.expression (o.getD (.literal (.bool true)))) (c.conditionForm m) := by
  have clause := means.condition
  rw [conditionForm]
  generalize c.condition = condition at clause
  cases clause with
  | none =>
    have leaf : DerivesExpr limit (depth + 1) (.rung 9 (.literal (.bool true))) [m.truth] :=
      .leaf (.bool m.isTruth)
    exact .nested room (leaf.loosen_to (by decide))
  | some derives =>
    obtain ⟨token, others, rfl, -⟩ := derives.opens nofun
    exact derives

/-- One turn of the loop. The increment stands in a block that is a level of its own, and so is its
statement. -/
theorem derives_turnForm (means : c.Means limit (depth + 2) start o o' tail s) (room : depth + 1 < limit) :
    ∃ tail', Derives limit depth (.statement tail' (turn s o')) (c.turnForm m) := by
  have clause := means.increment
  rw [turnForm]
  generalize c.increment = increment at clause
  cases clause with
  | none => exact ⟨tail, means.body.roomier (by omega)⟩
  | @some e _ derives =>
    have last : Derives limit (depth + 1) (.declaration .closed (.expr e)) (increment ++ [m.semicolon]) :=
      .plain (.nested room (.expr derives m.isSemicolon))
    have first : Derives limit (depth + 1) (.declaration tail s) c.body :=
      .plain (means.body.roomier (by omega))
    have items :
        Derives limit (depth + 1) (.body [s, .expr e]) (c.body ++ (increment ++ [m.semicolon] ++ [])) :=
      .item first (.item last .empty)
    rw [List.append_nil] at items
    obtain ⟨token, others, rfl, -⟩ := derives.opens nofun
    exact ⟨.closed, .nested (by omega) (.block m.isBrace' items m.isClose')⟩

theorem derives_whileForm (means : c.Means limit depth start o o' tail s) :
    Derives (limit + 4) 0 (.declaration .closed (forTree start o (turn s o'))) (c.whileForm m) := by
  have within {depth' : Nat} (shallow : depth' ≤ 4) : c.Means (limit + 4) depth' start o o' tail s :=
    means.roomier (by omega)
  obtain ⟨tail', body⟩ := derives_turnForm m (within (Nat.le_refl 4)) (by omega)
  have condition := derives_conditionForm m (within (by decide : 2 ≤ 4)) (by omega)
  have loop := Derives.plain (.nested (by omega) (.whileLoop m.isWhile m.opens condition m.closes body))
  have items := derives_initialForm (within (by decide : 2 ≤ 4)) (by omega) (.item loop .empty)
  rw [List.append_nil] at items
  exact .plain (.nested (by omega) (.block m.isBrace items m.isClose))

end Written

end Clauses

namespace Session

/-- Where a `for` loop is answered, the loop written out is answered with the same tree, or with the
error for nesting that is too deep. -/
theorem for_as_while {c : Clauses} (wellFormed : c.WellFormed) (m : ForMarks) (m' : WhileMarks)
    {mark mark' : Token} (isMark : mark.kind = .eof) (isMark' : mark'.kind = .eof) {s : Stmt}
    (answer : (ofTokens (c.forForm m ++ [mark])).statement.result = .ok s) :
    (ofTokens (c.whileForm m' ++ [mark'])).statement.result = .ok s ∨
      TooDeep (ofTokens (c.whileForm m' ++ [mark'])).statement.result := by
  obtain ⟨rest, read, ends⟩ := single_ok_iff_reads.mp answer
  obtain ⟨taken, tail, front, derives, _⟩ := declaration_yields (Nat.zero_add maxNesting) _ _ _ read
  rw [eq_of_append_mark_eq (wellFormed.endless m) isMark derives.kind_ne_eof ends front] at derives
  obtain ⟨start, o, o', tail', body, means, rfl⟩ := Clauses.means_of_forForm wellFormed m derives
  exact statement_of_derives (Clauses.derives_whileForm m' means) isMark'

/-- Where there are levels enough for the braces, the loop written out is answered. -/
theorem whileForm_ok {c : Clauses} {limit depth : Nat} {start : Option Stmt} {o o' : Option Expr}
    {tail : Tail} {s : Stmt} (means : c.Means limit depth start o o' tail s)
    (room : limit + 4 ≤ maxNesting) (m' : WhileMarks) {mark' : Token} (isMark' : mark'.kind = .eof) :
    (ofTokens (c.whileForm m' ++ [mark'])).statement.result = .ok (forTree start o (turn s o')) := by
  have derives := (Clauses.derives_whileForm m' means).roomier (by omega : 0 + (limit + 4) ≤ 0 + maxNesting)
  have read := completeStmt_of_derives derives maxNesting (Nat.zero_add _) [mark'] .start nofun
  exact single_ok_iff_reads.mpr ⟨_, read, isMark'⟩

/-- `for (;; i) if (i) i;`, whose body could still take an `else`. -/
theorem for_as_while_if :
    let i : Token := ⟨.identifier, "i", ⟨1, 9⟩⟩
    let c : Clauses := ⟨[⟨.semicolon, ";", ⟨1, 6⟩⟩], [], [i],
      [⟨.kwIf, "if", ⟨1, 12⟩⟩, ⟨.leftParen, "(", ⟨1, 15⟩⟩, i, ⟨.rightParen, ")", ⟨1, 17⟩⟩, i,
        ⟨.semicolon, ";", ⟨1, 20⟩⟩]⟩
    let m : ForMarks := ⟨⟨.kwFor, "for", ⟨1, 1⟩⟩, ⟨.leftParen, "(", ⟨1, 5⟩⟩, ⟨.semicolon, ";", ⟨1, 7⟩⟩,
      ⟨.rightParen, ")", ⟨1, 10⟩⟩, rfl, rfl, rfl, rfl⟩
    let m' : WhileMarks :=
      ⟨⟨.leftBrace, "\x7b", .start⟩, ⟨.kwWhile, "while", .start⟩, ⟨.leftParen, "(", .start⟩,
        ⟨.bool true, "true", .start⟩, ⟨.rightParen, ")", .start⟩, ⟨.leftBrace, "\x7b", .start⟩,
        ⟨.semicolon, ";", .start⟩, ⟨.rightBrace, "\x7d", .start⟩, ⟨.rightBrace, "\x7d", .start⟩,
        rfl, rfl, rfl, rfl, rfl, rfl, rfl, rfl, rfl⟩
    let loop : Stmt := .whileLoop (.literal (.bool true))
      (.block [.ifElse (.var "i" 1) (.expr (.var "i" 1)) none, .expr (.var "i" 1)])
    (ofTokens (c.forForm m ++ [⟨.eof, "", .start⟩])).statement.result = .ok (.block [loop]) ∧
      (ofTokens (c.whileForm m' ++ [⟨.eof, "", .start⟩])).statement.result = .ok (.block [loop]) := by
  intro i c m m' loop
  have name (depth : Nat) (room : depth < 124) : DerivesExpr 124 depth (.expression (.var "i" 1)) [i] :=
    have leaf : DerivesExpr 124 (depth + 1) (.rung 9 (.var "i" 1)) [i] := .leaf (.name rfl)
    .nested room (leaf.loosen_to (by decide))
  have branch :
      Derives 124 2 (.statement .closed (.expr (.var "i" 1))) ([i] ++ [⟨.semicolon, ";", ⟨1, 20⟩⟩]) :=
    .nested (by decide) (.expr (name 3 (by decide)) rfl)
  have means : c.Means 124 1 none none (some (.var "i" 1)) .dangling
      (.ifElse (.var "i" 1) (.expr (.var "i" 1)) none) :=
    ⟨.noInitializer rfl, .none, .some (name 1 (by decide)),
      .nested (by decide) (.ifThen rfl rfl (name 2 (by decide)) rfl branch)⟩
  have wellFormed : c.WellFormed :=
    ⟨⟨124, none, .noInitializer rfl⟩, ⟨124, none, .none⟩, ⟨124, _, .some (name 0 (by decide))⟩,
      by simp [c, i]⟩
  have derives : Derives 124 0 (.declaration .dangling (.block [loop])) (c.forForm m) :=
    .plain (.nested (by decide) (.forLoop m.isFor m.opens means.initial means.condition m.isSemicolon
      means.increment m.closes means.body))
  have roomy : Derives maxNesting 0 (.declaration .dangling (.block [loop])) (c.forForm m) :=
    derives.roomier (by decide)
  have read := completeStmt_of_derives roomy maxNesting (Nat.zero_add _) [⟨.eof, "", .start⟩]
    .start fun _ => nofun
  have answer := single_ok_iff_reads.mpr ⟨_, read, rfl⟩
  have written :
      (ofTokens (c.whileForm m' ++ [⟨.eof, "", .start⟩])).statement.result = .ok (.block [loop]) :=
    whileForm_ok means (by decide) m' rfl
  refine ⟨answer, (for_as_while wellFormed m m' rfl rfl answer).resolve_right ?_⟩
  rintro ⟨found, position, deep⟩
  cases written.symm.trans deep

end Session

end LoxFrontEnd
