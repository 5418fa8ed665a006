import LoxFrontEnd.Proofs.Grammar.Statement

/-!
The grammar as productions: without trees, without a limit to nesting, and with any expression of rung 1
on the left of `=`. A list of symbols stands for what is still to come. The first token shows which
production a phrase goes on with; only an `else` could belong to more than one `if`.
-/

namespace LoxFrontEnd

namespace Grammar

/-- The rungs of the operators with two operands. -/
inductive Rung where
  | or | and | equality | comparison | sum | product

def Rung.level : Rung → Nat
  | .or => 1
  | .and => 2
  | .equality => 3
  | .comparison => 4
  | .sum => 5
  | .product => 6

/-- What stands in braces, one behind the other. -/
inductive Item where
  | declaration | method

/-- What stands in parentheses, with commas between. -/
inductive Element where
  | parameter | argument

/-- The names of phrases. -/
inductive Nonterminal where
  | items (item : Item)
  | declaration
  /-- Behind `var`. -/
  | varDecl
  | function
  | superclass
  | statement
  /-- The first clause of a `for` loop, with its semicolon. -/
  | initial
  | otherwise
  | optional
  | expression
  /-- A value behind `=`, if there is one. -/
  | assigned
  | rung (r : Rung)
  /-- Further operands of a rung, with their operators. -/
  | links (r : Rung)
  | unary
  | call
  | suffixes
  | primary
  | list (element : Element)
  /-- Further elements of a list, with their commas. -/
  | more (element : Element)

inductive Symbol where
  | mark (kind : TokenKind)
  /-- A token that is an expression on its own. -/
  | leaf
  /-- An operator in front of its operand. -/
  | sign
  | operator (r : Rung)
  | phrase (n : Nonterminal)

def Item.symbol : Item → Symbol
  | .declaration => .phrase .declaration
  | .method => .phrase .function

def Element.symbol : Element → Symbol
  | .parameter => .mark .identifier
  | .argument => .phrase .expression

/-- The operands of a rung. -/
def Rung.operand : Rung → Nonterminal
  | .or => .rung .and
  | .and => .rung .equality
  | .equality => .rung .comparison
  | .comparison => .rung .sum
  | .sum => .rung .product
  | .product => .unary

def productions : Nonterminal → List (List Symbol)
  | .items item => [[], [item.symbol, .phrase (.items item)]]
  | .declaration =>
    [[.mark .kwVar, .phrase .varDecl],
      [.mark .kwFun, .phrase .function],
      [.mark .kwClass, .mark .identifier, .phrase .superclass, .mark .leftBrace, .phrase (.items .method),
        .mark .rightBrace],
      [.phrase .statement]]
  | .varDecl => [[.mark .identifier, .phrase .assigned, .mark .semicolon]]
  | .function =>
    [[.mark .identifier, .mark .leftParen, .phrase (.list .parameter), .mark .rightParen, .mark .leftBrace,
      .phrase (.items .declaration), .mark .rightBrace]]
  | .superclass => [[], [.mark .less, .mark .identifier]]
  | .statement =>
    [[.mark .kwFor, .mark .leftParen, .phrase .initial, .phrase .optional, .mark .semicolon,
        .phrase .optional, .mark .rightParen, .phrase .statement],
      [.mark .kwIf, .mark .leftParen, .phrase .expression, .mark .rightParen, .phrase .statement,
        .phrase .otherwise],
      [.mark .kwWhile, .mark .leftParen, .phrase .expression, .mark .rightParen, .phrase .statement],
      [.mark .kwReturn, .phrase .optional, .mark .semicolon],
      [.mark .leftBrace, .phrase (.items .declaration), .mark .rightBrace],
      [.mark .kwPrint, .phrase .expression, .mark .semicolon],
      [.phrase .expression, .mark .semicolon]]
  | .initial =>
    [[.mark .semicolon], [.mark .kwVar, .phrase .varDecl], [.phrase .expression, .mark .semicolon]]
  | .otherwise => [[], [.mark .kwElse, .phrase .statement]]
  | .optional => [[], [.phrase .expression]]
  | .expression => [[.phrase (.rung .or), .phrase .assigned]]
  | .assigned => [[], [.mark .equal, .phrase .expression]]
  | .rung r => [[.phrase r.operand, .phrase (.links r)]]
  | .links r => [[], [.operator r, .phrase r.operand, .phrase (.links r)]]
  | .unary => [[.sign, .phrase .unary], [.phrase .call]]
  | .call => [[.phrase .primary, .phrase .suffixes]]
  | .suffixes =>
    [[], [.mark .leftParen, .phrase (.list .argument), .mark .rightParen, .phrase .suffixes],
      [.mark .dot, .mark .identifier, .phrase .suffixes]]
  | .primary =>
    [[.leaf], [.mark .kwSuper, .mark .dot, .mark .identifier],
      [.mark .leftParen, .phrase .expression, .mark .rightParen]]
  | .list element => [[], [element.symbol, .phrase (.more element)]]
  | .more element => [[], [.mark .comma, element.symbol, .phrase (.more element)]]

/-- The kinds of tokens that are an expression on their own. -/
def isLeaf : TokenKind → Bool
  | .number _ | .bool _ | .kwNil | .string | .identifier | .kwThis => true
  | _ => false

/-- The kinds of tokens that a symbol stands for, if it stands for one token. -/
def Symbol.Matches : Symbol → TokenKind → Prop
  | .mark kind, k => k = kind
  | .leaf, k => isLeaf k = true
  | .sign, k => ∃ op, k = prefixKind op
  | .operator r, k => ∃ op : Operator, op.rung = r.level ∧ k = op.kind
  | .phrase _, _ => False

/-- `Spells stack tokens`: the tokens are spelled out by these symbols, one behind the other. -/
inductive Spells : List Symbol → List Token → Prop
  | nil : Spells [] []
  | token {s stack token tokens} : s.Matches token.kind → Spells stack tokens →
      Spells (s :: stack) (token :: tokens)
  | expand {n production stack tokens} : production ∈ productions n → Spells (production ++ stack) tokens →
      Spells (.phrase n :: stack) tokens

/-- The tokens of a program, without the end mark. -/
def IsProgram (tokens : List Token) : Prop :=
  Spells [.phrase (.items .declaration)] tokens

/-- Some program begins with these tokens. -/
def Viable (tokens : List Token) : Prop :=
  ∃ more, IsProgram (tokens ++ more)

/-- The kind of the first token. Behind the last token there is only the end of input. -/
def headKind : List Token → TokenKind
  | [] => .eof
  | token :: _ => token.kind

/-- The kinds of tokens that a phrase begins with. -/
def Nonterminal.Opens : Nonterminal → TokenKind → Prop
  | .items .declaration, k | .declaration, k => startsDeclaration k = true
  | .items .method, k | .varDecl, k | .function, k | .list .parameter, k => k = .identifier
  | .superclass, k => k = .less
  | .statement, k => startsStmt k = true
  | .initial, k => k = .semicolon ∨ k = .kwVar ∨ startsExpr k = true
  | .otherwise, k => k = .kwElse
  | .optional, k | .expression, k | .rung _, k | .unary, k | .list .argument, k => startsExpr k = true
  | .assigned, k => k = .equal
  | .links r, k => (Symbol.operator r).Matches k
  | .call, k | .primary, k => startsOperand k = true
  | .suffixes, k => k = .leftParen ∨ k = .dot
  | .more _, k => k = .comma

/-- The kinds of tokens that may come next where these symbols are still to come. -/
def Begins : List Symbol → TokenKind → Prop
  | [], k => k = .eof
  | .phrase n :: stack, k => n.Opens k ∨ [] ∈ productions n ∧ Begins stack k
  | s :: _, k => s.Matches k

section

variable {n : Nonterminal} {production stack : List Symbol} {tokens : List Token} {k : TokenKind}

@[simp]
theorem begins_mark {kind : TokenKind} : Begins (.mark kind :: stack) k ↔ k = kind := Iff.rfl

@[simp]
theorem begins_leaf : Begins (.leaf :: stack) k ↔ isLeaf k = true := Iff.rfl

@[simp]
theorem begins_sign : Begins (.sign :: stack) k ↔ Symbol.sign.Matches k := Iff.rfl

@[simp]
theorem begins_operator {r : Rung} :
    Begins (.operator r :: stack) k ↔ (Symbol.operator r).Matches k := Iff.rfl

@[simp]
theorem begins_phrase :
    Begins (.phrase n :: stack) k ↔ n.Opens k ∨ [] ∈ productions n ∧ Begins stack k := Iff.rfl

@[simp]
theorem opens_expression : Nonterminal.expression.Opens k ↔ startsExpr k = true := Iff.rfl

@[simp]
theorem opens_statement : Nonterminal.statement.Opens k ↔ startsStmt k = true := Iff.rfl

theorem startsOperand_of_isLeaf (leaf : isLeaf k = true) : startsOperand k = true := by
  unfold isLeaf at leaf
  split at leaf <;> first | rfl | cases leaf

theorem startsOperand_cases (starts : startsOperand k = true) :
    isLeaf k = true ∨ k = .kwSuper ∨ k = .leftParen := by
  unfold startsOperand at starts
  split at starts
  all_goals first | exact Or.inl rfl | exact Or.inr (Or.inl rfl) | exact Or.inr (Or.inr rfl) | cases starts

/-- A phrase begins as the production it goes on with, if that is not empty. -/
theorem opens_of_begins : ∀ production ∈ productions n, production ≠ [] →
    Begins (production ++ stack) k → n.Opens k := by
  cases n with
  | items item => cases item <;> simp [productions, Item.symbol, Nonterminal.Opens]
  | list element =>
    cases element <;> simp [productions, Element.symbol, Nonterminal.Opens]
  | rung r => cases r <;> simp [productions, Rung.operand, Nonterminal.Opens]
  | declaration =>
    have marks : startsDeclaration .kwVar = true ∧ startsDeclaration .kwFun = true ∧
        startsDeclaration .kwClass = true := by decide
    simp +contextual [productions, Nonterminal.Opens, marks, startsDeclaration_of_startsStmt]
  | statement =>
    have marks : startsStmt .kwFor = true ∧ startsStmt .kwIf = true ∧ startsStmt .kwWhile = true ∧
        startsStmt .kwReturn = true ∧ startsStmt .leftBrace = true ∧ startsStmt .kwPrint = true := by decide
    simp +contextual [productions, Nonterminal.Opens, marks, startsStmt_of_startsExpr]
  | unary =>
    have signs : ∀ op, k = prefixKind op → startsExpr k = true :=
      fun op same => same ▸ startsExpr_prefixKind op
    simpa [productions, Nonterminal.Opens, Symbol.Matches] using ⟨signs, startsExpr_of_startsOperand⟩
  | primary =>
    have marks : startsOperand .kwSuper = true ∧ startsOperand .leftParen = true := by decide
    simp +contextual [productions, Nonterminal.Opens, marks, startsOperand_of_isLeaf]
  | _ => simp +contextual [productions, Nonterminal.Opens]

theorem begins_expand (member : production ∈ productions n) (begins : Begins (production ++ stack) k) :
    Begins (.phrase n :: stack) k := by
  by_cases empty : production = []
  · subst empty
    exact Or.inr ⟨member, begins⟩
  · exact Or.inl (opens_of_begins production member empty begins)

theorem begins_of_matches {s : Symbol} (ofKind : s.Matches k) : Begins (s :: stack) k := by
  cases s with
  | phrase => exact ofKind.elim
  | _ => exact ofKind

theorem begins_of_spells (spells : Spells stack tokens) : Begins stack (headKind tokens) := by
  induction spells with
  | nil => rfl
  | token ofKind _ _ => exact begins_of_matches ofKind
  | expand member _ ih => exact begins_expand member ih

/-- Two lists of symbols spell out the same in front of a token of this kind, and nothing is lost by going
on with the second one. -/
structure Predicts (k : TokenKind) (stack stack' : List Symbol) : Prop where
  back : ∀ tokens, Spells stack' tokens → Spells stack tokens
  forth : ∀ tokens, headKind tokens = k → Spells stack tokens → Spells stack' tokens

/-- Where only one production begins with the next token, a phrase goes on with it. -/
theorem predicts_production (production : List Symbol) (member : production ∈ productions n)
    (only : ∀ production' ∈ productions n, Begins (production' ++ stack) k → production' = production) :
    Predicts k (.phrase n :: stack) (production ++ stack) where
  back tokens spells := .expand member spells
  forth tokens first spells := by
    cases spells with
    | token ofKind => exact ofKind.elim
    | @expand _ production' _ _ member' spells =>
      rw [← only production' member' (first ▸ begins_of_spells spells)]
      exact spells

end

section Tokens

variable {stack first second : List Symbol} {tokens left right : List Token}

theorem Spells.append (spells : Spells first left) (spells' : Spells second right) :
    Spells (first ++ second) (left ++ right) := by
  induction spells with
  | nil => exact spells'
  | token ofKind _ ih => exact .token ofKind ih
  | expand member _ ih => exact .expand member (by rwa [List.append_assoc] at ih)

theorem end_not_mem {n : Nonterminal} : ∀ production ∈ productions n, Symbol.mark .eof ∉ production := by
  cases n with
  | items item => cases item <;> simp [productions, Item.symbol]
  | list element | more element => cases element <;> simp [productions, Element.symbol]
  | _ => simp [productions]

/-- No program has an end mark in it. -/
theorem Spells.kind_ne_eof (spells : Spells stack tokens) (endless : Symbol.mark .eof ∉ stack) :
    ∀ token ∈ tokens, token.kind ≠ .eof := by
  induction spells with
  | nil => simp
  | @token s stack token tokens ofKind _ ih =>
    rw [List.mem_cons, not_or] at endless
    refine List.forall_mem_cons.mpr ⟨fun isEnd => ?_, ih endless.2⟩
    rw [isEnd] at ofKind
    cases s with
    | mark kind => exact endless.1 (congrArg Symbol.mark ofKind)
    | leaf => cases ofKind
    | sign =>
      obtain ⟨op, same⟩ := ofKind
      exact prefixKind_ne_eof op same.symm
    | operator r =>
      obtain ⟨op, _, same⟩ := ofKind
      exact op.kind_ne_eof same.symm
    | phrase => exact ofKind
  | expand member _ ih =>
    refine ih fun inside => ?_
    rcases List.mem_append.mp inside with inner | outer
    · exact end_not_mem _ member inner
    · exact endless (List.mem_cons_of_mem _ outer)

/-- Tokens can be found that spell out the symbol. -/
def Productive (s : Symbol) : Prop := ∃ tokens, Spells [s] tokens

theorem exists_spells_of_productive (all : ∀ s ∈ stack, Productive s) : ∃ tokens, Spells stack tokens := by
  induction stack with
  | nil => exact ⟨[], .nil⟩
  | cons s stack ih =>
    obtain ⟨first, spells⟩ := all s List.mem_cons_self
    obtain ⟨others, spells'⟩ := ih fun s member => all s (List.mem_cons_of_mem _ member)
    exact ⟨first ++ others, spells.append spells'⟩

theorem productive_of_matches {s : Symbol} {k : TokenKind} (ofKind : s.Matches k) : Productive s :=
  ⟨[⟨k, "", .start⟩], .token ofKind .nil⟩

theorem productive_mark (kind : TokenKind) : Productive (.mark kind) :=
  productive_of_matches (k := kind) rfl

theorem productive_phrase {n : Nonterminal} (production : List Symbol) (member : production ∈ productions n)
    (all : ∀ s ∈ production, Productive s) : Productive (.phrase n) := by
  obtain ⟨tokens, spells⟩ := exists_spells_of_productive all
  exact ⟨tokens, .expand member (by rwa [List.append_nil])⟩

theorem productive_empty {n : Nonterminal} (member : [] ∈ productions n) : Productive (.phrase n) :=
  productive_phrase [] member fun _ inside => absurd inside List.not_mem_nil

theorem productive_leaf : Productive .leaf :=
  productive_of_matches (k := .kwNil) rfl

theorem productive_primary : Productive (.phrase .primary) :=
  productive_phrase [.leaf] (by simp [productions]) (by simp [productive_leaf])

theorem productive_call : Productive (.phrase .call) := by
  have suffixes : Productive (.phrase .suffixes) := productive_empty (by simp [productions])
  exact productive_phrase [.phrase .primary, .phrase .suffixes] (by simp [productions])
    (by simp [productive_primary, suffixes])

theorem productive_unary : Productive (.phrase .unary) :=
  productive_phrase [.phrase .call] (by simp [productions]) (by simp [productive_call])

/-- Every rung has the operands of the next one. -/
theorem productive_rung (r : Rung) : Productive (.phrase (.rung r)) := by
  have chained (r : Rung) (operand : Productive (.phrase r.operand)) : Productive (.phrase (.rung r)) := by
    have links : Productive (.phrase (.links r)) := productive_empty (by simp [productions])
    exact productive_phrase [.phrase r.operand, .phrase (.links r)] (by simp [productions])
      (by simp [operand, links])
  have product := chained .product productive_unary
  have sum := chained .sum product
  have comparison := chained .comparison sum
  have equality := chained .equality comparison
  have and := chained .and equality
  cases r with
  | product => exact product
  | sum => exact sum
  | comparison => exact comparison
  | equality => exact equality
  | and => exact and
  | or => exact chained .or and

theorem productive_expression : Productive (.phrase .expression) := by
  have assigned : Productive (.phrase .assigned) := productive_empty (by simp [productions])
  exact productive_phrase [.phrase (.rung .or), .phrase .assigned] (by simp [productions])
    (by simp [productive_rung, assigned])

theorem productive_statement : Productive (.phrase .statement) :=
  productive_phrase [.phrase .expression, .mark .semicolon] (by simp [productions])
    (by simp [productive_expression, productive_mark])

theorem productive (s : Symbol) : Productive s := by
  have mark := productive_mark
  cases s with
  | mark kind => exact mark kind
  | leaf => exact productive_leaf
  | sign => exact productive_of_matches ⟨.minus, rfl⟩
  | operator r =>
    cases r with
    | or => exact productive_of_matches ⟨.logical .or, rfl, rfl⟩
    | and => exact productive_of_matches ⟨.logical .and, rfl, rfl⟩
    | equality => exact productive_of_matches ⟨.binary .equal, rfl, rfl⟩
    | comparison => exact productive_of_matches ⟨.binary .less, rfl, rfl⟩
    | sum => exact productive_of_matches ⟨.binary .plus, rfl, rfl⟩
    | product => exact productive_of_matches ⟨.binary .multiply, rfl, rfl⟩
  | phrase n =>
    cases n with
    | declaration =>
      exact productive_phrase [.phrase .statement] (by simp [productions]) (by simp [productive_statement])
    | varDecl =>
      have assigned : Productive (.phrase .assigned) := productive_empty (by simp [productions])
      exact productive_phrase [.mark .identifier, .phrase .assigned, .mark .semicolon]
        (by simp [productions]) (by simp [mark, assigned])
    | function =>
      have parameters : Productive (.phrase (.list .parameter)) := productive_empty (by simp [productions])
      have body : Productive (.phrase (.items .declaration)) := productive_empty (by simp [productions])
      exact productive_phrase [.mark .identifier, .mark .leftParen, .phrase (.list .parameter),
        .mark .rightParen, .mark .leftBrace, .phrase (.items .declaration), .mark .rightBrace]
        (by simp [productions]) (by simp [mark, parameters, body])
    | statement => exact productive_statement
    | initial => exact productive_phrase [.mark .semicolon] (by simp [productions]) (by simp [mark])
    | expression => exact productive_expression
    | rung r => exact productive_rung r
    | unary => exact productive_unary
    | call => exact productive_call
    | primary => exact productive_primary
    | _ => exact productive_empty (by simp [productions])

theorem exists_spells (stack : List Symbol) : ∃ tokens, Spells stack tokens :=
  exists_spells_of_productive fun s _ => productive s

end Tokens

section Else

variable {stack stack' : List Symbol} {tokens : List Token}

/-- More may be said by the symbols behind. -/
theorem Spells.behind (more : ∀ tokens, Spells stack tokens → Spells stack' tokens) (first : List Symbol)
    (spells : Spells (first ++ stack) tokens) : Spells (first ++ stack') tokens := by
  generalize whole : first ++ stack = symbols at spells
  induction spells generalizing first with
  | nil =>
    obtain ⟨rfl, rfl⟩ := List.append_eq_nil_iff.mp whole
    exact more _ .nil
  | @token s others token tokens ofKind spells ih =>
    cases first with
    | nil =>
      rw [List.nil_append] at whole
      subst whole
      exact more _ (.token ofKind spells)
    | cons s' first =>
      obtain ⟨rfl, rfl⟩ := List.cons.inj whole
      exact .token ofKind (ih first rfl)
  | @expand n production others tokens member spells ih =>
    cases first with
    | nil =>
      rw [List.nil_append] at whole
      subst whole
      exact more _ (.expand member spells)
    | cons s' first =>
      obtain ⟨rfl, rfl⟩ := List.cons.inj whole
      have longer := ih (production ++ first) (List.append_assoc ..)
      rw [List.append_assoc] at longer
      exact .expand member longer

/-- Where an `else` may come next, a statement and the same symbols may come behind it. -/
def ElseShifts (stack : List Symbol) : Prop :=
  ∀ token tokens, token.kind = .kwElse → Spells stack (token :: tokens) →
      Spells (.phrase .statement :: stack) tokens

theorem elseShifts_of_not_begins (none : ¬ Begins stack .kwElse) : ElseShifts stack := by
  intro token tokens isElse spells
  have begins := begins_of_spells spells
  rw [headKind, isElse] at begins
  exact absurd begins none

theorem ElseShifts.elseBranch (shifts : ElseShifts stack) :
    Predicts .kwElse (.phrase .otherwise :: stack) (.mark .kwElse :: .phrase .statement :: stack) where
  back tokens spells := Spells.expand (n := .otherwise) (List.mem_cons_of_mem _ List.mem_cons_self) spells
  forth tokens first spells := by
    cases spells with
    | token ofKind => exact ofKind.elim
    | @expand _ production _ _ member spells =>
      simp only [productions, List.mem_cons, List.not_mem_nil, or_false] at member
      rcases member with rfl | rfl
      · cases tokens with
        | nil => cases first
        | cons token tokens => exact .token first (shifts token tokens first spells)
      · exact spells

/-- Behind the branch of an `if`, an `else` belongs to this `if` or could as well. -/
theorem ElseShifts.otherwise (shifts : ElseShifts stack) : ElseShifts (.phrase .otherwise :: stack) := by
  intro token tokens isElse spells
  have branch := shifts.elseBranch.forth (token :: tokens) isElse spells
  have empty (tokens : List Token) (spells : Spells stack tokens) :
      Spells (.phrase .otherwise :: stack) tokens :=
    Spells.expand (n := .otherwise) List.mem_cons_self spells
  cases branch with
  | token _ spells => exact spells.behind empty [.phrase .statement]

end Else

end Grammar

end LoxFrontEnd
