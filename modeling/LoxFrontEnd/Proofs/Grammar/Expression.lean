import LoxFrontEnd.Token
import LoxFrontEnd.Tree

/-!
The grammar of expressions, apart from any way to parse it. Expressions stand on the rungs of a
ladder, from assignment on rung 0 to primaries on rung 9. A derivation carries the depth it stands
at: a whole expression takes a level of its own, and operators in front of an operand count one by one.
-/

namespace LoxFrontEnd

namespace Grammar

/-- An operator between two operands. -/
inductive Operator where
  | logical (op : LogicalOp)
  | binary (op : BinaryOp)

namespace Operator

def kind : Operator → TokenKind
  | .logical .or => .kwOr
  | .logical .and => .kwAnd
  | .binary .equal => .equalEqual
  | .binary .notEqual => .bangEqual
  | .binary .greater => .greater
  | .binary .greaterEqual => .greaterEqual
  | .binary .less => .less
  | .binary .lessEqual => .lessEqual
  | .binary .plus => .plus
  | .binary .minus => .minus
  | .binary .multiply => .star
  | .binary .divide => .slash

/-- The rung on which an operator joins its operands; the right one stands one rung higher. -/
def rung : Operator → Nat
  | .logical .or => 1
  | .logical .and => 2
  | .binary .equal | .binary .notEqual => 3
  | .binary .greater | .binary .greaterEqual | .binary .less | .binary .lessEqual => 4
  | .binary .plus | .binary .minus => 5
  | .binary .multiply | .binary .divide => 6

def node : Operator → Expr → Expr → Expr
  | .logical op => .logical op
  | .binary op => .binary op

end Operator

def prefixKind : UnaryOp → TokenKind
  | .minus => .minus
  | .not => .bang

/-- The text in quotes that a lexeme shows. -/
def Quoted (lexeme text : String) : Prop :=
  lexeme.toList = '"' :: text.toList ++ ['"']

/-- A string means what stands between its quotes. Without its quotes it means itself. -/
def StringText (lexeme text : String) : Prop :=
  Quoted lexeme text ∨ text = lexeme ∧ ∀ inner, ¬ Quoted lexeme inner

/-- A token that is an expression on its own. -/
inductive Leaf (token : Token) : Expr → Prop
  | number {value} : token.kind = .number value → Leaf token (.literal (.number value))
  | bool {value} : token.kind = .bool value → Leaf token (.literal (.bool value))
  | nil : token.kind = .kwNil → Leaf token (.literal .nil)
  | string {text} : token.kind = .string → StringText token.lexeme text →
      Leaf token (.literal (.string text))
  | name : token.kind = .identifier → Leaf token (.var token.lexeme token.position.line)
  | this : token.kind = .kwThis → Leaf token (.thisRef token.position.line)

/-- The parts that expressions are made of. -/
inductive ExprPhrase where
  /-- A whole expression, which takes a level of its own. -/
  | expression (e : Expr)
  /-- An expression on a rung of the ladder, or on a higher one. -/
  | rung (level : Nat) (e : Expr)
  /-- An operand with so many operators in front of it. -/
  | prefixed (count : Nat) (e : Expr)
  | arguments (es : List Expr)

/-- `DerivesExpr limit depth phrase tokens`: the tokens are a phrase at this depth, and no part of it
is nested deeper than the limit. -/
inductive DerivesExpr (limit : Nat) : Nat → ExprPhrase → List Token → Prop
  | nested {depth e tokens} : depth < limit → DerivesExpr limit (depth + 1) (.rung 0 e) tokens →
      DerivesExpr limit depth (.expression e) tokens
  | loosen {depth level e tokens} : DerivesExpr limit depth (.rung (level + 1) e) tokens →
      DerivesExpr limit depth (.rung level e) tokens
  | assign {depth name line value sign left right} :
      DerivesExpr limit depth (.rung 1 (.var name line)) left → sign.kind = .equal →
      DerivesExpr limit depth (.expression value) right →
      DerivesExpr limit depth (.rung 0 (.assign name value)) (left ++ sign :: right)
  | setAttr {depth object name value sign left right} :
      DerivesExpr limit depth (.rung 1 (.getAttr object name)) left → sign.kind = .equal →
      DerivesExpr limit depth (.expression value) right →
      DerivesExpr limit depth (.rung 0 (.setAttr object name value)) (left ++ sign :: right)
  | join {depth a b left right} {op : Operator} {sign : Token} :
      DerivesExpr limit depth (.rung op.rung a) left → sign.kind = op.kind →
      DerivesExpr limit depth (.rung (op.rung + 1) b) right →
      DerivesExpr limit depth (.rung op.rung (op.node a b)) (left ++ sign :: right)
  | operand {depth e tokens} : DerivesExpr limit depth (.rung 8 e) tokens →
      DerivesExpr limit depth (.prefixed 0 e) tokens
  | prefixed {depth count op e sign tokens} : sign.kind = prefixKind op →
      DerivesExpr limit depth (.prefixed count e) tokens →
      DerivesExpr limit depth (.prefixed (count + 1) (.unary op e)) (sign :: tokens)
  | run {depth count e tokens} : depth + count ≤ limit →
      DerivesExpr limit depth (.prefixed count e) tokens → DerivesExpr limit depth (.rung 7 e) tokens
  | call {depth callee es tokens inner opening closing} :
      DerivesExpr limit depth (.rung 8 callee) tokens → opening.kind = .leftParen →
      DerivesExpr limit depth (.arguments es) inner → closing.kind = .rightParen →
      DerivesExpr limit depth (.rung 8 (.call callee es)) (tokens ++ opening :: inner ++ [closing])
  | getAttr {depth object tokens dot name} :
      DerivesExpr limit depth (.rung 8 object) tokens → dot.kind = .dot → name.kind = .identifier →
      DerivesExpr limit depth (.rung 8 (.getAttr object name.lexeme)) (tokens ++ [dot, name])
  | leaf {depth token e} : Leaf token e → DerivesExpr limit depth (.rung 9 e) [token]
  | super {depth keyword dot method} : keyword.kind = .kwSuper → dot.kind = .dot →
      method.kind = .identifier →
      DerivesExpr limit depth (.rung 9 (.superRef method.lexeme keyword.position.line))
        [keyword, dot, method]
  | grouping {depth e tokens opening closing} : opening.kind = .leftParen →
      DerivesExpr limit depth (.expression e) tokens → closing.kind = .rightParen →
      DerivesExpr limit depth (.rung 9 (.grouping e)) (opening :: tokens ++ [closing])
  | noArguments {depth} : DerivesExpr limit depth (.arguments []) []
  | lastArgument {depth e tokens} : DerivesExpr limit depth (.expression e) tokens →
      DerivesExpr limit depth (.arguments [e]) tokens
  | moreArguments {depth e next es first comma others} :
      DerivesExpr limit depth (.expression e) first → comma.kind = .comma →
      DerivesExpr limit depth (.arguments (next :: es)) others →
      DerivesExpr limit depth (.arguments (e :: next :: es)) (first ++ comma :: others)

/-- A phrase stands where it has as many levels below it, or more. -/
theorem DerivesExpr.roomier {limit limit' depth depth' : Nat} {phrase : ExprPhrase} {tokens : List Token}
    (derives : DerivesExpr limit depth phrase tokens) (room : depth' + limit ≤ depth + limit') :
    DerivesExpr limit' depth' phrase tokens := by
  induction derives generalizing depth' with
  | nested deeper _ ih => exact .nested (by omega) (ih (by omega))
  | loosen _ ih => exact .loosen (ih room)
  | assign _ isEqual _ ih ihValue => exact .assign (ih room) isEqual (ihValue room)
  | setAttr _ isEqual _ ih ihValue => exact .setAttr (ih room) isEqual (ihValue room)
  | join _ isSign _ ih ihRight => exact .join (ih room) isSign (ihRight room)
  | operand _ ih => exact .operand (ih room)
  | prefixed isSign _ ih => exact .prefixed isSign (ih room)
  | run bound _ ih => exact .run (by omega) (ih room)
  | call _ isOpening _ isClosing ih ihArguments =>
    exact .call (ih room) isOpening (ihArguments room) isClosing
  | getAttr _ isDot isName ih => exact .getAttr (ih room) isDot isName
  | leaf leaf => exact .leaf leaf
  | super isSuper isDot isName => exact .super isSuper isDot isName
  | grouping isOpening _ isClosing ih => exact .grouping isOpening (ih room) isClosing
  | noArguments => exact .noArguments
  | lastArgument _ ih => exact .lastArgument (ih room)
  | moreArguments _ isComma _ ih ihOthers => exact .moreArguments (ih room) isComma (ihOthers room)

theorem Operator.rung_bounds (op : Operator) : 1 ≤ op.rung ∧ op.rung ≤ 6 := by
  rcases op with op | op <;> cases op <;> decide

/-- The kinds of tokens that an operand begins with, when no operator stands in front of it. -/
def startsOperand : TokenKind → Bool
  | .number _ | .bool _ | .kwNil | .string | .identifier | .kwThis | .kwSuper | .leftParen => true
  | _ => false

def startsExpr (kind : TokenKind) : Bool :=
  startsOperand kind || kind = .bang || kind = .minus

theorem startsExpr_of_startsOperand {kind : TokenKind} (starts : startsOperand kind = true) :
    startsExpr kind = true := by
  simp only [startsExpr, starts, Bool.true_or]

theorem startsExpr_prefixKind (op : UnaryOp) : startsExpr (prefixKind op) = true := by
  cases op <;> rfl

/-- The kinds of tokens that a phrase begins with. Operands of calls and properties have no operator in
front of them. -/
def ExprPhrase.Opens : ExprPhrase → TokenKind → Prop
  | .rung level _, kind => startsExpr kind = true ∧ (8 ≤ level → startsOperand kind = true)
  | .prefixed count _, kind => startsExpr kind = true ∧ (count = 0 → startsOperand kind = true)
  | _, kind => startsExpr kind = true

theorem ExprPhrase.Opens.startsExpr {phrase : ExprPhrase} {kind : TokenKind} (opens : phrase.Opens kind) :
    startsExpr kind = true := by
  cases phrase with
  | expression | arguments => exact opens
  | rung | prefixed => exact opens.1

theorem kind_ne_of_starts {starts : TokenKind → Bool} {kind other : TokenKind}
    (opens : starts kind = true) (not : starts other = false) : kind ≠ other := by
  rintro rfl
  exact Bool.false_ne_true (not.symm.trans opens)

theorem Leaf.startsOperand {token : Token} {e : Expr} (leaf : Leaf token e) :
    startsOperand token.kind = true := by
  cases leaf <;> simp only [*, Grammar.startsOperand]

/-- Every phrase has a first token, but for an empty list of arguments. -/
theorem DerivesExpr.opens {limit depth : Nat} {phrase : ExprPhrase} {tokens : List Token}
    (derives : DerivesExpr limit depth phrase tokens) (some : phrase ≠ .arguments []) :
    ∃ token others, tokens = token :: others ∧ phrase.Opens token.kind := by
  induction derives with
  | nested _ _ ih =>
    obtain ⟨token, others, rfl, opens⟩ := ih nofun
    exact ⟨token, others, rfl, opens.1⟩
  | loosen _ ih =>
    obtain ⟨token, others, rfl, opens⟩ := ih nofun
    exact ⟨token, others, rfl, opens.1, fun high => opens.2 (by omega)⟩
  | assign _ _ _ ih | setAttr _ _ _ ih =>
    obtain ⟨token, others, rfl, opens⟩ := ih nofun
    exact ⟨token, _, rfl, opens.1, fun high => absurd high (by omega)⟩
  | @join _ _ _ _ _ op _ _ _ _ ih =>
    obtain ⟨token, others, rfl, opens⟩ := ih nofun
    have bounds := op.rung_bounds
    exact ⟨token, _, rfl, opens.1, fun high => absurd high (by omega)⟩
  | operand _ ih =>
    obtain ⟨token, others, rfl, opens⟩ := ih nofun
    exact ⟨token, others, rfl, opens.1, fun _ => opens.2 (Nat.le_refl _)⟩
  | @prefixed _ _ op _ sign tokens kind _ _ =>
    exact ⟨sign, tokens, rfl, kind ▸ startsExpr_prefixKind op, fun none => absurd none (Nat.succ_ne_zero _)⟩
  | run _ _ ih =>
    obtain ⟨token, others, rfl, opens⟩ := ih nofun
    exact ⟨token, others, rfl, opens.1, fun high => absurd high (by omega)⟩
  | call _ _ _ _ ih | getAttr _ _ _ ih =>
    obtain ⟨token, others, rfl, opens⟩ := ih nofun
    exact ⟨token, _, rfl, opens⟩
  | @leaf _ token _ leaf =>
    exact ⟨token, [], rfl, startsExpr_of_startsOperand leaf.startsOperand, fun _ => leaf.startsOperand⟩
  | @super _ keyword dot method isSuper =>
    exact ⟨keyword, [dot, method], rfl, by rw [isSuper]; rfl, fun _ => by rw [isSuper]; rfl⟩
  | @grouping _ _ tokens opening closing opens =>
    exact ⟨opening, tokens ++ [closing], rfl, by rw [opens]; rfl, fun _ => by rw [opens]; rfl⟩
  | noArguments => exact absurd rfl some
  | lastArgument _ ih => exact ih nofun
  | moreArguments _ _ _ ih =>
    obtain ⟨token, others, rfl, opens⟩ := ih nofun
    exact ⟨token, _, rfl, opens⟩

theorem Leaf.kind_ne_eof {token : Token} {e : Expr} (leaf : Leaf token e) : token.kind ≠ .eof := by
  cases leaf <;> simp only [*, ne_eq, reduceCtorEq, not_false_eq_true]

theorem Operator.kind_ne_eof (op : Operator) : op.kind ≠ .eof := by
  rcases op with op | op <;> cases op <;> decide

theorem prefixKind_ne_eof (op : UnaryOp) : prefixKind op ≠ .eof := by
  cases op <;> decide

/-- No phrase has an end mark in it. -/
theorem DerivesExpr.kind_ne_eof {limit depth : Nat} {phrase : ExprPhrase} {tokens : List Token}
    (derives : DerivesExpr limit depth phrase tokens) : ∀ token ∈ tokens, token.kind ≠ .eof := by
  induction derives with
  | leaf leaf => grind [leaf.kind_ne_eof]
  | @join _ _ _ _ _ op => grind [op.kind_ne_eof]
  | @prefixed _ _ op => grind [prefixKind_ne_eof op]
  | _ => grind

end Grammar

end LoxFrontEnd
