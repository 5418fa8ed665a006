import LoxFrontEnd.Proofs.Parse.Ladder
import LoxFrontEnd.Proofs.Parse.Recursion

/-!
What the grammar derives is read by the rules of expressions. Phrases grow to the left, while a rule
takes its first operand and then goes round a loop. So a phrase is said to be read by the state in which
it leaves the loop of its rung, and only the token behind it decides whether the loop goes on.
-/

namespace LoxFrontEnd.Parse

open Grammar

/-- The rule of a rung. -/
def rungRule (expression : Parse Expr) (levels : Nat) : Nat → Parse Expr
  | 0 => assignment expression levels
  | 1 => logicOr expression levels
  | 2 => logicAnd expression levels
  | 3 => equality expression levels
  | 4 => comparison expression levels
  | 5 => term expression levels
  | 6 => factor expression levels
  | 7 => unary expression levels
  | 8 => call expression
  | _ => primary expression

/-- The loop in which the rule of a rung is, when it has come as far as an expression. -/
def onward (expression : Parse Expr) (levels : Nat) : Nat → Expr → Parse Expr
  | 1 => steps (link TokenKind.orOp? .logical (logicAnd expression levels))
  | 2 => steps (link TokenKind.andOp? .logical (equality expression levels))
  | 3 => steps (link TokenKind.equalityOp? .binary (comparison expression levels))
  | 4 => steps (link TokenKind.comparisonOp? .binary (term expression levels))
  | 5 => steps (link TokenKind.termOp? .binary (factor expression levels))
  | 6 => steps (link TokenKind.factorOp? .binary (unary expression levels))
  | 8 => steps (suffix expression)
  | _ => pure

/-- A kind of token that belongs to no rung above this one, nor to assignment where the rung is its own. -/
def Closes (level : Nat) (kind : TokenKind) : Prop :=
  ∀ rank, kind.rank? = some rank → rank ≤ level ∧ 0 < level

theorem Closes.mono {low high : Nat} {kind : TokenKind} (closes : Closes low kind) (le : low ≤ high) :
    Closes high kind := by
  intro rank known
  have := closes rank known
  omega

theorem closes_of_rank?_eq_none {level : Nat} {kind : TokenKind} (none : kind.rank? = none) :
    Closes level kind := by
  intro rank known
  cases none.symm.trans known

theorem Closes.rank?_eq_none {kind : TokenKind} (closes : Closes 0 kind) : kind.rank? = none := by
  cases known : kind.rank? with
  | none => rfl
  | some rank => exact absurd (closes rank known).2 (Nat.lt_irrefl 0)

theorem Closes.rank?_ne {level higher : Nat} {kind : TokenKind} (closes : Closes level kind)
    (lt : level < higher) : kind.rank? ≠ some higher := by
  intro known
  have := closes higher known
  omega

theorem closes_equal : Closes 1 .equal := by
  intro rank known
  cases known
  decide

theorem closes_operator (op : Operator) : Closes op.rung op.kind := by
  intro rank known
  cases op.rank?_kind.symm.trans known
  exact ⟨Nat.le_refl _, op.rung_bounds.1⟩

theorem closes_suffix {kind : TokenKind} (isSuffix : kind.rank? = some 8) : Closes 8 kind := by
  intro rank known
  cases isSuffix.symm.trans known
  decide

section

variable {expression : Parse Expr} {levels : Nat} {input later rest : Input} {e : Expr}

/-- Rungs 1 to 6 are chains over the rung above. -/
theorem rungRule_chain (expression : Parse Expr) (levels : Nat) {level : Nat} (low : 1 ≤ level)
    (high : level ≤ 6) :
    ∃ (ο : Type) (op? : TokenKind → Option ο) (node : ο → Expr → Expr → Expr), OnRung level op? node ∧
      rungRule expression levels level = chain op? node (rungRule expression levels (level + 1)) ∧
      onward expression levels level = steps (link op? node (rungRule expression levels (level + 1))) :=
  match level, low, high with
  | 1, _, _ => ⟨_, _, _, TokenKind.orOp?_onRung, rfl, rfl⟩
  | 2, _, _ => ⟨_, _, _, TokenKind.andOp?_onRung, rfl, rfl⟩
  | 3, _, _ => ⟨_, _, _, TokenKind.equalityOp?_onRung, rfl, rfl⟩
  | 4, _, _ => ⟨_, _, _, TokenKind.comparisonOp?_onRung, rfl, rfl⟩
  | 5, _, _ => ⟨_, _, _, TokenKind.termOp?_onRung, rfl, rfl⟩
  | 6, _, _ => ⟨_, _, _, TokenKind.factorOp?_onRung, rfl, rfl⟩

theorem link_stops {ο : Type} {level : Nat} {op? : TokenKind → Option ο}
    {node : ο → Expr → Expr → Expr} {operand : Parse Expr} (on : OnRung level op? node)
    (other : input.kind.rank? ≠ some level) : Reads (link op? node operand e) input none input := by
  refine reads_takeSome_bind.mpr (Or.inr ⟨fun token front => ?_, .pure⟩)
  obtain ⟨tokens, last⟩ := input
  cases tokens with
  | nil => cases front
  | cons => cases front; exact on.op?_eq_none other

theorem suffix_stops (paren : input.kind ≠ .leftParen) (dot : input.kind ≠ .dot) :
    Reads (suffix expression e) input none input :=
  .passed paren (.passed dot .pure)

theorem rung_cases {level : Nat} (other : ¬ (1 ≤ level ∧ level ≤ 6)) :
    level = 0 ∨ level = 7 ∨ level = 8 ∨ ∃ n, level = n + 9 := by
  rcases Nat.lt_or_ge level 9 with low | high
  · omega
  · exact Or.inr (Or.inr (Or.inr ⟨level - 9, by omega⟩))

/-- The loop of a rung ends in front of a token that does not belong to the rung. -/
theorem onward_stops {level : Nat} (other : input.kind.rank? ≠ some level) :
    Reads (onward expression levels level e) input e input := by
  by_cases chained : 1 ≤ level ∧ level ≤ 6
  · obtain ⟨_, op?, node, on, _, loop⟩ := rungRule_chain expression levels chained.1 chained.2
    rw [loop]
    exact .steps_stop (link_stops on other)
  · obtain rfl | rfl | rfl | ⟨n, rfl⟩ := rung_cases chained
    · exact .pure
    · exact .pure
    · refine .steps_stop (suffix_stops ?_ ?_) <;> (intro kind; rw [kind] at other; exact other rfl)
    · exact .pure

theorem unaryOp?_eq_none {kind : TokenKind} (starts : startsOperand kind = true) :
    kind.unaryOp? = none := by
  cases found : kind.unaryOp? with
  | none => rfl
  | some op =>
    rw [TokenKind.unaryOp?_eq_some_iff.mp found] at starts
    cases op <;> cases starts

/-- A call may stand where operators in front of it could. -/
theorem Reads.unary_of_call (read : Reads (call expression) input e rest)
    (starts : startsOperand input.kind = true) (levels : Nat) :
    Reads (unary expression levels) input e rest :=
  Reads.congr (unary_plain (unaryOp?_eq_none starts) levels).symm read

/-- The rule of a rung takes what the rung above it reads, and goes on in its own loop. -/
theorem Reads.descend {level : Nat} {e' : Expr}
    (read : Reads (rungRule expression levels (level + 1)) input e later)
    (starts : level = 7 → startsOperand input.kind = true) (closes : Closes level later.kind)
    (next : Reads (onward expression levels level e) later e' rest) :
    Reads (rungRule expression levels level) input e' rest := by
  by_cases chained : 1 ≤ level ∧ level ≤ 6
  · obtain ⟨_, op?, node, on, rule, loop⟩ := rungRule_chain expression levels chained.1 chained.2
    rw [loop] at next
    rw [rule]
    exact read.bind next
  · obtain rfl | rfl | rfl | ⟨n, rfl⟩ := rung_cases chained
    · obtain ⟨rfl, rfl⟩ := reads_pure.mp next
      refine read.bind (.passed (fun kind => ?_) .pure)
      exact absurd (closes 0 (by rw [kind]; rfl)).2 (Nat.lt_irrefl 0)
    · obtain ⟨rfl, rfl⟩ := reads_pure.mp next
      exact read.unary_of_call (starts rfl) levels
    · exact read.bind next
    · obtain ⟨rfl, rfl⟩ := reads_pure.mp next
      exact read

theorem Reads.leaf {token : Token} {tokens : List Token} {last : Position} (leaf : Leaf token e) :
    Reads (primary expression) ⟨token :: tokens, last⟩ e ⟨tokens, token.position⟩ :=
  reads_takeSome_bind.mpr (Or.inl ⟨token, tokens, e, rfl, leaf_iff.mpr leaf, .pure⟩)

theorem Reads.not_leaf {f : Option Expr → Parse Expr} {token : Token} {tokens : List Token}
    {last : Position} (other : token.leaf? = none)
    (next : Reads (f none) ⟨token :: tokens, last⟩ e rest) :
    Reads (takeSome Token.leaf? >>= f) ⟨token :: tokens, last⟩ e rest := by
  refine reads_takeSome_bind.mpr (Or.inr ⟨fun token front => ?_, next⟩)
  cases front
  exact other

/-- An operator goes round the loop of its rung once. -/
theorem Reads.onward_join {op : Operator} {sign : Token} {tokens : List Token} {last : Position}
    {a b e' : Expr} (kind : sign.kind = op.kind)
    (operand : Reads (rungRule expression levels (op.rung + 1)) ⟨tokens, sign.position⟩ b later)
    (shorter : later.tokens.length ≤ tokens.length)
    (next : Reads (onward expression levels op.rung (op.node a b)) later e' rest) :
    Reads (onward expression levels op.rung a) ⟨sign :: tokens, last⟩ e' rest := by
  obtain ⟨_, op?, node, on, _, loop⟩ := rungRule_chain expression levels op.rung_bounds.1 op.rung_bounds.2
  obtain ⟨o, taken, node_eq⟩ := on.complete op rfl
  rw [loop] at next ⊢
  rw [← node_eq] at next
  refine .steps_next (reads_takeSome_bind.mpr (Or.inl ⟨sign, tokens, o, rfl, ?_, operand.bind .pure⟩))
    (Nat.lt_succ_of_le shorter) next
  rw [kind, taken]

theorem startsExpr_of_derives {limit depth : Nat} {phrase : ExprPhrase} {tokens : List Token}
    (derives : DerivesExpr limit depth phrase tokens) (some : phrase ≠ .arguments []) (rest : List Token)
    (last : Position) : startsExpr (Input.kind ⟨tokens ++ rest, last⟩) = true := by
  obtain ⟨token, others, rfl, opens⟩ := derives.opens some
  exact opens.startsExpr

end

/-- How the rules read a phrase, whatever may stand behind it. -/
def Complete (levels : Nat) : ExprPhrase → List Token → Prop
  | .expression e, tokens => ∀ rest last, (Input.kind ⟨rest, last⟩).rank? = none →
      Spans (expression levels) last tokens e rest
  | .rung level e, tokens => ∀ rest last, Closes level (Input.kind ⟨rest, last⟩) → ∀ e' behind,
      Reads (onward (expression levels) levels level e) ⟨rest, placeAfter last tokens⟩ e' behind →
      Reads (rungRule (expression levels) levels level) ⟨tokens ++ rest, last⟩ e' behind
  | .prefixed count e, tokens => ∀ allowed ≥ count, ∀ rest last, Closes 7 (Input.kind ⟨rest, last⟩) →
      Spans (unary (expression levels) allowed) last tokens e rest
  | .arguments es, tokens => ∀ rest last, Input.kind ⟨rest, last⟩ = .rightParen →
      Spans (separatedUnless .rightParen (expression levels)) last tokens es rest

section Complete

variable {levels level : Nat} {e : Expr} {tokens : List Token} (rest : List Token) (last : Position)

/-- In front of a token of no rung from this one on, a phrase is read as it stands. -/
theorem Complete.stops (complete : Complete levels (.rung level e) tokens)
    (closes : Closes level (Input.kind ⟨rest, last⟩))
    (other : (Input.kind ⟨rest, last⟩).rank? ≠ some level) :
    Spans (rungRule (expression levels) levels level) last tokens e rest :=
  complete rest last closes e _ (onward_stops other)

theorem Complete.stops_above {low : Nat} (complete : Complete levels (.rung level e) tokens)
    (lt : low < level) (closes : Closes low (Input.kind ⟨rest, last⟩)) :
    Spans (rungRule (expression levels) levels level) last tokens e rest :=
  complete.stops rest last (closes.mono (Nat.le_of_lt lt)) (closes.rank?_ne lt)

/-- The target of an assignment. -/
theorem Complete.before_equal {sign : Token} (complete : Complete levels (.rung 1 e) tokens)
    (isEqual : sign.kind = .equal) :
    Spans (logicOr (expression levels) levels) last tokens e (sign :: rest) := by
  have closes : Closes 1 (Input.kind ⟨sign :: rest, last⟩) := by
    rw [Input.kind_cons, isEqual]
    exact closes_equal
  have other : (Input.kind ⟨sign :: rest, last⟩).rank? ≠ some 1 := by
    rw [Input.kind_cons, isEqual]
    decide
  exact complete.stops _ last closes other

/-- A phrase may go on in the loop of its rung, with the tokens behind it. -/
theorem Complete.further {e' : Expr} {others : List Token} {behind : Input}
    (complete : Complete levels (.rung level e) tokens)
    (closes : Closes level (Input.kind ⟨others ++ rest, last⟩))
    (next : Reads (onward (expression levels) levels level e)
      ⟨others ++ rest, placeAfter last tokens⟩ e' behind) :
    Reads (rungRule (expression levels) levels level) ⟨tokens ++ others ++ rest, last⟩ e' behind := by
  rw [List.append_assoc]
  exact complete _ last closes e' behind next

end Complete

theorem complete_of_derives {limit depth : Nat} {phrase : ExprPhrase} {tokens : List Token}
    (derives : DerivesExpr limit depth phrase tokens) :
    ∀ levels, depth + levels = limit → Complete levels phrase tokens := by
  induction derives with
  | nested room _ ih =>
    intro levels balance rest last none
    obtain ⟨levels, rfl⟩ : ∃ fewer, levels = fewer + 1 := ⟨levels - 1, by omega⟩
    exact ih levels (by omega) rest last (closes_of_rank?_eq_none none) _ _ .pure
  | @loosen _ level e _ derives ih =>
    intro levels balance rest last closes e' behind next
    have read := (ih levels balance).stops_above rest last (Nat.lt_succ_self level) closes
    refine read.descend (fun seven => ?_) closes next
    obtain ⟨token, others, rfl, opens⟩ := derives.opens (by simp)
    exact opens.2 (by omega)
  | @assign _ name line value sign left right _ isEqual _ ihTarget ihValue =>
    intro levels balance rest last closes e' behind next
    obtain ⟨rfl, rfl⟩ := reads_pure.mp next
    have target := (ihTarget levels balance).before_equal (right ++ rest) last isEqual
    have assigned := ihValue levels balance rest sign.position closes.rank?_eq_none
    exact target.bind (.accepted isEqual (assigned.ends .pure))
  | @setAttr _ object name value sign left right _ isEqual _ ihTarget ihValue =>
    intro levels balance rest last closes e' behind next
    obtain ⟨rfl, rfl⟩ := reads_pure.mp next
    have target := (ihTarget levels balance).before_equal (right ++ rest) last isEqual
    have assigned := ihValue levels balance rest sign.position closes.rank?_eq_none
    exact target.bind (.accepted isEqual (assigned.ends .pure))
  | @join _ a b left right op sign _ kind _ ihLeft ihRight =>
    intro levels balance rest last closes e' behind next
    have operand :=
      (ihRight levels balance).stops_above rest sign.position (Nat.lt_succ_self op.rung) closes
    rw [placeAfter_append] at next
    refine (ihLeft levels balance).further rest last ?_ (Reads.onward_join kind operand (by simp) next)
    rw [List.cons_append, Input.kind_cons, kind]
    exact closes_operator op
  | operand derives ih =>
    intro levels balance allowed _ rest last closes
    have read := (ih levels balance).stops_above rest last (Nat.lt_succ_self 7) closes
    obtain ⟨token, others, rfl, opens⟩ := derives.opens (by simp)
    have starts : startsOperand (Input.kind ⟨token :: (others ++ rest), last⟩) = true :=
      opens.2 (Nat.le_refl _)
    exact Reads.unary_of_call read starts allowed
  | @prefixed _ count op _ sign tokens kind _ ih =>
    intro levels balance allowed bound rest last closes
    obtain ⟨allowed, rfl⟩ : ∃ fewer, allowed = fewer + 1 := ⟨allowed - 1, by omega⟩
    refine reads_takeSome_bind.mpr (Or.inl ⟨sign, tokens ++ rest, op, rfl, ?_, ?_⟩)
    · exact TokenKind.unaryOp?_eq_some_iff.mpr kind
    · exact Reads.bind (ih levels balance allowed (by omega) rest sign.position closes) .pure
  | run room _ ih =>
    intro levels balance rest last closes e' behind next
    obtain ⟨rfl, rfl⟩ := reads_pure.mp next
    exact ih levels balance levels (by omega) rest last closes
  | @call _ callee es tokens inner opening closing _ opens _ closed ihCallee ihArguments =>
    intro levels balance rest last closes e' behind next
    have given := ihArguments levels balance (closing :: rest) opening.position closed
    have called : Spans (suffix (expression levels) callee) (placeAfter last tokens)
        (opening :: (inner ++ [closing])) (some (.call callee es)) rest :=
      .accepted opens (given.bind (.expected closed .pure))
    rw [List.append_assoc tokens] at next ⊢
    rw [placeAfter_append] at next
    refine (ihCallee levels balance).further rest last ?_ (called.steps_next next)
    rw [List.cons_append, List.cons_append, Input.kind_cons, opens]
    exact closes_suffix rfl
  | @getAttr _ object tokens dot name _ isDot isName ihObject =>
    intro levels balance rest last closes e' behind next
    have noCall : Input.kind ⟨dot :: name :: rest, placeAfter last tokens⟩ ≠ .leftParen := by
      rw [Input.kind_cons, isDot]
      decide
    have named : Spans (suffix (expression levels) object) (placeAfter last tokens) [dot, name]
        (some (.getAttr object name.lexeme)) rest :=
      .passed noCall (.accepted isDot (.expected isName .pure))
    rw [placeAfter_append] at next
    refine (ihObject levels balance).further rest last ?_ (named.steps_next next)
    rw [List.cons_append, Input.kind_cons, isDot]
    exact closes_suffix rfl
  | leaf leaf =>
    intro levels balance rest last closes e' behind next
    obtain ⟨rfl, rfl⟩ := reads_pure.mp next
    exact .leaf leaf
  | super isSuper isDot isName =>
    intro levels balance rest last closes e' behind next
    obtain ⟨rfl, rfl⟩ := reads_pure.mp next
    refine .not_leaf (by simp only [Token.leaf?, isSuper]) (.accepted isSuper ?_)
    exact .expected isDot (.expected isName .pure)
  | @grouping _ e tokens opening closing opens _ closed ih =>
    intro levels balance rest last closes e' behind next
    obtain ⟨rfl, rfl⟩ := reads_pure.mp next
    have inner := ih levels balance (closing :: rest) opening.position
      (by rw [Input.kind_cons, closed]; rfl)
    have noSuper : Input.kind ⟨opening :: (tokens ++ [closing]) ++ rest, last⟩ ≠ .kwSuper := by
      rw [List.cons_append, Input.kind_cons, opens]
      decide
    have grouped :
        Spans (primary (expression levels)) last (opening :: (tokens ++ [closing])) (.grouping e) rest :=
      Reads.not_leaf (by simp only [Token.leaf?, opens])
        (Spans.passed noSuper (.accepted opens (inner.bind (.expected closed .pure))))
    exact grouped
  | noArguments =>
    intro levels balance rest last closed
    exact .separatedUnless_nil closed
  | lastArgument derives ih =>
    intro levels balance rest last closed
    have read := ih levels balance rest last (by rw [closed]; rfl)
    have starts := startsExpr_of_derives derives (by simp) rest last
    refine (reads_separatedUnless (kind_ne_of_starts starts rfl)).mpr (.separated_last read ?_)
    show Input.kind ⟨rest, last⟩ ≠ .comma
    rw [closed]
    decide
  | @moreArguments _ e next es first comma others derives isComma derivesOthers ih ihOthers =>
    intro levels balance rest last closed
    have read := ih levels balance (comma :: (others ++ rest)) last (by rw [Input.kind_cons, isComma]; rfl)
    have more := ihOthers levels balance rest comma.position closed
    have starts := startsExpr_of_derives derives (by simp) (comma :: (others ++ rest)) last
    have startsOthers := startsExpr_of_derives derivesOthers (by simp) rest comma.position
    have listed : Spans (separated (expression levels)) comma.position others (next :: es) rest :=
      (reads_separatedUnless (kind_ne_of_starts startsOthers rfl)).mp more
    refine (reads_separatedUnless ?_).mpr (read.separated_more isComma listed)
    rw [List.append_assoc]
    exact kind_ne_of_starts starts rfl

/-- A derived expression is read, where the token behind it does not go on with it. -/
theorem reads_expression {limit depth levels : Nat} (balance : depth + levels = limit) {e : Expr}
    {tokens rest : List Token} {last : Position}
    (derives : DerivesExpr limit depth (.expression e) tokens)
    (none : (Input.kind ⟨rest, last⟩).rank? = none) :
    Spans (expression levels) last tokens e rest :=
  complete_of_derives derives levels balance rest last none

end LoxFrontEnd.Parse
