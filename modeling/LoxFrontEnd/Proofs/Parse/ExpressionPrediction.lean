import LoxFrontEnd.Proofs.Parse.Ladder
import LoxFrontEnd.Proofs.Parse.Prediction

/-!
The rules of expressions track their phrases. An operator that goes on with an expression belongs to it, so
behind the expression nothing may begin with an operator of its rung or of a tighter one.
-/

namespace LoxFrontEnd

open Grammar

theorem leaf?_isSome_iff (token : Token) : token.leaf?.isSome = true ↔ Symbol.leaf.Matches token.kind := by
  unfold Token.leaf? Symbol.Matches isLeaf
  cases token.kind <;> simp

theorem unaryOp?_isSome_iff (kind : TokenKind) :
    kind.unaryOp?.isSome = true ↔ Symbol.sign.Matches kind := by
  rw [Option.isSome_iff_exists]
  exact exists_congr fun op => TokenKind.unaryOp?_eq_some_iff

theorem OnRung.isSome_iff {ο : Type} {r : Rung} {op? : TokenKind → Option ο} {node : ο → Expr → Expr → Expr}
    (on : OnRung r.level op? node) (kind : TokenKind) :
    (op? kind).isSome = true ↔ (Symbol.operator r).Matches kind := by
  rw [Option.isSome_iff_exists]
  constructor
  · rintro ⟨o, taken⟩
    obtain ⟨op, same, onRung, _⟩ := on.sound kind o taken
    exact ⟨op, onRung, same.symm⟩
  · rintro ⟨op, onRung, rfl⟩
    obtain ⟨o, taken, _⟩ := on.complete op onRung
    exact ⟨o, taken⟩

namespace Parse

variable {stack : List Symbol}

/-- No operator of this rung or of a tighter one may come next. -/
def ClosedTo (level : Nat) (stack : List Symbol) : Prop :=
  ∀ k rank, k.rank? = some rank → level ≤ rank → ¬ Begins stack k

theorem ClosedTo.mono {low high : Nat} (closed : ClosedTo low stack) (le : low ≤ high) :
    ClosedTo high stack :=
  fun k rank known above => closed k rank known (Nat.le_trans le above)

/-- A mark that is no operator closes every rung. -/
theorem closedTo_mark {level : Nat} {kind : TokenKind} (none : kind.rank? = none) :
    ClosedTo level (.mark kind :: stack) := by
  rintro k rank known _ rfl
  cases none.symm.trans known

theorem ClosedTo.links {r : Rung} (closed : ClosedTo r.level stack) :
    ClosedTo (r.level + 1) (.phrase (.links r) :: stack) := by
  rintro k rank known above (⟨op, onRung, rfl⟩ | ⟨_, begins⟩)
  · cases op.rank?_kind.symm.trans known
    omega
  · exact closed k rank known (by omega) begins

theorem ClosedTo.assigned (closed : ClosedTo 0 stack) : ClosedTo 1 (.phrase .assigned :: stack) := by
  rintro k rank known above (rfl | ⟨_, begins⟩)
  · cases known
    cases above
  · exact closed k rank known (Nat.zero_le rank) begins

section

variable {e : Parse Expr}
  (inner : ∀ stack, ClosedTo 0 stack → Tracks AnyKind (.phrase .expression :: stack) e fun _ => stack)
include inner

theorem tracks_primary : Tracks AnyKind (.phrase .primary :: stack) (primary e) fun _ => stack := by
  have atLeaf (k : TokenKind) (leaf : Symbol.leaf.Matches k) :
      Predicts k (.phrase .primary :: stack) (.leaf :: stack) := by
    have notSuper : k ≠ .kwSuper := by rintro rfl; cases leaf
    have notParen : k ≠ .leftParen := by rintro rfl; cases leaf
    exact predicts_production [.leaf] (by simp [productions])
      (by simp [productions, notSuper, notParen])
  have notLeaf : ¬ Symbol.leaf.Matches .eof := Bool.false_ne_true
  refine tracks_takeSome leaf?_isSome_iff notLeaf (fun k _ => atLeaf k) (fun _ => tracks_pure) ?_
  refine tracks_alternative [.mark .dot, .mark .identifier] (by simp [productions])
    (by simp [productions, isLeaf]) (fun _ => ?_) ?_
  · exact .bind (tracks_expect (by decide)) fun _ => .bind (tracks_expect (by decide)) fun _ => tracks_pure
  refine tracks_alternative [.phrase .expression, .mark .rightParen] (by simp [productions])
    (by simp [productions, isLeaf]) (fun _ => ?_) ?_
  · exact (inner _ (closedTo_mark rfl)).bind fun _ => .bind (tracks_expect (by decide)) fun _ => tracks_pure
  · refine tracks_unexpected fun k other => ?_
    rintro (opens | ⟨empty, _⟩)
    · obtain ⟨⟨⟨_, notLeaf⟩, notSuper⟩, notParen⟩ := other
      exact (startsOperand_cases opens).elim notLeaf fun marks => marks.elim notSuper notParen
    · simp [productions] at empty

theorem tracks_arguments :
    Tracks AnyKind (.phrase (.list .argument) :: .mark .rightParen :: stack) (separatedUnless .rightParen e)
      fun _ => .mark .rightParen :: stack := by
  refine tracks_list (inner _ ?_) Bool.false_ne_true (by decide)
  rintro k rank known _ (rfl | ⟨_, rfl⟩) <;> cases known

theorem tracks_suffix (closed : ClosedTo 8 stack) (target : Expr) :
    Tracks AnyKind (.phrase .suffixes :: stack) (suffix e target) (afterStep .suffixes stack) := by
  have noParen : ¬ Begins stack .leftParen := closed _ 8 rfl (Nat.le_refl 8)
  have noDot : ¬ Begins stack .dot := closed _ 8 rfl (Nat.le_refl 8)
  refine tracks_alternative [.phrase (.list .argument), .mark .rightParen, .phrase .suffixes]
    (by simp [productions]) (by simp [productions, noParen]) (fun _ => ?_) ?_
  · refine (tracks_arguments inner).bind fun arguments => .bind (tracks_expect (by decide)) fun _ => ?_
    exact tracks_pure_to rfl
  refine tracks_alternative [.mark .identifier, .phrase .suffixes]
    (by simp [productions]) (by simp [productions, noDot]) (fun _ => ?_) ?_
  · exact .bind (tracks_expect (by decide)) fun _ => tracks_pure_to rfl
  · refine .predict (fun k other => predicts_skip (by simp [productions]) ?_) (tracks_pure_to rfl)
    rintro (rfl | rfl)
    · exact other.1.2 rfl
    · exact other.2 rfl

theorem tracks_call (closed : ClosedTo 8 stack) :
    Tracks AnyKind (.phrase .call :: stack) (call e) fun _ => stack := by
  refine .predict (fun k _ => predicts_only [.phrase .primary, .phrase .suffixes] rfl) ?_
  exact (tracks_primary inner).bind fun first => tracks_steps (tracks_suffix inner closed) first

theorem tracks_unary (closed : ClosedTo 8 stack) (levels : Nat) :
    Tracks AnyKind (.phrase .unary :: stack) (unary e levels) fun _ => stack := by
  have atSign (k : TokenKind) (sign : Symbol.sign.Matches k) :
      Predicts k (.phrase .unary :: stack) (.sign :: .phrase .unary :: stack) := by
    have noOperand : startsOperand k = false := by
      obtain ⟨op, rfl⟩ := sign
      cases op <;> rfl
    exact predicts_production [.sign, .phrase .unary] (by simp [productions])
      (by simp [productions, Nonterminal.Opens, noOperand])
  have atOperand (k : TokenKind) (other : ¬ Symbol.sign.Matches k) :
      Predicts k (.phrase .unary :: stack) (.phrase .call :: stack) :=
    predicts_production [.phrase .call] (by simp [productions]) (by simp [productions, other])
  induction levels with
  | zero =>
    refine tracks_peek fun kind _ => ?_
    split
    next => exact tracks_shallowNesting.bind fun _ => tracks_call inner closed
    next other =>
      rw [unaryOp?_isSome_iff] at other
      exact .predict (fun k same => atOperand k (same ▸ other)) (tracks_call inner closed).any
  | succ levels ih =>
    refine tracks_takeSome (s := .sign) (fun token => unaryOp?_isSome_iff token.kind)
      (by rintro ⟨op, same⟩; cases op <;> cases same) (fun k _ => atSign k) (fun op => ?_) ?_
    · exact ih.bind fun _ => tracks_pure
    · exact .predict (fun k other => atOperand k other.2) (tracks_call inner closed).any

end

section

variable {r : Rung} {operand : Parse Expr}

theorem tracks_link {ο : Type} {op? : TokenKind → Option ο} {node : ο → Expr → Expr → Expr}
    (on : OnRung r.level op? node) (closed : ClosedTo r.level stack)
    (tracks : ∀ stack, ClosedTo (r.level + 1) stack →
      Tracks AnyKind (.phrase r.operand :: stack) operand fun _ => stack) (left : Expr) :
    Tracks AnyKind (.phrase (.links r) :: stack) (link op? node operand left)
      (afterStep (.links r) stack) := by
  have further (k : TokenKind) (isOperator : (Symbol.operator r).Matches k) :
      Predicts k (.phrase (.links r) :: stack)
        (.operator r :: .phrase r.operand :: .phrase (.links r) :: stack) := by
    refine predicts_next [.operator r, .phrase r.operand, .phrase (.links r)] rfl ?_
    obtain ⟨op, onRung, rfl⟩ := isOperator
    exact closed _ op.rung op.rank?_kind (Nat.le_of_eq onRung.symm)
  refine tracks_takeSome (s := .operator r) (fun token => on.isSome_iff token.kind) ?_
    (fun k _ => further k) (fun op => ?_) ?_
  · rintro ⟨op, _, isEnd⟩
    exact op.kind_ne_eof isEnd.symm
  · exact (tracks _ closed.links).bind fun right => tracks_pure_to rfl
  · exact .predict (fun k other => predicts_skip (by simp [productions]) other.2) (tracks_pure_to rfl)

theorem tracks_chain {ο : Type} {op? : TokenKind → Option ο} {node : ο → Expr → Expr → Expr}
    (on : OnRung r.level op? node)
    (tracks : ∀ stack, ClosedTo (r.level + 1) stack →
      Tracks AnyKind (.phrase r.operand :: stack) operand fun _ => stack)
    (stack : List Symbol) (closed : ClosedTo r.level stack) :
    Tracks AnyKind (.phrase (.rung r) :: stack) (chain op? node operand) fun _ => stack := by
  refine .predict (fun k _ => predicts_only [.phrase r.operand, .phrase (.links r)] rfl) ?_
  exact (tracks _ closed.links).bind fun first => tracks_steps (tracks_link on closed tracks) first

end

section

variable {e : Parse Expr}
  (inner : ∀ stack, ClosedTo 0 stack → Tracks AnyKind (.phrase .expression :: stack) e fun _ => stack)
include inner

/-- Each rung is a chain of operands of the next one. -/
theorem tracks_logicOr (levels : Nat) (closed : ClosedTo 1 stack) :
    Tracks AnyKind (.phrase (.rung .or) :: stack) (logicOr e levels) fun _ => stack := by
  have operands (stack : List Symbol) (closed : ClosedTo 7 stack) :
      Tracks AnyKind (.phrase .unary :: stack) (unary e levels) fun _ => stack :=
    tracks_unary inner (closed.mono (by decide)) levels
  have products := tracks_chain (r := .product) TokenKind.factorOp?_onRung operands
  have sums := tracks_chain (r := .sum) TokenKind.termOp?_onRung products
  have comparisons := tracks_chain (r := .comparison) TokenKind.comparisonOp?_onRung sums
  have equalities := tracks_chain (r := .equality) TokenKind.equalityOp?_onRung comparisons
  have ands := tracks_chain (r := .and) TokenKind.andOp?_onRung equalities
  exact tracks_chain (r := .or) TokenKind.orOp?_onRung ands stack closed

theorem tracks_assignment (levels : Nat) (closed : ClosedTo 0 stack) :
    Tracks AnyKind (.phrase .expression :: stack) (assignment e levels) fun _ => stack := by
  have value :
      Predicts .equal (.phrase .assigned :: stack) (.mark .equal :: .phrase .expression :: stack) :=
    predicts_next [.mark .equal, .phrase .expression] rfl (closed _ 0 rfl (Nat.le_refl 0))
  refine .predict (fun k _ => predicts_only [.phrase (.rung .or), .phrase .assigned] rfl) ?_
  refine (tracks_logicOr inner levels closed.assigned).bind fun target => ?_
  refine tracks_accept (by decide) (fun _ => value) (fun sign => ?_) ?_
  · refine (inner stack closed).bind fun value => ?_
    split
    · exact tracks_pure
    · exact tracks_pure
    · exact tracks_invalidTarget
  · exact .predict (fun k other => predicts_skip (by simp [productions]) other.2) tracks_pure

end

theorem tracks_expression (levels : Nat) (stack : List Symbol) (closed : ClosedTo 0 stack) :
    Tracks AnyKind (.phrase .expression :: stack) (expression levels) fun _ => stack := by
  induction levels generalizing stack with
  | zero => exact tracks_shallowNesting
  | succ levels ih => exact tracks_assignment ih levels closed

end Parse

end LoxFrontEnd
