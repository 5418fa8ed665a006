import LoxFrontEnd.Proofs.Parse.Ladder
import LoxFrontEnd.Proofs.Parse.Locality

/-!
Rules in front of a mark. No rule of expressions takes a semicolon or a closing brace, so it does the
same in front of one whatever stands behind it. A statement without braces ends with the mark or fails
in front of it.
-/

namespace LoxFrontEnd.Parse

variable {α β ι : Type} {mark : Token} {rest rest' : List Token}

/-- In front of the mark, with these tokens behind it, two rules do the same. They take nothing behind
the tokens in front of the mark, and tell nothing. -/
def Parallel (mark : Token) (rest rest' : List Token) (p q : Parse α) : Prop :=
  ∀ tokens last last', ∃ result left place place', left <:+ tokens ∧
    p ⟨tokens ++ mark :: rest, last⟩ = ⟨result, ⟨left ++ mark :: rest, place⟩, []⟩ ∧
    q ⟨tokens ++ mark :: rest', last'⟩ = ⟨result, ⟨left ++ mark :: rest', place'⟩, []⟩

theorem kind_before_mark (tokens : List Token) (last last' : Position) :
    Input.kind ⟨tokens ++ mark :: rest, last⟩ = Input.kind ⟨tokens ++ mark :: rest', last'⟩ := by
  cases tokens <;> rfl

theorem unexpected_before_mark (expected : Expected) (tokens : List Token) (last last' : Position) :
    Input.unexpected ⟨tokens ++ mark :: rest, last⟩ expected =
      Input.unexpected ⟨tokens ++ mark :: rest', last'⟩ expected := by
  cases tokens <;> rfl

theorem parallel_pure (a : α) : Parallel mark rest rest' (pure a) (pure a) :=
  fun tokens last last' => ⟨.ok a, tokens, last, last', List.suffix_rfl, rfl, rfl⟩

theorem parallel_fail (e : ParseError) : Parallel mark rest rest' (fail e : Parse α) (fail e) :=
  fun tokens last last' => ⟨.error e, tokens, last, last', List.suffix_rfl, rfl, rfl⟩

theorem parallel_unexpected (expected : Expected) :
    Parallel mark rest rest' (unexpected expected : Parse α) (unexpected expected) := by
  intro tokens last last'
  refine ⟨_, tokens, last, last', List.suffix_rfl, rfl, ?_⟩
  rw [unexpected, unexpected_before_mark]

theorem parallel_peek : Parallel mark rest rest' peek peek := by
  intro tokens last last'
  refine ⟨_, tokens, last, last', List.suffix_rfl, rfl, ?_⟩
  rw [peek, kind_before_mark]

theorem Parallel.bind {p q : Parse α} {f g : α → Parse β} (first : Parallel mark rest rest' p q)
    (next : ∀ a, Parallel mark rest rest' (f a) (g a)) : Parallel mark rest rest' (p >>= f) (q >>= g) := by
  intro tokens last last'
  obtain ⟨result, left, place, place', within, run, run'⟩ := first tokens last last'
  cases result with
  | error e => exact ⟨.error e, left, place, place', within, bind_of_error run, bind_of_error run'⟩
  | ok a =>
    obtain ⟨result, left', later, later', within', run₂, run₂'⟩ := next a left place place'
    refine ⟨result, left', later, later', within'.trans within, ?_, ?_⟩
    · rw [bind_of_ok run, run₂, behind_nil]
    · rw [bind_of_ok run', run₂', behind_nil]

theorem Parallel.map {p q : Parse α} (first : Parallel mark rest rest' p q) (f : α → β) :
    Parallel mark rest rest' (f <$> p) (f <$> q) := by
  rw [map_eq_pure_bind, map_eq_pure_bind]
  exact first.bind fun a => parallel_pure (f a)

theorem parallel_takeSome {choose : Token → Option α} (refused : choose mark = none) :
    Parallel mark rest rest' (takeSome choose) (takeSome choose) := by
  intro tokens last last'
  cases tokens with
  | nil =>
    exact ⟨.ok none, [], last, last', List.suffix_rfl, takeSome_of_none refused, takeSome_of_none refused⟩
  | cons token tokens =>
    cases chosen : choose token with
    | none =>
      exact ⟨.ok none, token :: tokens, last, last', List.suffix_rfl, takeSome_of_none chosen,
        takeSome_of_none chosen⟩
    | some a =>
      exact ⟨.ok (some a), tokens, token.position, token.position, List.suffix_cons token tokens,
        takeSome_of_some chosen, takeSome_of_some chosen⟩

theorem parallel_accept {kind : TokenKind} (other : mark.kind ≠ kind) :
    Parallel mark rest rest' (accept kind) (accept kind) :=
  parallel_takeSome (if_neg other)

theorem parallel_expect {kind : TokenKind} (other : mark.kind ≠ kind) (expected : Expected) :
    Parallel mark rest rest' (expect kind expected) (expect kind expected) := by
  refine (parallel_accept other).bind fun o => ?_
  cases o with
  | none => exact parallel_unexpected expected
  | some token => exact parallel_pure token

/-- The guard of the recursion lets both rules make the same calls, since it counts the tokens in front of
the mark. -/
theorem parallel_recursive {rule : (ι → Parse α) → ι → Parse α}
    (turn : ∀ again again' : ι → Parse α, (∀ i, Parallel mark rest rest' (again i) (again' i)) →
      ∀ i, Parallel mark rest rest' (rule again i) (rule again' i)) (i : ι) :
    Parallel mark rest rest' (recursive rule i) (recursive rule i) := by
  intro tokens last last'
  induction size : tokens.length using Nat.strongRecOn generalizing i tokens last last' with
  | _ size ih =>
    subst size
    rw [recursive_apply, recursive_apply]
    refine turn _ _ (fun j left place place' => ?_) i tokens last last'
    rw [guarded, guarded]
    simp only [List.length_append, Nat.add_lt_add_iff_right]
    by_cases shorter : left.length < tokens.length
    · rw [if_pos shorter, if_pos shorter]
      exact ih _ shorter j left place place' rfl
    · rw [if_neg shorter, if_neg shorter]
      exact parallel_unexpected .shallowNesting left place place'

theorem parallel_steps {step : α → Parse (Option α)}
    (one : ∀ a, Parallel mark rest rest' (step a) (step a)) (a : α) :
    Parallel mark rest rest' (steps step a) (steps step a) := by
  refine parallel_recursive (fun again again' calls a => (one a).bind fun o => ?_) a
  cases o with
  | none => exact parallel_pure a
  | some b => exact calls b

theorem Parallel.extend {first : Parse α} {step : α → Parse (Option α)}
    (begins : Parallel mark rest rest' first first)
    (one : ∀ a, Parallel mark rest rest' (step a) (step a)) :
    Parallel mark rest rest' (extend first step) (extend first step) :=
  begins.bind (parallel_steps one)

theorem Parallel.separated {item : Parse α} (one : Parallel mark rest rest' item item)
    (other : mark.kind ≠ .comma) : Parallel mark rest rest' (separated item) (separated item) := by
  refine parallel_recursive (fun again again' calls _ => one.bind fun a => ?_) ()
  refine (parallel_accept other).bind fun o => ?_
  split
  · exact (calls ()).bind fun _ => parallel_pure _
  · exact parallel_pure _

theorem Parallel.separatedUnless {item : Parse α} (one : Parallel mark rest rest' item item)
    (other : mark.kind ≠ .comma) (stop : TokenKind) :
    Parallel mark rest rest' (separatedUnless stop item) (separatedUnless stop item) := by
  refine parallel_peek.bind fun kind => ?_
  split
  · exact parallel_pure []
  · exact one.separated other

/-- The tokens that a statement without braces ends in front of or with. -/
def EndsStatement (kind : TokenKind) : Prop := kind = .semicolon ∨ kind = .rightBrace

/-- The end of a statement is of no kind that a rule for expressions takes. -/
theorem EndsStatement.kind_ne {kind other : TokenKind} (ends : EndsStatement kind)
    (apart : TokenKind.semicolon ≠ other ∧ TokenKind.rightBrace ≠ other) : kind ≠ other := by
  rcases ends with rfl | rfl
  · exact apart.1
  · exact apart.2

section Expression

variable {e : Parse Expr} (ends : EndsStatement mark.kind)
include ends

theorem parallel_chain {ο : Type} {op? : TokenKind → Option ο} {node : ο → Expr → Expr → Expr}
    {level : Nat} (on : OnRung level op? node) (operand : Parallel mark rest rest' e e) :
    Parallel mark rest rest' (chain op? node e) (chain op? node e) := by
  have refused : op? mark.kind = none := by
    refine on.op?_eq_none ?_
    rcases ends with isEnd | isEnd <;> rw [isEnd] <;> exact nofun
  refine operand.extend fun left => (parallel_takeSome refused).bind fun o => ?_
  cases o with
  | none => exact parallel_pure none
  | some op => exact operand.bind fun right => parallel_pure _

variable (inner : Parallel mark rest rest' e e)
include inner

theorem parallel_primary : Parallel mark rest rest' (primary e) (primary e) := by
  have noLeaf : mark.leaf? = none := by
    unfold Token.leaf?
    rcases ends with isEnd | isEnd <;> rw [isEnd]
  refine (parallel_takeSome noLeaf).bind fun leaf => ?_
  split
  · exact parallel_pure _
  refine (parallel_accept (ends.kind_ne (by decide))).bind fun keyword => ?_
  split
  · refine (parallel_expect (ends.kind_ne (by decide)) _).bind fun _ => ?_
    exact (parallel_expect (ends.kind_ne (by decide)) _).bind fun _ => parallel_pure _
  refine (parallel_accept (ends.kind_ne (by decide))).bind fun paren => ?_
  split
  · refine inner.bind fun _ => ?_
    exact (parallel_expect (ends.kind_ne (by decide)) _).bind fun _ => parallel_pure _
  · exact parallel_unexpected _

theorem parallel_suffix (target : Expr) :
    Parallel mark rest rest' (suffix e target) (suffix e target) := by
  refine (parallel_accept (ends.kind_ne (by decide))).bind fun paren => ?_
  split
  · refine (inner.separatedUnless (ends.kind_ne (by decide)) _).bind fun _ => ?_
    exact (parallel_expect (ends.kind_ne (by decide)) _).bind fun _ => parallel_pure _
  refine (parallel_accept (ends.kind_ne (by decide))).bind fun dot => ?_
  split
  · exact (parallel_expect (ends.kind_ne (by decide)) _).bind fun _ => parallel_pure _
  · exact parallel_pure none

theorem parallel_call : Parallel mark rest rest' (call e) (call e) :=
  (parallel_primary ends inner).extend (parallel_suffix ends inner)

theorem parallel_unary (levels : Nat) :
    Parallel mark rest rest' (unary e levels) (unary e levels) := by
  induction levels with
  | zero =>
    refine parallel_peek.bind fun kind => ?_
    split
    · exact (parallel_unexpected _).bind fun _ => parallel_call ends inner
    · exact (parallel_pure ()).bind fun _ => parallel_call ends inner
  | succ levels ih =>
    have noOperator : mark.kind.unaryOp? = none := by
      rcases ends with isEnd | isEnd <;> rw [isEnd] <;> rfl
    refine (parallel_takeSome noOperator).bind fun o => ?_
    cases o with
    | none => exact parallel_call ends inner
    | some op => exact ih.bind fun _ => parallel_pure _

theorem parallel_logicOr (levels : Nat) :
    Parallel mark rest rest' (logicOr e levels) (logicOr e levels) := by
  have factors := parallel_chain ends TokenKind.factorOp?_onRung (parallel_unary ends inner levels)
  have terms := parallel_chain ends TokenKind.termOp?_onRung factors
  have comparisons := parallel_chain ends TokenKind.comparisonOp?_onRung terms
  have equalities := parallel_chain ends TokenKind.equalityOp?_onRung comparisons
  exact parallel_chain ends TokenKind.orOp?_onRung (parallel_chain ends TokenKind.andOp?_onRung equalities)

theorem parallel_assignment (levels : Nat) :
    Parallel mark rest rest' (assignment e levels) (assignment e levels) := by
  refine (parallel_logicOr ends inner levels).bind fun target => ?_
  refine (parallel_accept (ends.kind_ne (by decide))).bind fun sign => ?_
  cases sign with
  | none => exact parallel_pure target
  | some sign =>
    refine inner.bind fun value => ?_
    split
    · exact parallel_pure _
    · exact parallel_pure _
    · exact parallel_fail _

end Expression

theorem parallel_expression (ends : EndsStatement mark.kind) (levels : Nat) :
    Parallel mark rest rest' (expression levels) (expression levels) := by
  induction levels with
  | zero => exact parallel_unexpected .shallowNesting
  | succ levels ih => exact parallel_assignment ends ih levels

end LoxFrontEnd.Parse
