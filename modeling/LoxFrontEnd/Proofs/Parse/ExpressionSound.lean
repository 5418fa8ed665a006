import LoxFrontEnd.Proofs.Parse.Ladder
import LoxFrontEnd.Proofs.Parse.Recursion

/-!
What the rules of expressions read is derived by the grammar: rung by rung, from primaries down to
assignment, and then by induction on the levels that are left.
-/

namespace LoxFrontEnd.Parse

open Grammar

variable {α : Type}

/-- What a rule reads is a phrase, made of the tokens it takes. -/
def Yields (p : Parse α) (phrase : α → List Token → Prop) : Prop :=
  ∀ input a rest, Reads p input a rest → ∃ taken, input.tokens = taken ++ rest.tokens ∧ phrase a taken

section Combinators

variable {β : Type} {input rest : Input} {item : Parse α} {phrase : α → List Token → Prop}
  {phrases : List α → List Token → Prop}

theorem Yields.map (yields : Yields item phrase) (f : α → β) :
    Yields (f <$> item) fun b taken => ∃ a, b = f a ∧ phrase a taken := by
  intro input b rest read
  obtain ⟨a, first, same⟩ := reads_map.mp read
  obtain ⟨taken, front, known⟩ := yields _ _ _ first
  exact ⟨taken, front, a, same, known⟩

/-- A phrase with a mark of this kind behind it. -/
theorem Yields.marked (yields : Yields item phrase) {kind : TokenKind} {expected : Expected}
    {f : α → β} {b : β}
    (read : Reads (item >>= fun a => expect kind expected >>= fun _ => pure (f a)) input b rest) :
    ∃ a taken mark, b = f a ∧ phrase a taken ∧ mark.kind = kind ∧
      input.tokens = taken ++ [mark] ++ rest.tokens := by
  obtain ⟨a, later, first, next⟩ := reads_bind.mp read
  obtain ⟨taken, front, known⟩ := yields _ _ _ first
  obtain ⟨mark, tokens, front', isMark, last⟩ := reads_expect_bind.mp next
  obtain ⟨rfl, rfl⟩ := reads_pure.mp last
  refine ⟨a, taken, mark, rfl, known, isMark, ?_⟩
  rw [front, front', List.append_assoc, List.singleton_append]

/-- Phrases with commas between them, one at least. -/
theorem separated_yields (one : Yields item phrase)
    (last : ∀ {a taken}, phrase a taken → phrases [a] taken)
    (more : ∀ {a b as first comma others}, phrase a first → Token.kind comma = .comma →
      phrases (b :: as) others → phrases (a :: b :: as) (first ++ comma :: others)) {as : List α}
    (read : Reads (separated item) input as rest) :
    ∃ taken, input.tokens = taken ++ rest.tokens ∧ as ≠ [] ∧ phrases as taken := by
  refine reads_recursive (P := fun (_ : Unit) input as rest =>
    ∃ taken, input.tokens = taken ++ rest.tokens ∧ as ≠ [] ∧ phrases as taken) ?_ read
  intro again ih _ input as rest read
  obtain ⟨a, later, first, next⟩ := reads_bind.mp read
  obtain ⟨taken, front, known⟩ := one _ _ _ first
  simp only [reads_accept_ite, reads_pure] at next
  rcases next with ⟨comma, tokens, front', isComma, next⟩ | ⟨_, rfl, rfl⟩
  · obtain ⟨others, later', rest', last'⟩ := reads_bind.mp next
    obtain ⟨rfl, rfl⟩ := reads_pure.mp last'
    obtain ⟨taken', front'', nonempty, known'⟩ := ih _ _ _ _ rest'
    obtain ⟨b, bs, rfl⟩ := List.exists_cons_of_ne_nil nonempty
    refine ⟨taken ++ comma :: taken', ?_, List.cons_ne_nil _ _, more known isComma known'⟩
    dsimp only at front''
    rw [front, front', front'', List.append_assoc, List.cons_append]
  · exact ⟨taken, front, List.cons_ne_nil _ _, last known⟩

theorem separatedUnless_yields {stop : TokenKind} (one : Yields item phrase) (none : phrases [] [])
    (last : ∀ {a taken}, phrase a taken → phrases [a] taken)
    (more : ∀ {a b as first comma others}, phrase a first → Token.kind comma = .comma →
      phrases (b :: as) others → phrases (a :: b :: as) (first ++ comma :: others)) :
    Yields (separatedUnless stop item) phrases := by
  intro input as rest read
  rw [separatedUnless, reads_peek_bind] at read
  split at read
  · obtain ⟨rfl, rfl⟩ := reads_pure.mp read
    exact ⟨[], rfl, none⟩
  · obtain ⟨taken, front, _, known⟩ := separated_yields one last more read
    exact ⟨taken, front, known⟩

end Combinators

section

variable {limit depth : Nat} {expression : Parse Expr}
  (inner : Yields expression fun e taken => DerivesExpr limit depth (.expression e) taken)

include inner

theorem primary_yields :
    Yields (primary expression) fun e taken => DerivesExpr limit depth (.rung 9 e) taken := by
  intro input e rest read
  simp only [primary, reads_takeSome_bind, ↓reads_accept_ite, reads_accept_bind, reads_expect_bind,
    reads_pure, not_reads_unexpected, and_false, or_false] at read
  rcases read with ⟨token, tokens, leaf, front, isLeaf, rfl, rfl⟩ | ⟨_, read⟩
  · exact ⟨[token], front, .leaf (leaf_iff.mp isLeaf)⟩
  rcases read with ⟨keyword, _, front, isSuper, dot, _, rfl, isDot, method, tokens, rfl, isName, rfl, rfl⟩ |
    ⟨_, opening, tokens, front, opens, read⟩
  · exact ⟨[keyword, dot, method], front, .super isSuper isDot isName⟩
  · obtain ⟨e, taken, closing, rfl, phrase, closes, front'⟩ := inner.marked read
    exact ⟨opening :: (taken ++ [closing]), front.trans (congrArg _ front'), .grouping opens phrase closes⟩

theorem arguments_yields : Yields (separatedUnless .rightParen expression) fun es taken =>
    DerivesExpr limit depth (.arguments es) taken :=
  separatedUnless_yields inner .noArguments .lastArgument .moreArguments

theorem suffix_grows {target e : Expr} {input later : Input}
    (read : Reads (suffix expression target) input (some e) later) :
    ∃ taken, input.tokens = taken ++ later.tokens ∧ ∀ before,
      DerivesExpr limit depth (.rung 8 target) before →
        DerivesExpr limit depth (.rung 8 e) (before ++ taken) := by
  simp only [suffix, reads_accept_ite, reads_expect_bind, reads_pure, Option.some.injEq, reduceCtorEq,
    false_and, and_false, or_false] at read
  rcases read with ⟨opening, _, front, opens, read⟩ |
    ⟨_, dot, _, front, isDot, name, tokens, rfl, isName, rfl, rfl⟩
  · obtain ⟨es, taken, closing, same, phrase, closes, front'⟩ := (arguments_yields inner).marked read
    obtain rfl := Option.some.inj same
    refine ⟨opening :: (taken ++ [closing]), front.trans (congrArg _ front'), fun before known => ?_⟩
    have longer := DerivesExpr.call known opens phrase closes
    rwa [List.append_assoc] at longer
  · exact ⟨[dot, name], front, fun before known => .getAttr known isDot isName⟩

omit inner in
theorem suffix_stays {target : Expr} {input later : Input}
    (read : Reads (suffix expression target) input none later) : later = input := by
  simp only [suffix, reads_accept_ite, reads_expect_bind, reads_pure, reduceCtorEq, false_and, and_false,
    exists_false, false_or, true_and] at read
  rcases read with ⟨_, _, _, _, read⟩ | ⟨_, _, same⟩
  · obtain ⟨es, later', _, next⟩ := reads_bind.mp read
    simp only [reads_expect_bind, reads_pure, reduceCtorEq, false_and, and_false, exists_false] at next
  · exact same

theorem call_yields :
    Yields (call expression) fun e taken => DerivesExpr limit depth (.rung 8 e) taken := by
  intro input e rest read
  obtain ⟨start, later, first, next⟩ := reads_bind.mp read
  obtain ⟨taken, front, phrase⟩ := primary_yields inner _ _ _ first
  obtain ⟨taken', front', longer⟩ := steps_phrase (Q := fun e taken =>
    DerivesExpr limit depth (.rung 8 e) taken) (fun _ _ _ _ => suffix_grows inner)
    (fun _ _ _ => suffix_stays) next
  exact ⟨taken ++ taken', by rw [front, front', List.append_assoc], longer _ (.loosen phrase)⟩

theorem prefixed_yields (levels : Nat) : Yields (unary expression levels) fun e taken =>
    ∃ count ≤ levels, DerivesExpr limit depth (.prefixed count e) taken := by
  induction levels with
  | zero =>
    intro input e rest read
    rw [unary, reads_peek_bind] at read
    dsimp only at read
    split at read
    · obtain ⟨_, _, refused, _⟩ := reads_bind.mp read
      exact absurd refused not_reads_unexpected
    · obtain ⟨taken, front, phrase⟩ := call_yields inner _ _ _ read
      exact ⟨taken, front, 0, Nat.le_refl _, .operand phrase⟩
  | succ levels ih =>
    intro input e rest read
    rw [unary, reads_takeSome_bind] at read
    rcases read with ⟨sign, tokens, op, front, isOp, read⟩ | ⟨_, read⟩
    · obtain ⟨operand, later, first, next⟩ := reads_bind.mp read
      obtain ⟨rfl, rfl⟩ := reads_pure.mp next
      obtain ⟨taken, front', count, bound, phrase⟩ := ih _ _ _ first
      have isPrefix : sign.kind = prefixKind op := TokenKind.unaryOp?_eq_some_iff.mp isOp
      refine ⟨sign :: taken, front.trans (congrArg _ front'), count + 1, ?_, .prefixed isPrefix phrase⟩
      omega
    · obtain ⟨taken, front, phrase⟩ := call_yields inner _ _ _ read
      exact ⟨taken, front, 0, Nat.zero_le _, .operand phrase⟩

theorem unary_yields {levels : Nat} (room : depth + levels ≤ limit) :
    Yields (unary expression levels) fun e taken => DerivesExpr limit depth (.rung 7 e) taken := by
  intro input e rest read
  obtain ⟨taken, front, count, bound, phrase⟩ := prefixed_yields inner levels _ _ _ read
  exact ⟨taken, front, .run (by omega) phrase⟩

omit inner in
/-- A link joins an operand to a phrase of its rung. -/
theorem link_grows {ο : Type} {level : Nat} {op? : TokenKind → Option ο} {node : ο → Expr → Expr → Expr}
    {operand : Parse Expr} (on : OnRung level op? node)
    (tighter : Yields operand fun e taken => DerivesExpr limit depth (.rung (level + 1) e) taken)
    {left e : Expr} {input later : Input} (read : Reads (link op? node operand left) input (some e) later) :
    ∃ taken, input.tokens = taken ++ later.tokens ∧ ∀ before,
      DerivesExpr limit depth (.rung level left) before →
        DerivesExpr limit depth (.rung level e) (before ++ taken) := by
  rcases reads_takeSome_bind.mp read with ⟨sign, tokens, o, front, isOp, read⟩ | ⟨_, read⟩
  · obtain ⟨right, later', second, next⟩ := reads_bind.mp read
    obtain ⟨same, rfl⟩ := reads_pure.mp next
    obtain rfl := Option.some.inj same
    obtain ⟨taken, front', phrase⟩ := tighter _ _ _ second
    obtain ⟨op, kind, rfl, node_eq⟩ := on.sound _ _ isOp
    refine ⟨sign :: taken, front.trans (congrArg _ front'), fun before known => ?_⟩
    rw [← node_eq]
    exact .join known kind.symm phrase
  · cases (reads_pure.mp read).1

omit inner in
theorem link_stays {ο : Type} {op? : TokenKind → Option ο} {node : ο → Expr → Expr → Expr}
    {operand : Parse Expr} {left : Expr} {input later : Input}
    (read : Reads (link op? node operand left) input none later) : later = input := by
  rcases reads_takeSome_bind.mp read with ⟨sign, tokens, o, _, _, read⟩ | ⟨_, read⟩
  · obtain ⟨_, _, _, next⟩ := reads_bind.mp read
    cases (reads_pure.mp next).1
  · exact (reads_pure.mp read).2

omit inner in
/-- A chain of operands makes phrases of the rung below its operands. -/
theorem chain_yields {ο : Type} {level : Nat} {op? : TokenKind → Option ο}
    {node : ο → Expr → Expr → Expr} {operand : Parse Expr} (on : OnRung level op? node)
    (tighter : Yields operand fun e taken => DerivesExpr limit depth (.rung (level + 1) e) taken) :
    Yields (chain op? node operand) fun e taken => DerivesExpr limit depth (.rung level e) taken := by
  intro input e rest read
  obtain ⟨start, later, first, next⟩ := reads_bind.mp read
  obtain ⟨taken, front, phrase⟩ := tighter _ _ _ first
  obtain ⟨taken', front', longer⟩ := steps_phrase (Q := fun e taken =>
    DerivesExpr limit depth (.rung level e) taken) (fun _ _ _ _ => link_grows on tighter)
    (fun _ _ _ => link_stays) next
  exact ⟨taken ++ taken', by rw [front, front', List.append_assoc], longer _ (.loosen phrase)⟩

theorem logicOr_yields {levels : Nat} (room : depth + levels ≤ limit) :
    Yields (logicOr expression levels) fun e taken => DerivesExpr limit depth (.rung 1 e) taken :=
  chain_yields TokenKind.orOp?_onRung <|
    chain_yields TokenKind.andOp?_onRung <|
      chain_yields TokenKind.equalityOp?_onRung <|
        chain_yields TokenKind.comparisonOp?_onRung <|
          chain_yields TokenKind.termOp?_onRung <|
            chain_yields TokenKind.factorOp?_onRung <| unary_yields inner room

theorem assignment_yields {levels : Nat} (room : depth + levels ≤ limit) :
    Yields (assignment expression levels) fun e taken => DerivesExpr limit depth (.rung 0 e) taken := by
  intro input e rest read
  obtain ⟨target, later, first, next⟩ := reads_bind.mp read
  obtain ⟨left, front, phrase⟩ := logicOr_yields inner room _ _ _ first
  rcases reads_accept_bind.mp next with ⟨sign, tokens, front', isEqual, next⟩ | ⟨_, next⟩
  · obtain ⟨value, later', second, next⟩ := reads_bind.mp next
    obtain ⟨right, front'', phrase'⟩ := inner _ _ _ second
    have whole : input.tokens = (left ++ sign :: right) ++ later'.tokens := by
      dsimp only at front''
      rw [front, front', front'', List.append_assoc, List.cons_append]
    split at next
    · obtain ⟨rfl, rfl⟩ := reads_pure.mp next
      exact ⟨_, whole, .assign phrase isEqual phrase'⟩
    · obtain ⟨rfl, rfl⟩ := reads_pure.mp next
      exact ⟨_, whole, .setAttr phrase isEqual phrase'⟩
    · exact absurd next not_reads_fail
  · obtain ⟨rfl, rfl⟩ := reads_pure.mp next
    exact ⟨left, front, .loosen phrase⟩

end

/-- What is read as an expression is one, at the depth that goes with the levels left. -/
theorem expression_yields {limit depth levels : Nat} (balance : depth + levels = limit) :
    Yields (expression levels) fun e taken => DerivesExpr limit depth (.expression e) taken := by
  induction levels generalizing depth with
  | zero =>
    intro input e rest read
    exact absurd read not_reads_unexpected
  | succ levels ih =>
    intro input e rest read
    have deeper : Yields (expression levels) fun e taken =>
        DerivesExpr limit (depth + 1) (.expression e) taken := ih (by omega)
    obtain ⟨taken, front, phrase⟩ := assignment_yields deeper (by omega) _ _ _ read
    exact ⟨taken, front, .nested (by omega) phrase⟩

end LoxFrontEnd.Parse
