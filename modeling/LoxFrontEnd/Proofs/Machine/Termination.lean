import LoxFrontEnd.Proofs.Machine.Simulation

/-!
Parsing ends on every list of tokens. A turn of a loop leaves the loop, or it leaves fewer tokens to
the next turn, and that holds of the turns that fail and recover as well. The token that a loop looks
at first is what makes this true: recovery keeps a token where a body ends, and there no item begins.
-/

namespace LoxFrontEnd.Machine

variable {α β ι : Type} {limit bound : Nat} {r r' : Registers}

/-- A turn leaves its loop whatever the next turn would do, or it hands on to a next turn, on fewer
tokens than `bound`. -/
def EndsOrShortens (limit bound : Nat) (r : Registers) (turn : (ι → Machine α) → Machine β) : Prop :=
  (∀ again again', turn again limit r = turn again' limit r) ∨
    ∃ i r', r'.input.tokens.length < bound ∧
      ∀ again again', again i limit r' = again' i limit r' → turn again limit r = turn again' limit r

section Turn

variable {m m' : Machine α}

theorem bind_of_eq {f : α → Machine β} (same : m limit r = m' limit r) :
    (m >>= f) limit r = (m' >>= f) limit r := by
  show Machine.bind m f limit r = Machine.bind m' f limit r
  rw [Machine.bind, Machine.bind, same]

theorem ends_of_leaves (m : Machine β) : EndsOrShortens limit bound r fun _ : ι → Machine α => m :=
  Or.inl fun _ _ => rfl

theorem shortens_of_again (shorter : r.input.tokens.length < bound) (i : ι) (f : α → Machine β) :
    EndsOrShortens limit bound r fun again : ι → Machine α => again i >>= f :=
  Or.inr ⟨i, r, shorter, fun _ _ same => bind_of_eq same⟩

/-- What a turn does first does not hang on the next turn. -/
theorem EndsOrShortens.bind {γ : Type} {f : (ι → Machine α) → γ → Machine β} {m : Machine γ}
    (next : ∀ a r', m limit r = some (.ok a, r') → EndsOrShortens limit bound r' fun again => f again a) :
    EndsOrShortens limit bound r fun again => m >>= f again := by
  rcases run : m limit r with _ | ⟨e | a, r'⟩
  · refine Or.inl fun again again' => ?_
    show Machine.bind m (f again) limit r = Machine.bind m (f again') limit r
    rw [Machine.bind, Machine.bind, run]
  · exact Or.inl fun again again' => (bind_of_error run).trans (bind_of_error run).symm
  · rcases next a r' run with leaves | ⟨i, later, shorter, hands⟩
    · exact Or.inl fun again again' =>
        (bind_of_ok run).trans ((leaves again again').trans (bind_of_ok run).symm)
    · refine Or.inr ⟨i, later, shorter, fun again again' same => ?_⟩
      exact (bind_of_ok run).trans ((hands again again' same).trans (bind_of_ok run).symm)

theorem Meets.length_le {p : Parse α} {a : α} (meets : Meets limit r m p) (forward : Parse.Forward p)
    (run : m limit r = some (.ok a, r')) : r'.input.tokens.length ≤ r.input.tokens.length := by
  rw [meets] at run
  obtain ⟨-, rfl⟩ := Prod.mk.inj (Option.some.inj run)
  exact forward.length_le r.input

theorem Meets.shorter {m : Machine (Option α)} {p : Parse (Option α)} {a : α} (meets : Meets limit r m p)
    (shortens : Parse.Shortens p) (run : m limit r = some (.ok (some a), r')) :
    r'.input.tokens.length < r.input.tokens.length := by
  rw [meets] at run
  obtain ⟨isSome, rfl⟩ := Prod.mk.inj (Option.some.inj run)
  rcases outcome : p r.input with ⟨result, rest, events⟩
  rw [outcome] at isSome
  obtain rfl : result = .ok (some a) := isSome
  exact shortens r.input a rest events outcome

/-- A step answers with a value only behind a token that it took. -/
theorem stepsTurn_ends {step : α → Machine (Option α)} {a : α}
    (shorter : ∀ b r', step a limit r = some (.ok (some b), r') → r'.input.tokens.length < bound) :
    EndsOrShortens limit bound r fun again => stepsTurn step again a := by
  refine EndsOrShortens.bind fun o r' run => ?_
  cases o with
  | none => exact ends_of_leaves (pure a)
  | some b => exact Or.inr ⟨b, r', shorter b r' run, fun _ _ same => same⟩

/-- A comma is taken before there is another item. -/
theorem separatedTurn_ends {item : Machine α} {p : Parse α} (meets : Meets limit r item p)
    (forward : Parse.Forward p) :
    EndsOrShortens limit r.input.tokens.length r fun again => separatedTurn item again () := by
  refine EndsOrShortens.bind fun a r' run => EndsOrShortens.bind fun comma r'' run' => ?_
  cases comma with
  | none => exact ends_of_leaves (pure [a])
  | some comma =>
    have less := meets.length_le forward run
    have fewer := (meets_lift (Parse.accept .comma)).shorter (Parse.shortens_takeSome _) run'
    exact shortens_of_again (Nat.lt_of_lt_of_le fewer less) () _

/-- An item is read only where the list does not end, and takes a token there. -/
theorem manyTurn_ends {stop : TokenKind → Bool} {item : Machine (Option α)} {p : Parse (Option α)}
    (meets : Meets limit r item p)
    (shorter : stop r.input.kind = false → (p r.input).rest.tokens.length < r.input.tokens.length) :
    EndsOrShortens limit r.input.tokens.length r fun again => manyTurn stop item again () := by
  refine EndsOrShortens.bind fun kind r' peeked => ?_
  rw [peek_eq] at peeked
  cases peeked
  cases goes : stop r.input.kind with
  | true => exact ends_of_leaves (pure [])
  | false =>
    refine EndsOrShortens.bind fun first r' run => ?_
    rw [meets] at run
    obtain ⟨-, rfl⟩ := Prod.mk.inj (Option.some.inj run)
    exact shortens_of_again (shorter goes) () _

end Turn

/-- The loops of the machine, with what it counts where it comes to them. A program is read outside of
all braces. -/
inductive Loop : {ι α : Type} → Counts → ((ι → Machine α) → ι → Machine α) → Prop
  | program {c : Counts} : c.braces = 0 → Loop c (manyTurn (· = .eof) (recovering declaration))
  | block {c : Counts} : Loop c (manyTurn Parse.endsBody (recovering declaration))
  | methods {c : Counts} : Loop c (manyTurn Parse.endsBody (recovering (function declaration .method)))
  | parameters {c : Counts} : Loop c (separatedTurn parameter)
  | arguments {c : Counts} : Loop c (separatedTurn expression)
  | factors {c : Counts} : Loop c (stepsTurn (link TokenKind.factorOp? .binary (unary expression)))
  | terms {c : Counts} : Loop c (stepsTurn (link TokenKind.termOp? .binary (factor expression)))
  | comparisons {c : Counts} : Loop c (stepsTurn (link TokenKind.comparisonOp? .binary (term expression)))
  | equalities {c : Counts} :
      Loop c (stepsTurn (link TokenKind.equalityOp? .binary (comparison expression)))
  | conjunctions {c : Counts} : Loop c (stepsTurn (link TokenKind.andOp? .logical (equality expression)))
  | disjunctions {c : Counts} : Loop c (stepsTurn (link TokenKind.orOp? .logical (logicAnd expression)))
  | signs {c : Counts} : Loop c (stepsTurn sign)
  | suffixes {c : Counts} : Loop c (stepsTurn (suffix expression))

/-- An operator is taken before there is another operand. -/
theorem link_ends {ο : Type} {op? : TokenKind → Option ο} {node : ο → Expr → Expr → Expr}
    {operand : Machine Expr} {p : Parse Expr} {levels : Nat}
    (realizes : Realizes limit limit (OnLevel levels) operand p) (forward : Parse.Forward p)
    (within : r.input.tokens.length < limit) (level : OnLevel levels r.counts) (left : Expr) :
    EndsOrShortens limit r.input.tokens.length r fun again =>
      stepsTurn (link op? node operand) again left :=
  stepsTurn_ends fun _ _ =>
    (realizes_link op? node realizes left r within level).shorter (Parse.shortens_link forward left)

theorem sign_shorter {operators operators' : List UnaryOp}
    (run : sign operators limit r = some (.ok (some operators'), r')) :
    r'.input.tokens.length < r.input.tokens.length := by
  cases isSign : r.input.kind.unaryOp? with
  | none =>
    rw [sign_none isSign] at run
    cases run
  | some op =>
    by_cases spent : maxNesting ≤ r.counts.nesting + operators.length
    · rw [sign_spent isSign spent] at run
      cases run
    · obtain ⟨later, taken⟩ := takes_sign isSign
      rw [sign_some isSign (Nat.lt_of_not_le spent) taken] at run
      cases run
      exact Parse.shortens_takeSome _ _ _ _ _ taken

theorem Loop.endsOrShortens {turn : (ι → Machine α) → ι → Machine α} (loop : Loop r.counts turn)
    (within : r.input.tokens.length < limit) (deep : maxNesting < limit) (i : ι) :
    EndsOrShortens limit r.input.tokens.length r fun again => turn again i := by
  obtain ⟨levels, level⟩ : ∃ levels, OnLevel levels r.counts := ⟨_, rfl⟩
  have deep' : levels < limit := Nat.lt_of_le_of_lt (level ▸ Nat.sub_le _ _) deep
  have expression := realizes_expression (Nat.le_refl limit) deep'
  have forward := Parse.forward_expression levels
  have declaration := realizes_declaration (Nat.le_refl limit) deep'
  have onward := Parse.forward_declaration levels
  have takes := Parse.takes_declaration levels
  have go := Parse.forward_sequential
  have item := declaration r within level
  cases loop with
  | program outside =>
    have ends : Parse.Ends (· = .eof) (decide (0 < r.counts.braces)) := by
      rw [outside]
      exact Parse.ends_input
    exact manyTurn_ends (item.recovering .declaration) (ends.shorter takes onward _ r.input)
  | block =>
    exact manyTurn_ends (item.recovering .declaration) ((Parse.ends_body _).shorter takes onward _ r.input)
  | methods =>
    have method := realizes_function declaration onward takes (Nat.le_refl limit) .method r within level
    exact manyTurn_ends (method.recovering .classBody)
      ((Parse.ends_body _).shorter (Parse.takes_function onward _)
      (Parse.forward_closed.function onward _) _ r.input)
  | parameters =>
    have parameter : Meets limit r parameter Parse.parameter := (meets_lift _).value _
    exact separatedTurn_ends parameter Parse.forward_parameter
  | arguments => exact separatedTurn_ends (expression r within level) forward
  | factors =>
    exact link_ends (realizes_unary expression forward (Nat.le_refl _) deep')
      (go.unary forward levels) within level i
  | terms =>
    exact link_ends (realizes_factor expression forward (Nat.le_refl _) deep')
      (go.factor forward levels) within level i
  | comparisons =>
    exact link_ends (realizes_term expression forward (Nat.le_refl _) deep')
      (go.term forward levels) within level i
  | equalities =>
    exact link_ends (realizes_comparison expression forward (Nat.le_refl _) deep')
      (go.comparison forward levels) within level i
  | conjunctions =>
    exact link_ends (realizes_equality expression forward (Nat.le_refl _) deep')
      (go.equality forward levels) within level i
  | disjunctions =>
    exact link_ends (realizes_logicAnd expression forward (Nat.le_refl _) deep')
      (go.logicAnd forward levels) within level i
  | signs => exact stepsTurn_ends fun _ _ => sign_shorter
  | suffixes =>
    exact stepsTurn_ends fun _ _ =>
      (realizes_suffix expression forward (Nat.le_refl _) i r within level).shorter
      (Parse.shortens_suffix forward i)

/-- On every list of tokens, whatever a session has in its queue and wherever it stands: each turn of
a loop leaves the loop or leaves fewer tokens, and each call has its answer, within every limit above
the number of tokens and the depth of nesting. A program is read up to the end of input. -/
theorem parsing_ends (s : Session) (limit : Nat) (within : s.input.tokens.length < limit)
    (deep : maxNesting < limit) :
    (∀ (ι α : Type) (r : Registers) (turn : (ι → Machine α) → ι → Machine α) (i : ι),
      r.input.tokens.length < limit → Loop r.counts turn →
      EndsOrShortens limit r.input.tokens.length r fun again => turn again i) ∧
    (∀ call, answer limit ⟨s, .zero⟩ call = some ((s.call call).result, ⟨(s.call call).session, .zero⟩)) ∧
    s.program.session.input.kind = .eof := by
  refine ⟨fun _ _ r turn i short loop => loop.endsOrShortens short deep i, answer_eq within deep, ?_⟩
  obtain ⟨ss, rest, events, items⟩ := Parse.items_declarations s.input
  have ends : rest.kind = .eof := of_decide_eq_true items.ends
  have read : Session.declarations s.input = ⟨.ok ss, rest, events⟩ := items.many_eq
  rw [Session.program, read]
  exact ends

/-- A closing brace that no block is open for, without an end mark behind it. -/
theorem parsing_ends_unopened :
    let s : Session := ⟨⟨[⟨.rightBrace, "\x7d", ⟨1, 1⟩⟩], .start⟩, []⟩
    s.input.tokens.length < 129 ∧ maxNesting < 129 ∧
      (∀ call, answer 129 ⟨s, .zero⟩ call = some ((s.call call).result, ⟨(s.call call).session, .zero⟩)) ∧
      EndsOrShortens 129 1 ⟨s, .zero⟩ (fun again => manyTurn (· = .eof) (recovering declaration) again ()) ∧
      s.program.session = ⟨⟨[], ⟨1, 1⟩⟩, []⟩ := by
  intro s
  have within : s.input.tokens.length < 129 := by decide
  have deep : maxNesting < 129 := by decide
  obtain ⟨turns, answers, ends⟩ := parsing_ends s 129 within deep
  refine ⟨within, deep, answers, turns Unit (List Stmt) ⟨s, .zero⟩ _ () within (.program rfl), ?_⟩
  decide +kernel

end LoxFrontEnd.Machine
