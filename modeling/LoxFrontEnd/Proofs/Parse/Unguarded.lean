import LoxFrontEnd.Proofs.Parse.Items

/-!
The guard of the recursion is never met. Each rule of the grammar that is tied to itself takes a token
before it calls itself, so none of its calls is refused: it is the rule over itself, whatever a
refused call would be answered with.
-/

namespace LoxFrontEnd.Parse

variable {α ι : Type}

section Turns

variable {bound : Nat}

/-- One turn of `steps`. -/
def stepsTurn (step : α → Parse (Option α)) (again : α → Parse α) (a : α) : Parse α := do
  match ← step a with
  | none => return a
  | some b => again b

/-- One turn of `separated`. -/
def separatedTurn (item : Parse α) (again : Unit → Parse (List α)) (_ : Unit) : Parse (List α) := do
  let first ← item
  if (← accept .comma).isSome then
    return first :: (← again ())
  return [first]

/-- One turn of `many`. -/
def manyTurn (stop : TokenKind → Bool) (item : Parse (Option α)) (again : Unit → Parse (List α))
    (_ : Unit) : Parse (List α) := do
  if stop (← peek) then return []
  let first ← item
  let others ← again ()
  return first.toList ++ others

theorem advances_stepsTurn {step : α → Parse (Option α)} (shortens : ∀ a, Shortens (step a))
    (forward : ∀ a, Forward (step a)) : Advances (stepsTurn step) :=
  fun _ _ _ same a => (shortens a).bind_agree (forward a) same (AgreeBelow.refl (pure a))

theorem advances_separatedTurn {item : Parse α} (forward : Forward item) :
    Advances (separatedTurn item) := by
  intro bound again again' same _
  refine forward.bind_agree fun first => agree_accept (fun comma => ?_) (AgreeBelow.refl (pure [first]))
  exact (same ()).bind fun others => pure (first :: others)

/-- Items that recover take a token, well-formed or not. -/
theorem advances_manyTurn {p : Parse α} (takes : Takes p) (forward : Forward p) {stop : TokenKind → Bool}
    {enclosed : Bool} (ends : Ends stop enclosed) (site : RecoverySite) :
    Advances (manyTurn stop (recovering site enclosed p)) := by
  intro bound again again' same _ input short
  have peeked : peek input = ⟨.ok input.kind, input, []⟩ := rfl
  rw [manyTurn, manyTurn, bind_of_ok peeked, bind_of_ok peeked]
  cases goes : stop input.kind with
  | true => rfl
  | false =>
    have shorter := ends.shorter takes forward site input goes
    obtain ⟨o, isOk⟩ := recovering_ok site enclosed p input
    rcases run : recovering site enclosed p input with ⟨result, later, events⟩
    rw [run] at shorter isOk
    obtain rfl : result = .ok o := isOk
    have fewer : later.tokens.length < bound := Nat.lt_of_lt_of_le shorter (Nat.le_of_lt_succ short)
    have others := (same ()).bind (fun as => pure (o.toList ++ as)) later fewer
    rw [if_neg Bool.false_ne_true, if_neg Bool.false_ne_true, bind_of_ok run, bind_of_ok run, others]

end Turns

/-- `Tied levels loop rule`: the loop of the grammar is this rule tied to itself. There are `levels`
for what is in it. -/
inductive Tied (levels : Nat) : {ι α : Type} → (ι → Parse α) → ((ι → Parse α) → ι → Parse α) → Prop
  | links {ο : Type} {op? : TokenKind → Option ο} {node : ο → Expr → Expr → Expr} {operand : Parse Expr} :
      Forward operand → Tied levels (steps (link op? node operand)) (stepsTurn (link op? node operand))
  | suffixes : Tied levels (steps (suffix (expression levels))) (stepsTurn (suffix (expression levels)))
  | arguments : Tied levels (fun _ => separated (expression levels)) (separatedTurn (expression levels))
  | parameters : Tied levels (fun _ => separated parameter) (separatedTurn parameter)
  | block : Tied levels (fun _ => many endsBody (recovering .declaration true (declaration levels)))
      (manyTurn endsBody (recovering .declaration true (declaration levels)))
  | methods : Tied levels
      (fun _ => many endsBody (recovering .classBody true (function (declaration levels) .method)))
      (manyTurn endsBody (recovering .classBody true (function (declaration levels) .method)))
  | program : Tied levels (fun _ => many (· = .eof) (recovering .declaration false (declaration levels)))
      (manyTurn (· = .eof) (recovering .declaration false (declaration levels)))
  | declaration : Tied levels (fun _ => declaration levels)
      fun again _ => declarationWith (expression levels) (statement levels) (again ())

namespace Tied

variable {levels : Nat} {loop : ι → Parse α} {rule : (ι → Parse α) → ι → Parse α}

theorem eq_recursive (tied : Tied levels loop rule) : loop = recursive rule := by
  cases tied <;> rfl

theorem advances (tied : Tied levels loop rule) : Advances rule := by
  have inner := forward_expression levels
  have item := forward_declaration levels
  have takes := takes_declaration levels
  cases tied with
  | links forward => exact advances_stepsTurn (shortens_link forward) (forward_sequential.link _ _ forward)
  | suffixes => exact advances_stepsTurn (shortens_suffix inner) (forward_sequential.suffix inner)
  | arguments => exact advances_separatedTurn inner
  | parameters => exact advances_separatedTurn forward_parameter
  | block => exact advances_manyTurn takes item (ends_body true) .declaration
  | methods =>
    have takes' := takes_function item .method
    exact advances_manyTurn takes' (forward_closed.function item .method) (ends_body true) .classBody
  | program => exact advances_manyTurn takes item ends_input .declaration
  | declaration => exact advances_declaration _ _

/-- A loop of the grammar is its rule over itself. Whatever a call that took no token were answered
with, the loop would be the same, so there is no such call. -/
theorem guard_unmet (tied : Tied levels loop rule) :
    loop = rule loop ∧
      ∀ p refused : ι → Parse α, (∀ i input, p i input = rule
        (fun j later =>
          if later.tokens.length < input.tokens.length then p j later else refused j later) i input) →
        p = loop := by
  obtain rfl := tied.eq_recursive
  exact ⟨funext tied.advances.recursive_eq, fun _ _ equation => funext (tied.advances.unique equation)⟩

end Tied

end LoxFrontEnd.Parse
