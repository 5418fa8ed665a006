import LoxFrontEnd.Parse.Expression
import LoxFrontEnd.Proofs.Grammar.Expression

/-!
The ladder of the grammar and the one of the rules: the same leaves, the same operators on each
rung, and for every kind of token the rung on which it goes on with an expression before it.
-/

namespace LoxFrontEnd

open Grammar

theorem unquote_of_quoted {lexeme text : String} (quoted : Quoted lexeme text) :
    unquote lexeme = text := by
  have opens : lexeme.toList = '"' :: (text.toList ++ ['"']) := quoted
  simp only [unquote, opens, List.getLast?_concat, if_true, List.dropLast_concat, String.ofList_toList]

theorem unquote_of_not_quoted {lexeme : String} (bare : ∀ text, ¬ Quoted lexeme text) :
    unquote lexeme = lexeme := by
  unfold unquote
  split
  · rename_i cs opens
    split
    · rename_i closes
      obtain ⟨inner, rfl⟩ := List.getLast?_eq_some_iff.mp closes
      refine absurd ?_ (bare (String.ofList inner))
      rw [Quoted, opens, String.toList_ofList, List.cons_append]
    · rfl
  · rfl

theorem stringText_iff {lexeme text : String} : StringText lexeme text ↔ text = unquote lexeme := by
  constructor
  · rintro (quoted | ⟨rfl, bare⟩)
    · exact (unquote_of_quoted quoted).symm
    · exact (unquote_of_not_quoted bare).symm
  · rintro rfl
    by_cases quoted : ∃ text, Quoted lexeme text
    · obtain ⟨text, quoted⟩ := quoted
      rw [unquote_of_quoted quoted]
      exact Or.inl quoted
    · have bare : ∀ text, ¬ Quoted lexeme text := fun text known => quoted ⟨text, known⟩
      exact Or.inr ⟨unquote_of_not_quoted bare, bare⟩

theorem leaf_iff {token : Token} {e : Expr} : token.leaf? = some e ↔ Leaf token e := by
  constructor
  · intro h
    unfold Token.leaf? at h
    split at h <;> cases h
    · exact .number ‹_›
    · exact .bool ‹_›
    · exact .nil ‹_›
    · exact .string ‹_› (stringText_iff.mpr rfl)
    · exact .name ‹_›
    · exact .this ‹_›
  · intro leaf
    cases leaf with
    | string kind text => simp only [Token.leaf?, kind, stringText_iff.mp text]
    | _ kind => simp only [Token.leaf?, kind]

/-- The rung on which a token of this kind goes on with an expression that stands before it. -/
def TokenKind.rank? : TokenKind → Option Nat
  | .equal => some 0
  | .kwOr => some 1
  | .kwAnd => some 2
  | .equalEqual | .bangEqual => some 3
  | .greater | .greaterEqual | .less | .lessEqual => some 4
  | .plus | .minus => some 5
  | .star | .slash => some 6
  | .leftParen | .dot => some 8
  | _ => none

theorem Grammar.Operator.rank?_kind (op : Operator) : op.kind.rank? = some op.rung := by
  rcases op with op | op <;> cases op <;> rfl

/-- The operators that a rule takes, with the nodes it makes, are those of one rung. -/
structure OnRung {ο : Type} (level : Nat) (op? : TokenKind → Option ο)
    (node : ο → Expr → Expr → Expr) : Prop where
  sound : ∀ kind o, op? kind = some o → ∃ op : Operator, op.kind = kind ∧ op.rung = level ∧ op.node = node o
  complete : ∀ op : Operator, op.rung = level → ∃ o, op? op.kind = some o ∧ node o = op.node

theorem OnRung.op?_eq_none {ο : Type} {level : Nat} {op? : TokenKind → Option ο}
    {node : ο → Expr → Expr → Expr} (on : OnRung level op? node) {kind : TokenKind}
    (other : kind.rank? ≠ some level) : op? kind = none := by
  cases taken : op? kind with
  | none => rfl
  | some o =>
    obtain ⟨op, rfl, rfl, _⟩ := on.sound _ _ taken
    exact absurd op.rank?_kind other

namespace TokenKind

theorem orOp?_onRung : OnRung 1 orOp? .logical where
  sound kind op known := by
    unfold orOp? at known
    split at known <;> cases known
    exact ⟨.logical _, rfl, rfl, rfl⟩
  complete op level := by
    rcases op with op | op <;> cases op <;> cases level
    exact ⟨_, rfl, rfl⟩

theorem andOp?_onRung : OnRung 2 andOp? .logical where
  sound kind op known := by
    unfold andOp? at known
    split at known <;> cases known
    exact ⟨.logical _, rfl, rfl, rfl⟩
  complete op level := by
    rcases op with op | op <;> cases op <;> cases level
    exact ⟨_, rfl, rfl⟩

theorem equalityOp?_onRung : OnRung 3 equalityOp? .binary where
  sound kind op known := by
    unfold equalityOp? at known
    split at known <;> cases known <;> exact ⟨.binary _, rfl, rfl, rfl⟩
  complete op level := by
    rcases op with op | op <;> cases op <;> cases level <;> exact ⟨_, rfl, rfl⟩

theorem comparisonOp?_onRung : OnRung 4 comparisonOp? .binary where
  sound kind op known := by
    unfold comparisonOp? at known
    split at known <;> cases known <;> exact ⟨.binary _, rfl, rfl, rfl⟩
  complete op level := by
    rcases op with op | op <;> cases op <;> cases level <;> exact ⟨_, rfl, rfl⟩

theorem termOp?_onRung : OnRung 5 termOp? .binary where
  sound kind op known := by
    unfold termOp? at known
    split at known <;> cases known <;> exact ⟨.binary _, rfl, rfl, rfl⟩
  complete op level := by
    rcases op with op | op <;> cases op <;> cases level <;> exact ⟨_, rfl, rfl⟩

theorem factorOp?_onRung : OnRung 6 factorOp? .binary where
  sound kind op known := by
    unfold factorOp? at known
    split at known <;> cases known <;> exact ⟨.binary _, rfl, rfl, rfl⟩
  complete op level := by
    rcases op with op | op <;> cases op <;> cases level <;> exact ⟨_, rfl, rfl⟩

theorem unaryOp?_eq_some_iff {kind : TokenKind} {op : UnaryOp} :
    kind.unaryOp? = some op ↔ kind = prefixKind op := by
  cases op <;> cases kind <;> simp [unaryOp?, prefixKind]

end TokenKind

end LoxFrontEnd
