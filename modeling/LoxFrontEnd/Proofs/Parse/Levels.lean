import LoxFrontEnd.Proofs.Parse.Recursion

/-!
Rules under a lower limit to nesting. Such a rule does the same as under a higher one, or else ends with the
error for nesting that is too deep. Each rule passes this on from the rule for expressions that it calls.
-/

namespace LoxFrontEnd.Parse

variable {α β ι : Type}

/-- The error that says that the nesting is too deep. -/
def TooDeep (result : Except ParseError α) : Prop :=
  ∃ found position, result = .error (.unexpectedToken .shallowNesting found position)

/-- The first rule does on every input what the second does, unless it says that the nesting is too deep. -/
def Capped (p q : Parse α) : Prop := ∀ input, p input = q input ∨ TooDeep (p input).result

theorem Capped.refl (p : Parse α) : Capped p p := fun _ => Or.inl rfl

theorem Capped.of_unexpected (q : Parse α) : Capped (unexpected .shallowNesting) q :=
  fun _ => Or.inr ⟨_, _, rfl⟩

theorem Capped.bind {p q : Parse α} {f g : α → Parse β} (first : Capped p q)
    (next : ∀ a, Capped (f a) (g a)) :
    Capped (p >>= f) (q >>= g) := by
  intro input
  have begins := first input
  rcases run : p input with ⟨e | a, rest, events⟩
  · rw [run] at begins
    rw [bind_of_error run]
    rcases begins with same | refused
    · exact Or.inl (bind_of_error same.symm).symm
    · obtain ⟨found, position, isNesting⟩ := refused
      cases isNesting
      exact Or.inr ⟨found, position, rfl⟩
  · rw [run] at begins
    rw [bind_of_ok run]
    rcases begins with same | ⟨_, _, refused⟩
    · rw [bind_of_ok same.symm]
      rcases next a rest with goes | refused
      · exact Or.inl (congrArg _ goes)
      · exact Or.inr refused
    · cases refused

theorem Capped.recursive {rule rule' : (ι → Parse α) → ι → Parse α}
    (turn : ∀ again again' : ι → Parse α, (∀ i, Capped (again i) (again' i)) →
      ∀ i, Capped (rule again i) (rule' again' i)) (i : ι) :
    Capped (recursive rule i) (recursive rule' i) := by
  intro input
  induction size : input.tokens.length using Nat.strongRecOn generalizing i input with
  | _ size ih =>
    subst size
    rw [recursive_apply, recursive_apply]
    refine turn _ _ (fun j later => ?_) i input
    by_cases shorter : later.tokens.length < input.tokens.length
    · rw [guarded_of_lt shorter, guarded_of_lt shorter]
      exact ih _ shorter j later rfl
    · rw [guarded, guarded, if_neg shorter, if_neg shorter]
      exact Or.inl rfl

theorem Capped.steps {step step' : α → Parse (Option α)} (one : ∀ a, Capped (step a) (step' a)) (a : α) :
    Capped (steps step a) (steps step' a) := by
  refine .recursive (fun again again' calls a => (one a).bind fun o => ?_) a
  cases o with
  | none => exact .refl _
  | some b => exact calls b

theorem Capped.extend {first first' : Parse α} {step step' : α → Parse (Option α)}
    (begins : Capped first first') (one : ∀ a, Capped (step a) (step' a)) :
    Capped (extend first step) (extend first' step') :=
  begins.bind (.steps one)

theorem Capped.separated {item item' : Parse α} (one : Capped item item') :
    Capped (separated item) (separated item') := by
  refine .recursive (fun again again' calls _ => one.bind fun a => (Capped.refl _).bind fun comma => ?_) ()
  split
  · exact (calls ()).bind fun _ => .refl _
  · exact .refl _

theorem Capped.separatedUnless {item item' : Parse α} (one : Capped item item') (stop : TokenKind) :
    Capped (separatedUnless stop item) (separatedUnless stop item') := by
  refine (Capped.refl _).bind fun kind => ?_
  split
  · exact .refl _
  · exact one.separated

section Expression

variable {e e' : Parse Expr} {levels levels' : Nat} (inner : Capped e e')
include inner

theorem Capped.chain {ο : Type} (op? : TokenKind → Option ο) (node : ο → Expr → Expr → Expr) :
    Capped (chain op? node e) (chain op? node e') := by
  refine inner.extend fun left => (Capped.refl _).bind fun o => ?_
  cases o with
  | none => exact .refl _
  | some op => exact inner.bind fun right => .refl _

theorem Capped.primary : Capped (primary e) (primary e') := by
  refine (Capped.refl _).bind fun leaf => ?_
  split
  · exact .refl _
  refine (Capped.refl _).bind fun keyword => ?_
  split
  · exact .refl _
  refine (Capped.refl _).bind fun paren => ?_
  split
  · exact inner.bind fun _ => .refl _
  · exact .refl _

theorem Capped.suffix (target : Expr) : Capped (suffix e target) (suffix e' target) := by
  refine (Capped.refl _).bind fun paren => ?_
  split
  · exact (inner.separatedUnless _).bind fun _ => .refl _
  · exact .refl _

theorem Capped.call : Capped (call e) (call e') :=
  inner.primary.extend inner.suffix

/-- With fewer levels for operators, the first one too many is refused. -/
theorem Capped.unary (le : levels ≤ levels') : Capped (unary e levels) (unary e' levels') := by
  induction levels generalizing levels' with
  | zero =>
    intro input
    cases sign : input.kind.unaryOp? with
    | none =>
      rw [unary_plain sign, unary_plain sign]
      exact inner.call input
    | some op =>
      rw [unary_spent sign]
      exact Or.inr ⟨_, _, rfl⟩
  | succ levels ih =>
    obtain ⟨higher, rfl⟩ : ∃ higher, levels' = higher + 1 := Nat.exists_eq_add_of_le' (by omega)
    refine (Capped.refl _).bind fun o => ?_
    cases o with
    | none => exact inner.call
    | some op => exact (ih (Nat.le_of_succ_le_succ le)).bind fun _ => .refl _

theorem Capped.logicOr (le : levels ≤ levels') : Capped (logicOr e levels) (logicOr e' levels') := by
  have factors := (inner.unary le).chain TokenKind.factorOp? .binary
  have terms := factors.chain TokenKind.termOp? .binary
  have comparisons := terms.chain TokenKind.comparisonOp? .binary
  have equalities := comparisons.chain TokenKind.equalityOp? .binary
  exact (equalities.chain TokenKind.andOp? .logical).chain TokenKind.orOp? .logical

theorem Capped.assignment (le : levels ≤ levels') :
    Capped (assignment e levels) (assignment e' levels') := by
  refine (inner.logicOr le).bind fun target => (Capped.refl _).bind fun sign => ?_
  cases sign with
  | none => exact .refl _
  | some sign => exact inner.bind fun value => .refl _

end Expression

/-- With fewer levels for an expression the outcome is the same, or the expression is nested too deep. -/
theorem capped_expression {levels levels' : Nat} (le : levels ≤ levels') :
    Capped (expression levels) (expression levels') := by
  induction levels generalizing levels' with
  | zero => exact .of_unexpected _
  | succ levels ih =>
    obtain ⟨higher, rfl⟩ : ∃ higher, levels' = higher + 1 := Nat.exists_eq_add_of_le' (by omega)
    have fewer := Nat.le_of_succ_le_succ le
    exact (ih fewer).assignment fewer

end LoxFrontEnd.Parse
