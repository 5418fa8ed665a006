import LoxFrontEnd.Proofs.Parse.Recursion

/-!
Rules take tokens from the front of the input only, and what they do depends on the rest alone. A rule
that takes a token before it calls itself meets no guard: the recursion is the rule over itself,
whatever a refused call would be answered with. A declaration is such a rule.
-/

namespace LoxFrontEnd.Parse

variable {α β ι : Type}

/-- A rule leaves a rest of its input behind, with the place of the last token it took. -/
def Forward (p : Parse α) : Prop :=
  ∀ input, ∃ taken, input.tokens = taken ++ (p input).rest.tokens ∧
    (p input).rest.last = placeAfter input.last taken

theorem Forward.length_le {p : Parse α} (forward : Forward p) (input : Input) :
    (p input).rest.tokens.length ≤ input.tokens.length := by
  obtain ⟨taken, front, _⟩ := forward input
  rw [front, List.length_append]
  omega

theorem forward_of_rest_eq {p : Parse α} (stays : ∀ input, (p input).rest = input) : Forward p :=
  fun input => ⟨[], by rw [stays]; rfl, by rw [stays]; rfl⟩

theorem forward_pure (a : α) : Forward (pure a : Parse α) := forward_of_rest_eq fun _ => rfl

theorem forward_unexpected (expected : Expected) : Forward (unexpected expected : Parse α) :=
  forward_of_rest_eq fun _ => rfl

theorem forward_peek : Forward peek := forward_of_rest_eq fun _ => rfl

theorem Forward.bind {p : Parse α} {f : α → Parse β} (first : Forward p) (next : ∀ a, Forward (f a)) :
    Forward (p >>= f) := by
  intro input
  obtain ⟨taken, front, place⟩ := first input
  rcases run : p input with ⟨e | a, later, events⟩
  · rw [run] at front place
    rw [bind_of_error run]
    exact ⟨taken, front, place⟩
  · rw [run] at front place
    rw [bind_of_ok run]
    obtain ⟨taken', front', place'⟩ := next a later
    refine ⟨taken ++ taken', ?_, ?_⟩
    · rw [front, List.append_assoc]
      exact congrArg _ front'
    · rw [placeAfter_append, ← place]
      exact place'

theorem forward_takeSome (choose : Token → Option α) : Forward (takeSome choose) := by
  rintro ⟨tokens, last⟩
  cases tokens with
  | nil => exact ⟨[], rfl, rfl⟩
  | cons token tokens =>
    cases chosen : choose token with
    | none =>
      refine ⟨[], ?_, ?_⟩ <;> simp only [takeSome, chosen] <;> rfl
    | some a =>
      refine ⟨[token], ?_, ?_⟩ <;> simp only [takeSome, chosen] <;> rfl

theorem forward_accept (kind : TokenKind) : Forward (accept kind) := forward_takeSome _

theorem forward_expect (kind : TokenKind) (expected : Expected) : Forward (expect kind expected) := by
  refine (forward_accept kind).bind fun o => ?_
  cases o with
  | none => exact forward_unexpected _
  | some token => exact forward_pure token

theorem forward_recursive {rule : (ι → Parse α) → ι → Parse α}
    (turn : ∀ again : ι → Parse α, (∀ i, Forward (again i)) → ∀ i, Forward (rule again i)) (i : ι) :
    Forward (recursive rule i) := by
  refine recursive_induction (P := fun _ input outcome =>
    ∃ taken, input.tokens = taken ++ outcome.rest.tokens ∧
    outcome.rest.last = placeAfter input.last taken) (fun _ => forward_unexpected _) turn i

theorem forward_separated {item : Parse α} (one : Forward item) : Forward (separated item) := by
  refine forward_recursive (fun again rest _ => one.bind fun a => (forward_accept _).bind fun o => ?_) ()
  split
  · exact (rest ()).bind fun _ => forward_pure _
  · exact forward_pure _

theorem forward_separatedUnless {stop : TokenKind} {item : Parse α} (one : Forward item) :
    Forward (separatedUnless stop item) := by
  refine forward_peek.bind fun kind => ?_
  split
  · exact forward_pure _
  · exact forward_separated one

theorem forward_parameter : Forward parameter :=
  (forward_expect _ _).bind fun _ => forward_pure _

/-- A turn of a loop that answers with a value, so that there is another turn, has taken a token. -/
def Shortens (turn : Parse (Option α)) : Prop :=
  ∀ input a rest events, turn input = ⟨.ok (some a), rest, events⟩ →
      rest.tokens.length < input.tokens.length

theorem shortens_takeSome (choose : Token → Option α) : Shortens (takeSome choose) := by
  rintro ⟨tokens, last⟩ a rest events run
  cases tokens with
  | nil => cases run
  | cons token tokens =>
    cases chosen : choose token with
    | none =>
      rw [takeSome_of_none chosen] at run
      cases run
    | some b =>
      rw [takeSome_of_some chosen] at run
      cases run
      exact Nat.lt_succ_self _

/-- What a sequence does goes by what its first rule does there. -/
theorem bind_of_eq {p q : Parse α} {f : α → Parse β} {input : Input} (same : p input = q input) :
    (p >>= f) input = (q >>= f) input := by
  show Parse.bind p f input = Parse.bind q f input
  rw [Parse.bind, Parse.bind, same]

/-- Two rules do the same on all inputs of fewer tokens than `bound`. -/
def AgreeBelow (bound : Nat) (p q : Parse α) : Prop :=
  ∀ input, input.tokens.length < bound → p input = q input

section AgreeBelow

variable {bound : Nat} {p q : Parse α} {f g : α → Parse β}

theorem AgreeBelow.refl (p : Parse α) : AgreeBelow bound p p := fun _ _ => rfl

theorem AgreeBelow.bind (first : AgreeBelow bound p q) (f : α → Parse β) :
    AgreeBelow bound (p >>= f) (q >>= f) := by
  intro input short
  exact bind_of_eq (first input short)

theorem Forward.bind_agree (first : Forward p) (next : ∀ a, AgreeBelow bound (f a) (g a)) :
    AgreeBelow bound (p >>= f) (p >>= g) := by
  intro input short
  have shrinks := first.length_le input
  rcases run : p input with ⟨e | a, later, events⟩
  · rw [bind_of_error run, bind_of_error run]
  · rw [run] at shrinks
    rw [bind_of_ok run, bind_of_ok run, next a later (Nat.lt_of_le_of_lt shrinks short)]

/-- Behind a turn that has taken a token there are fewer tokens. -/
theorem Shortens.bind_agree {turn : Parse (Option α)} {f g : Option α → Parse β} (shortens : Shortens turn)
    (forward : Forward turn) (taken : ∀ a, AgreeBelow bound (f (some a)) (g (some a)))
    (passed : AgreeBelow (bound + 1) (f none) (g none)) :
    AgreeBelow (bound + 1) (turn >>= f) (turn >>= g) := by
  intro input short
  have shrinks := forward.length_le input
  rcases run : turn input with ⟨e | o, later, events⟩
  · rw [bind_of_error run, bind_of_error run]
  · rw [run] at shrinks
    rw [bind_of_ok run, bind_of_ok run]
    cases o with
    | none => rw [passed later (Nat.lt_of_le_of_lt shrinks short)]
    | some a =>
      have shorter := shortens input a later events run
      rw [taken a later (Nat.lt_of_lt_of_le shorter (Nat.le_of_lt_succ short))]

theorem agree_accept {kind : TokenKind} {f g : Option Token → Parse β}
    (taken : ∀ token, AgreeBelow bound (f (some token)) (g (some token)))
    (passed : AgreeBelow (bound + 1) (f none) (g none)) :
    AgreeBelow (bound + 1) (accept kind >>= f) (accept kind >>= g) :=
  (shortens_takeSome _).bind_agree (forward_accept kind) taken passed

theorem AgreeBelow.recovering (same : AgreeBelow bound p q) (site : RecoverySite) (enclosed : Bool) :
    AgreeBelow bound (recovering site enclosed p) (recovering site enclosed q) := by
  intro input short
  rw [Parse.recovering, Parse.recovering, same input short]

/-- Where one turn of two rules is the same, so is the recursion: the guard lets both make the same
calls. -/
theorem agree_recursive {rule rule' : (ι → Parse α) → ι → Parse α}
    (turn : ∀ again i, AgreeBelow bound (rule again i) (rule' again i)) (i : ι) :
    AgreeBelow bound (recursive rule i) (recursive rule' i) := by
  intro input short
  induction size : input.tokens.length using Nat.strongRecOn generalizing i input with
  | _ size ih =>
    subst size
    have calls : guarded rule input.tokens.length = guarded rule' input.tokens.length := by
      funext j later
      by_cases shorter : later.tokens.length < input.tokens.length
      · rw [guarded_of_lt shorter, guarded_of_lt shorter]
        exact ih _ shorter j later (Nat.lt_trans shorter short) rfl
      · rw [guarded, guarded, if_neg shorter, if_neg shorter]
    rw [recursive_apply, recursive_apply, calls]
    exact turn _ i input short

theorem AgreeBelow.many {item item' : Parse (Option α)} (same : AgreeBelow bound item item')
    (stop : TokenKind → Bool) : AgreeBelow bound (many stop item) (many stop item') := by
  refine agree_recursive (fun again _ => forward_peek.bind_agree fun kind => ?_) ()
  split
  · exact .refl _
  · exact same.bind _

end AgreeBelow

/-- A rule that takes a token before it calls itself: what it does goes by its calls on shorter inputs
alone. -/
def Advances (rule : (ι → Parse α) → ι → Parse α) : Prop :=
  ∀ bound (again again' : ι → Parse α), (∀ i, AgreeBelow bound (again i) (again' i)) →
    ∀ i, AgreeBelow (bound + 1) (rule again i) (rule again' i)

section Advances

variable {rule : (ι → Parse α) → ι → Parse α}

/-- The recursion is the rule over itself, with no guard in between. -/
theorem Advances.recursive_eq (advances : Advances rule) (i : ι) :
    recursive rule i = rule (recursive rule) i := by
  ext input
  rw [recursive_apply]
  exact advances _ _ _ (fun j later shorter => guarded_of_lt shorter) i input (Nat.lt_succ_self _)

/-- The guard is never met: whatever a call that took nothing would be answered with, the recursion is
the same. -/
theorem Advances.unique (advances : Advances rule) {p refused : ι → Parse α}
    (tied : ∀ i input, p i input = rule
      (fun j later => if later.tokens.length < input.tokens.length then p j later else refused j later)
      i input)
    (i : ι) : p i = recursive rule i := by
  ext input
  induction size : input.tokens.length using Nat.strongRecOn generalizing i input with
  | _ size ih =>
    subst size
    rw [tied, recursive_apply]
    refine advances input.tokens.length _ _ (fun j later shorter => ?_) i input (Nat.lt_succ_self _)
    rw [if_pos shorter, guarded_of_lt shorter]
    exact ih _ shorter j later rfl

end Advances

section Declaration

variable {bound : Nat} {d d' : Parse Stmt}

theorem AgreeBelow.block (same : AgreeBelow bound d d') : AgreeBelow bound (block d) (block d') :=
  ((same.recovering _ _).many _).bind _

theorem AgreeBelow.function (same : AgreeBelow bound d d') (routine : Routine) :
    AgreeBelow bound (function d routine) (function d' routine) :=
  (forward_expect _ _).bind_agree fun _ =>
    (forward_expect _ _).bind_agree fun _ =>
      (forward_separatedUnless forward_parameter).bind_agree fun _ =>
        (forward_expect _ _).bind_agree fun _ =>
          (forward_expect _ _).bind_agree fun _ => same.block.bind _

theorem AgreeBelow.classDeclaration (same : AgreeBelow bound d d') :
    AgreeBelow bound (classDeclaration d) (classDeclaration d') := by
  refine (forward_expect _ _).bind_agree fun name => (forward_accept _).bind_agree fun less => ?_
  have body (superclass : Option Token) : AgreeBelow bound _ _ :=
    (forward_expect .leftBrace .braceBeforeClassBody).bind_agree fun _ =>
      (((same.function .method).recovering .classBody true).many endsBody).bind fun methods => do
        let _ ← expect .rightBrace .braceAfterClassBody
        return Stmt.classDecl name.lexeme (superclass.map Token.lexeme) methods name.position.line
  split
  · exact ((forward_expect _ _).bind fun _ => forward_pure _).bind_agree body
  · exact (forward_pure none).bind_agree body

theorem declarationWith_local {expression : Parse Expr} {statement : Parse Stmt}
    (same : AgreeBelow bound d d') :
    AgreeBelow (bound + 1) (declarationWith expression statement d)
      (declarationWith expression statement d') := by
  refine forward_peek.bind_agree fun kind => ?_
  refine Forward.bind_agree (fun _ => ⟨[], rfl, rfl⟩) fun _ => ?_
  refine agree_accept (fun _ => AgreeBelow.refl (varDeclaration expression)) ?_
  refine agree_accept (fun _ => (same.function .function).bind _) ?_
  exact agree_accept (fun _ => same.classDeclaration) (AgreeBelow.refl statement)

/-- A declaration calls itself behind a keyword only. -/
theorem advances_declaration (expression : Parse Expr) (statement : Parse Stmt) :
    Advances fun (again : Unit → Parse Stmt) _ => declarationWith expression statement (again ()) :=
  fun _ _ _ same _ => declarationWith_local (same ())

/-- A declaration is its own rule over itself. -/
theorem declarationOver_eq (expression : Parse Expr) (statement : Parse Stmt) :
    declarationOver expression statement =
      declarationWith expression statement (declarationOver expression statement) :=
  (advances_declaration expression statement).recursive_eq ()

theorem declaration_eq (levels : Nat) :
    declaration levels = declarationWith (expression levels) (statement levels) (declaration levels) :=
  declarationOver_eq _ _

theorem statement_succ (levels : Nat) :
    statement (levels + 1) =
      statementWith (expression levels) (statement levels) (declaration levels) := rfl

end Declaration

end LoxFrontEnd.Parse
