import LoxFrontEnd.Proofs.Parse.Canonical
import LoxFrontEnd.Proofs.Parse.ErrorOrder
import LoxFrontEnd.Proofs.Parse.Levels
import LoxFrontEnd.Proofs.Parse.Prediction

/-!
Statements under a lower limit to nesting. What is read cleanly under the higher limit is read under
the lower one as well, or else the first error says that the nesting is too deep; other errors may
follow it, since blocks recover.
-/

namespace LoxFrontEnd

open Grammar

/-- The first error says that the nesting is too deep. -/
def Outcome.Sinks {α : Type} (outcome : Outcome α) : Prop :=
  ∃ found position, outcome.errors.head? = some (.unexpectedToken .shallowNesting found position)

namespace Parse

variable {α β ι : Type}

/-- What the second rule reads cleanly, the first one reads, unless its first error says that the
nesting is too deep. -/
def Curbed (p q : Parse α) : Prop :=
  ∀ input a rest, Reads q input a rest → Reads p input a rest ∨ (p input).Sinks

theorem Curbed.refl (p : Parse α) : Curbed p p := fun _ _ _ read => Or.inl read

theorem Curbed.of_unexpected (q : Parse α) : Curbed (unexpected .shallowNesting) q :=
  fun _ _ _ _ => Or.inr ⟨_, _, rfl⟩

/-- Where nothing is told on the way, the error that ends the rule is the first one. -/
theorem Capped.curbed {p q : Parse α} (capped : Capped p q) (silent : Silent p) : Curbed p q := by
  intro input a rest read
  rcases capped input with same | ⟨found, position, refused⟩
  · exact Or.inl (read.congr same.symm)
  · refine Or.inr ⟨found, position, ?_⟩
    rw [Outcome.errors, Outcome.recovered, silent input, refused]
    rfl

/-- A sequence tells what its first rule tells, and goes on with that. -/
theorem errors_prefix_bind (p : Parse α) (f : α → Parse β) (input : Input) :
    (p input).errors <+: ((p >>= f) input).errors := by
  rcases run : p input with ⟨e | a, rest, events⟩
  · rw [bind_of_error run]
    exact List.prefix_rfl
  · rw [bind_of_ok run, Outcome.errors, Outcome.errors, Outcome.recovered, Outcome.recovered,
      Outcome.behind, List.append_nil, List.filterMap_append, List.append_assoc]
    exact List.prefix_append _ _

theorem sinks_bind {p : Parse α} {input : Input} (sinks : (p input).Sinks) (f : α → Parse β) :
    ((p >>= f) input).Sinks := by
  obtain ⟨found, position, first⟩ := sinks
  obtain ⟨others, more⟩ := errors_prefix_bind p f input
  refine ⟨found, position, ?_⟩
  rw [← more, List.head?_append, first]
  rfl

theorem Curbed.bind {p q : Parse α} {f g : α → Parse β} (first : Curbed p q)
    (next : ∀ a, Curbed (f a) (g a)) :
    Curbed (p >>= f) (q >>= g) := by
  intro input b rest read
  obtain ⟨a, later, read, readNext⟩ := reads_bind.mp read
  rcases first input a later read with ⟨events, run, clean⟩ | sinks
  · rcases next a later b rest readNext with readNext | ⟨found, position, sinks⟩
    · exact Or.inl ((reads_bind_of_ok run clean).mpr readNext)
    · refine Or.inr ⟨found, position, ?_⟩
      rw [bind_of_ok run, Outcome.errors, Outcome.recovered, Outcome.behind, List.filterMap_append, clean,
        List.nil_append]
      exact sinks
  · exact Or.inr (sinks_bind sinks f)

theorem Curbed.map {p q : Parse α} (first : Curbed p q) (f : α → β) : Curbed (f <$> p) (f <$> q) := by
  rw [map_eq_pure_bind, map_eq_pure_bind]
  exact first.bind fun _ => .refl _

/-- A rule that recovers tells all errors of the rule that it runs, with the one that ended it. -/
theorem recovered_recovering (site : RecoverySite) (enclosed : Bool) (p : Parse α) (input : Input) :
    (recovering site enclosed p input).recovered = (p input).errors := by
  rw [recovering]
  rcases p input with ⟨e | a, rest, events⟩
  · exact List.filterMap_append
  · exact (List.append_nil _).symm

theorem Curbed.recovering {p q : Parse α} (first : Curbed p q) (site : RecoverySite) (enclosed : Bool) :
    Curbed (recovering site enclosed p) (recovering site enclosed q) := by
  intro input o rest read
  obtain ⟨a, rfl, inner⟩ := reads_recovering.mp read
  refine (first input a rest inner).imp (fun inner => reads_recovering.mpr ⟨a, rfl, inner⟩) ?_
  rintro ⟨found, position, sinks⟩
  refine ⟨found, position, ?_⟩
  rw [Outcome.errors, recovered_recovering, List.head?_append, sinks]
  rfl

theorem Curbed.recursive {rule rule' : (ι → Parse α) → ι → Parse α}
    (turn : ∀ again again' : ι → Parse α, (∀ i, Curbed (again i) (again' i)) →
      ∀ i, Curbed (rule again i) (rule' again' i)) (i : ι) :
    Curbed (recursive rule i) (recursive rule' i) := by
  intro input
  induction size : input.tokens.length using Nat.strongRecOn generalizing i input with
  | _ size ih =>
    subst size
    intro a rest read
    have calls (j : ι) :
        Curbed (guarded rule input.tokens.length j) (guarded rule' input.tokens.length j) := by
      intro later b rest' called
      by_cases shorter : later.tokens.length < input.tokens.length
      · have same : guarded rule input.tokens.length j later = Parse.recursive rule j later :=
          guarded_of_lt shorter
        rw [same]
        exact (ih _ shorter j later rfl b rest' (called.congr (guarded_of_lt shorter))).imp_left
          (Reads.congr same.symm)
      · exact absurd (called.congr (if_neg shorter)) not_reads_unexpected
    rw [recursive_apply]
    have turned := turn _ _ calls i input a rest (read.congr (recursive_apply rule' i input))
    exact turned.imp_left (Reads.congr (recursive_apply rule i input).symm)

theorem Curbed.many {item item' : Parse (Option α)} (one : Curbed item item') (stop : TokenKind → Bool) :
    Curbed (many stop item) (many stop item') := by
  refine .recursive (fun again again' calls _ => (Curbed.refl _).bind fun kind => ?_) ()
  split
  · exact .refl _
  · exact one.bind fun _ => (calls ()).bind fun _ => .refl _

section Statement

variable {e e' : Parse Expr} {s s' d d' : Parse Stmt}

section Declared

variable (item : Curbed d d')
include item

theorem Curbed.block : Curbed (block d) (block d') :=
  ((item.recovering _ _).many _).bind fun _ => .refl _

theorem Curbed.function (routine : Routine) : Curbed (function d routine) (function d' routine) :=
  (Curbed.refl _).bind fun _ =>
    (Curbed.refl _).bind fun _ =>
      (Curbed.refl _).bind fun _ =>
        (Curbed.refl _).bind fun _ =>
          (Curbed.refl _).bind fun _ => item.block.bind fun _ => .refl _

theorem Curbed.classDeclaration : Curbed (classDeclaration d) (classDeclaration d') := by
  refine (Curbed.refl _).bind fun name => (Curbed.refl _).bind fun less => ?_
  have body (superclass : Option Token) : Curbed _ _ :=
    (Curbed.refl (expect .leftBrace .braceBeforeClassBody)).bind fun _ =>
      (((item.function .method).recovering .classBody true).many endsBody).bind fun methods => .refl (do
        let _ ← expect .rightBrace .braceAfterClassBody
        return Stmt.classDecl name.lexeme (superclass.map Token.lexeme) methods name.position.line)
  split
  · exact (Curbed.refl _).bind body
  · exact (Curbed.refl _).bind body

end Declared

section Over

variable (inner : Curbed e e')
include inner

theorem Curbed.varDeclaration : Curbed (varDeclaration e) (varDeclaration e') := by
  refine (Curbed.refl _).bind fun name => (Curbed.refl _).bind fun sign => ?_
  split
  · exact (inner.map some).bind fun _ => .refl _
  · exact .refl _

theorem Curbed.expressionStatement : Curbed (expressionStatement e) (expressionStatement e') :=
  inner.bind fun _ => .refl _

theorem Curbed.expressionUnless (stop : TokenKind) :
    Curbed (expressionUnless e stop) (expressionUnless e' stop) := by
  refine (Curbed.refl _).bind fun kind => ?_
  split
  · exact .refl _
  · exact inner.map some

theorem Curbed.forInitializer : Curbed (forInitializer e) (forInitializer e') := by
  refine (Curbed.refl _).bind fun semicolon => ?_
  split
  · exact .refl _
  refine (Curbed.refl _).bind fun keyword => ?_
  split
  · exact inner.varDeclaration.bind fun _ => .refl _
  · exact inner.expressionStatement.map some

variable (branch : Curbed s s')
include branch

theorem Curbed.whileStatement : Curbed (whileStatement e s) (whileStatement e' s') :=
  (Curbed.refl _).bind fun _ => inner.bind fun _ => (Curbed.refl _).bind fun _ =>
    branch.bind fun _ => .refl _

theorem Curbed.ifStatement : Curbed (ifStatement e s) (ifStatement e' s') := by
  refine (Curbed.refl _).bind fun _ => inner.bind fun condition => (Curbed.refl _).bind fun _ => ?_
  refine branch.bind fun thenBranch => (Curbed.refl _).bind fun otherwise => ?_
  split
  · exact (branch.map some).bind fun _ => .refl _
  · exact .refl _

theorem Curbed.forStatement : Curbed (forStatement e s) (forStatement e' s') :=
  (Curbed.refl _).bind fun _ =>
    inner.forInitializer.bind fun _ =>
      (inner.expressionUnless _).bind fun _ =>
        (Curbed.refl _).bind fun _ =>
          (inner.expressionUnless _).bind fun _ => (Curbed.refl _).bind fun _ =>
            branch.bind fun _ => .refl _

theorem Curbed.statementWith (item : Curbed d d') :
    Curbed (statementWith e s d) (statementWith e' s' d') := by
  refine (Curbed.refl _).bind fun keyword => ?_
  split
  · exact inner.forStatement branch
  refine (Curbed.refl _).bind fun keyword => ?_
  split
  · exact inner.ifStatement branch
  refine (Curbed.refl _).bind fun keyword => ?_
  split
  · exact inner.whileStatement branch
  refine (Curbed.refl _).bind fun keyword => ?_
  split
  · exact (inner.expressionUnless _).bind fun _ => .refl _
  refine (Curbed.refl _).bind fun brace => ?_
  split
  · exact item.block.bind fun _ => .refl _
  refine (Curbed.refl _).bind fun keyword => ?_
  split
  · exact inner.bind fun _ => .refl _
  · exact inner.expressionStatement

theorem Curbed.declarationWith (item : Curbed d d') :
    Curbed (declarationWith e s d) (declarationWith e' s' d') := by
  refine (Curbed.refl _).bind fun kind => (Curbed.refl _).bind fun _ => ?_
  refine (Curbed.refl _).bind fun keyword => ?_
  split
  · exact inner.varDeclaration
  refine (Curbed.refl _).bind fun keyword => ?_
  split
  · exact (item.function _).bind fun _ => .refl _
  refine (Curbed.refl _).bind fun keyword => ?_
  split
  · exact item.classDeclaration
  · exact branch

theorem Curbed.declarationOver : Curbed (declarationOver e s) (declarationOver e' s') :=
  .recursive (fun _ _ calls _ => inner.declarationWith branch (calls ())) ()

end Over

end Statement

theorem curbed_expression {levels levels' : Nat} (le : levels ≤ levels') :
    Curbed (expression levels) (expression levels') :=
  (capped_expression le).curbed (silent_expression levels)

theorem curbed_statement {levels levels' : Nat} (le : levels ≤ levels') :
    Curbed (statement levels) (statement levels') := by
  induction levels generalizing levels' with
  | zero => exact .of_unexpected _
  | succ levels ih =>
    obtain ⟨higher, rfl⟩ : ∃ higher, levels' = higher + 1 := Nat.exists_eq_add_of_le' (by omega)
    have fewer := Nat.le_of_succ_le_succ le
    have inner := curbed_expression fewer
    exact inner.statementWith (ih fewer) (inner.declarationOver (ih fewer))

/-- With fewer levels for a declaration it is read as well, or it is nested too deep. -/
theorem curbed_declaration {levels levels' : Nat} (le : levels ≤ levels') :
    Curbed (declaration levels) (declaration levels') :=
  (curbed_expression le).declarationOver (curbed_statement le)

end Parse

namespace Session

open Parse

/-- The first error on the way is the answer. -/
theorem single_of_errors {α : Type} {rule : Parse α} {tokens : List Token} {e : ParseError}
    (first : (rule ⟨tokens, .start⟩).errors.head? = some e) :
    ((ofTokens tokens).single rule).result = .error e := by
  rcases run : rule (ofTokens tokens).input with ⟨result, rest, events⟩
  have told : (ofTokens tokens).queue ++ (rule (ofTokens tokens).input).recovered =
      events.filterMap Event.error? := by
    rw [run]
    rfl
  rw [show rule ⟨tokens, .start⟩ = ⟨result, rest, events⟩ from run, Outcome.errors,
    Outcome.recovered] at first
  cases queue : events.filterMap Event.error? with
  | nil =>
    rw [queue] at first told
    rw [single_of_nil told]
    cases result with
    | ok a => cases first
    | error e' =>
      rw [whole_of_error run]
      exact congrArg _ (Option.some.inj first)
  | cons e' errors =>
    rw [queue] at first told
    rw [single_of_cons told]
    exact congrArg _ (Option.some.inj first)

theorem single_of_sinks {α : Type} {rule : Parse α} {tokens : List Token}
    (sinks : (rule ⟨tokens, .start⟩).Sinks) :
    TooDeep ((ofTokens tokens).single rule).result := by
  obtain ⟨found, position, first⟩ := sinks
  exact ⟨found, position, single_of_errors first⟩

/-- What the grammar derives as a declaration, with any limit to nesting, is answered as such, or else
with the error for nesting that is too deep. -/
theorem statement_of_derives {limit : Nat} {tail : Tail} {s : Stmt} {tokens rest : List Token}
    (derives : Derives limit 0 (.declaration tail s) tokens) (ends : Input.kind ⟨rest, .start⟩ = .eof) :
    (ofTokens (tokens ++ rest)).statement.result = .ok s ∨
      TooDeep (ofTokens (tokens ++ rest)).statement.result := by
  have room : 0 + limit ≤ 0 + (limit + maxNesting) := by omega
  have notElse : Input.kind ⟨rest, .start⟩ ≠ .kwElse := by
    rw [ends]
    exact nofun
  have read := completeStmt_of_derives (derives.roomier room) _ (Nat.zero_add _) rest
    .start fun _ => notElse
  have curbed := curbed_declaration (Nat.le_add_left maxNesting limit)
  refine (curbed _ _ _ read).imp (fun read => single_ok_iff_reads.mpr ⟨_, read, ?_⟩) single_of_sinks
  exact ends

end Session

end LoxFrontEnd
