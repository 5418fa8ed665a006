import LoxFrontEnd.Proofs.Parse.StatementLevels

/-!
The calls of a session agree, where each is the first one. A declaration that is answered is a program
of its own, and an error that refuses it is the first one that the program is refused with. An
expression with a semicolon behind it is a statement, one level deeper.
-/

namespace LoxFrontEnd

open Grammar Parse

namespace Grammar

/-- An expression as a declaration is what stands in front of its semicolon. -/
theorem Derives.of_expr {limit depth : Nat} {tail : Tail} {e : Expr} {tokens : List Token}
    (derives : Derives limit depth (.declaration tail (.expr e)) tokens) :
    ∃ front semicolon, tokens = front ++ [semicolon] ∧
      DerivesExpr limit (depth + 1) (.expression e) front := by
  cases derives with
  | varDeclaration declared => cases declared
  | plain plain =>
    cases plain with
    | nested _ unnested =>
      generalize isExpr : Stmt.expr e = s at unnested
      cases unnested with
      | expr derives =>
        cases isExpr
        exact ⟨_, _, rfl, derives⟩
      | _ => cases isExpr

end Grammar

namespace Session

/-- Where one tree is refused with an error, it is the first one on the way, or the tree is not all
there is. -/
theorem first_of_single_error {α : Type} {rule : Parse α} {tokens : List Token} {e : ParseError}
    (refused : ((ofTokens tokens).single rule).result = .error e) :
    (rule ⟨tokens, .start⟩).errors.head? = some e ∨
      ∃ found position, e = .unexpectedToken .endOfInput found position := by
  rcases run : rule (ofTokens tokens).input with ⟨result, rest, events⟩
  cases blamed : (rule (ofTokens tokens).input).errors with
  | cons e' others =>
    have answer := single_of_errors (congrArg List.head? blamed)
    cases answer.symm.trans refused
    exact Or.inl (congrArg List.head? blamed)
  | nil =>
    obtain ⟨clean, done⟩ := List.append_eq_nil_iff.mp blamed
    have told : (ofTokens tokens).queue ++ (rule (ofTokens tokens).input).recovered = [] := clean
    rw [single_of_nil told] at refused
    rw [run] at done
    cases result with
    | error e' => cases done
    | ok a =>
      rw [whole_of_ok run, expectEnd, bind_assoc,
        bind_of_ok (rfl : peek rest = ⟨.ok rest.kind, rest, []⟩)] at refused
      split at refused
      · cases refused
      · cases refused
        exact Or.inr ⟨_, _, rfl⟩

/-- A declaration that is answered is read up to the end of input, and then it is all that a program
is read from. -/
theorem statement_ok_iff_program_ok {tokens : List Token} {s : Stmt} :
    (ofTokens tokens).statement.result = .ok s ↔ (ofTokens tokens).program.result = .ok ⟨[s]⟩ := by
  rw [statement, single_ok_iff_reads, program_ok_iff_reads]
  constructor
  · rintro ⟨rest, read, ends⟩
    have atEnd : decide (rest.kind = .eof) = true := decide_eq_true ends
    obtain ⟨taken, tail, front, derives, _⟩ := declaration_yields (Nat.zero_add maxNesting) _ _ _ read
    obtain ⟨token, others, rfl, opens⟩ := derives.opens.resolve_left fun none => none.2
    have goes : decide (Input.kind ⟨tokens, .start⟩ = .eof) = false := by
      refine decide_eq_false ?_
      rw [show tokens = token :: others ++ rest.tokens from front]
      exact kind_ne_of_starts opens rfl
    have shorter := takes_declaration maxNesting _ _ _ _ read.choose_spec.1
    exact ⟨rest, .many_next goes (reads_recovering.mpr ⟨s, rfl, read⟩) shorter (.many_stop atEnd)⟩
  · rintro ⟨rest, read⟩
    have atEnd : decide (rest.kind = .eof) = true := read.many_ends
    obtain ⟨later, first, none⟩ := Reads.many_cons read
    obtain rfl := none.many_nil
    exact ⟨rest, first, of_decide_eq_true atEnd⟩

/-- The first item of a program tells the errors of the declaration that begins there. -/
theorem program_first_error {first : Token} {others : List Token} {e : ParseError}
    (notEnd : first.kind ≠ .eof)
    (blamed : (declaration maxNesting ⟨first :: others, .start⟩).errors.head? = some e) :
    ∃ more, (ofTokens (first :: others)).program.result = .error (e :: more) := by
  obtain ⟨ss, rest, events, items⟩ := items_declarations ⟨first :: others, .start⟩
  have run := program_ofTokens items.many_eq
  generalize isInput : (⟨first :: others, .start⟩ : Input) = input at items
  cases items with
  | stop ends =>
    subst isInput
    exact absurd (of_decide_eq_true ends) notEnd
  | @item _ later _ o as before after goes item _ _ =>
    subst isInput
    have told := recovered_recovering .declaration false (declaration maxNesting) ⟨first :: others, .start⟩
    rw [item, Outcome.recovered] at told
    obtain ⟨more, isMore⟩ := List.head?_eq_some_iff.mp (told ▸ blamed)
    rw [List.filterMap_append, isMore, List.cons_append, if_neg (List.cons_ne_nil _ _)] at run
    exact ⟨_, run⟩

/-- The three calls agree on what they are asked for first. -/
theorem entry_points_agree :
    (∀ tokens s, (ofTokens tokens).statement.result = .ok s ↔
      (ofTokens tokens).program.result = .ok ⟨[s]⟩) ∧
    (∀ first others e, first.kind ≠ .eof → (ofTokens (first :: others)).statement.result = .error e →
      (∀ found position, e ≠ .unexpectedToken .endOfInput found position) →
      ∃ more, (ofTokens (first :: others)).program.result = .error (e :: more)) ∧
    ∀ tokens semicolon mark mark' e, (∀ token ∈ tokens, token.kind ≠ .eof) → semicolon.kind = .semicolon →
      mark.kind = .eof → mark'.kind = .eof →
      ((ofTokens (tokens ++ [semicolon, mark])).statement.result = .ok (.expr e) →
        (ofTokens (tokens ++ [mark'])).expression.result = .ok e) ∧
      ((ofTokens (tokens ++ [mark'])).expression.result = .ok e →
        (ofTokens (tokens ++ [semicolon, mark])).statement.result = .ok (.expr e) ∨
          TooDeep (ofTokens (tokens ++ [semicolon, mark])).statement.result) := by
  refine ⟨fun tokens s => statement_ok_iff_program_ok, ?_, ?_⟩
  · intro first others e notEnd refused inner
    rcases first_of_single_error refused with blamed | ⟨found, position, isEnd⟩
    · exact program_first_error notEnd blamed
    · exact absurd isEnd (inner found position)
  · intro tokens semicolon mark mark' e endless isSemicolon isMark isMark'
    rw [expression_ok_iff_derives endless isMark', List.append_cons]
    constructor
    · intro answer
      obtain ⟨rest, read, ends⟩ := single_ok_iff_reads.mp answer
      obtain ⟨taken, tail, front, derives, _⟩ := declaration_yields (Nat.zero_add maxNesting) _ _ _ read
      have endless' : ∀ token ∈ tokens ++ [semicolon], token.kind ≠ .eof := by
        refine List.forall_mem_append.mpr ⟨endless, List.forall_mem_singleton.mpr ?_⟩
        rw [isSemicolon]
        exact nofun
      rw [eq_of_append_mark_eq endless' isMark derives.kind_ne_eof ends front] at derives
      obtain ⟨front, semicolon', same, derives⟩ := derives.of_expr
      obtain ⟨rfl, -⟩ := List.append_inj' same rfl
      exact derives.roomier (by omega)
    · intro derives
      have deeper : DerivesExpr (maxNesting + 1) 1 (.expression e) tokens := derives.roomier (by omega)
      have declared : Derives (maxNesting + 1) 0 (.declaration .closed (.expr e)) (tokens ++ [semicolon]) :=
        .plain (.nested (by omega) (.expr deeper isSemicolon))
      exact statement_of_derives declared isMark

/-- `nil;` as a program, and `nil` on its own. A program that begins with `var;` is refused for want
of a name first. -/
theorem entry_points_agree_nil :
    (ofTokens [⟨.kwNil, "nil", ⟨1, 1⟩⟩, ⟨.semicolon, ";", ⟨1, 4⟩⟩, ⟨.eof, "", ⟨1, 5⟩⟩]).program.result =
        .ok ⟨[.expr (.literal .nil)]⟩ ∧
      (ofTokens [⟨.kwNil, "nil", ⟨1, 1⟩⟩, ⟨.eof, "", ⟨1, 4⟩⟩]).expression.result = .ok (.literal .nil) ∧
      ∃ more, (ofTokens [⟨.kwVar, "var", ⟨1, 1⟩⟩, ⟨.semicolon, ";", ⟨1, 4⟩⟩]).program.result =
        .error (.unexpectedToken .variableName (.lexeme ";") ⟨1, 4⟩ :: more) := by
  have leaf : DerivesExpr maxNesting 2 (.rung 9 (.literal .nil)) [⟨.kwNil, "nil", ⟨1, 1⟩⟩] :=
    .leaf (.nil rfl)
  have inner : DerivesExpr maxNesting 1 (.expression (.literal .nil)) [⟨.kwNil, "nil", ⟨1, 1⟩⟩] :=
    .nested (by decide) (leaf.loosen_to (by decide))
  have declared : Derives maxNesting 0 (.declaration .closed (.expr (.literal .nil)))
      ([⟨.kwNil, "nil", ⟨1, 1⟩⟩] ++ [⟨.semicolon, ";", ⟨1, 4⟩⟩]) :=
    .plain (.nested (by decide) (.expr inner rfl))
  have read := completeStmt_of_derives declared maxNesting (Nat.zero_add _)
    [⟨.eof, "", ⟨1, 5⟩⟩] .start nofun
  have answer :
      (ofTokens [⟨.kwNil, "nil", ⟨1, 1⟩⟩, ⟨.semicolon, ";", ⟨1, 4⟩⟩, ⟨.eof, "", ⟨1, 5⟩⟩]).statement.result =
        .ok (.expr (.literal .nil)) := single_ok_iff_reads.mpr ⟨_, read, rfl⟩
  have refused : (ofTokens [⟨.kwVar, "var", ⟨1, 1⟩⟩, ⟨.semicolon, ";", ⟨1, 4⟩⟩]).statement.result =
      .error (.unexpectedToken .variableName (.lexeme ";") ⟨1, 4⟩) :=
    single_of_errors (by rw [declaration_eq]; rfl)
  refine ⟨(entry_points_agree.1 _ _).mp answer, ?_, entry_points_agree.2.1 _ _ _ nofun refused nofun⟩
  exact (entry_points_agree.2.2 [_] _ _ ⟨.eof, "", ⟨1, 4⟩⟩ _ (by simp) rfl rfl rfl).1 answer

end Session

end LoxFrontEnd
