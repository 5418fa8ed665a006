import LoxFrontEnd.Proofs.Parse.Recovery
import LoxFrontEnd.Proofs.Parse.StatementPrediction

/-!
The first error stands at the earliest token possible. What was taken before it is the beginning of some
program, and no program begins with that and the token at fault. This is said of the productions, which
know neither a limit to nesting nor what may stand on the left of `=`; errors about these two are left out.
-/

namespace LoxFrontEnd

open Grammar Parse

theorem Parse.tracks_declarations (limit : Nat) :
    Tracks AnyKind [.phrase (.items .declaration)]
      (many (· = .eof) (recovering .declaration false (declaration limit))) fun _ => [] := by
  refine tracks_body (tracks_declaration limit) .declaration false (fun k goes => ?_)
    (fun k isEnd => ?_) rfl
  · have notEnd : k ≠ .eof := of_decide_eq_false goes
    exact notEnd
  · cases of_decide_eq_true isEnd
    rfl

/-- The productions spell out all that the grammar derives, whatever its limit. -/
theorem Grammar.isProgram_of_derives {limit : Nat} {ss : List Stmt} {tokens : List Token}
    (derives : Derives limit 0 (.body ss) tokens) : IsProgram tokens := by
  have read := completeStmt_of_derives derives limit (Nat.zero_add _) (· = .eof)
    .declaration false [] .start
    (fun kind starts => decide_eq_false (kind_ne_of_starts starts rfl)) rfl nofun
  obtain ⟨events, run, clean⟩ := read
  have judged := tracks_declarations limit ⟨tokens ++ [], .start⟩ trivial
  rw [run] at judged
  obtain ⟨taken, front, back, _⟩ := judged.clean ss rfl clean
  have whole : tokens = taken := by
    rw [← List.append_nil tokens, ← List.append_nil taken]
    exact front
  rw [whole, ← List.append_nil taken]
  exact back [] .nil

/-- Where a rule stops in front of a token that nothing still to come begins with, no program goes on
with it. -/
theorem Parse.Follows.dead_end {tokens : List Token} {mark : Token} {last : Position} {stack : List Symbol}
    {rest : Input} (isMark : mark.kind = .eof)
    (follows : Follows [.phrase (.items .declaration)] ⟨tokens ++ [mark], last⟩ stack rest)
    (none : ¬ Begins stack rest.kind) :
    ∃ i token others, (tokens ++ [mark])[i]? = some token ∧ rest.tokens = token :: others ∧
      Viable (tokens.take i) ∧
      (i < tokens.length → ¬ Viable (tokens.take (i + 1))) ∧ (i = tokens.length → ¬ IsProgram tokens) := by
  obtain ⟨taken, front, back, forth⟩ := follows
  obtain ⟨more, spells⟩ := exists_spells stack
  have viable : IsProgram (taken ++ more) := back more spells
  have endless : ∀ token ∈ taken, token.kind ≠ .eof := fun token member =>
    viable.kind_ne_eof (by simp) token (List.mem_append_left more member)
  obtain ⟨left, place⟩ := rest
  replace front : tokens ++ [mark] = taken ++ left := front
  cases left with
  | nil =>
    have inside : mark ∈ taken := by
      rw [← List.append_nil taken, ← front]
      exact List.mem_append_right tokens List.mem_cons_self
    exact absurd isMark (endless mark inside)
  | cons token others =>
    have length := congrArg List.length front
    simp only [List.length_append, List.length_cons, List.length_nil] at length
    have before : tokens.take taken.length = taken := by
      have whole : (tokens ++ [mark]).take taken.length = tokens.take taken.length :=
        List.take_append_of_le_length (by omega)
      rw [← whole, front, List.take_left]
    have entry : (tokens ++ [mark])[taken.length]? = some token := by
      rw [front, List.getElem?_append_right (Nat.le_refl _), Nat.sub_self]
      rfl
    refine ⟨taken.length, token, others, entry, rfl, ?_, fun short => ?_, fun all => ?_⟩
    · rw [before]
      exact ⟨more, viable⟩
    · rintro ⟨others', program⟩
      have entry' : tokens[taken.length]? = some token := by
        rw [← entry, List.getElem?_append_left short]
      rw [List.take_add_one, before, entry', List.append_assoc] at program
      exact none (begins_of_spells (forth (token :: others') rfl program))
    · intro program
      have isTaken : tokens = taken := by rw [← before, all, List.take_length]
      have isToken : token = mark := by
        rw [all, List.getElem?_append_right (Nat.le_refl _), Nat.sub_self] at entry
        cases entry
        rfl
      have ends : Input.kind ⟨token :: others, place⟩ = .eof := by rw [Input.kind_cons, isToken, isMark]
      rw [isTaken, ← List.append_nil taken] at program
      exact none (ends ▸ begins_of_spells (forth [] ends.symm program))

namespace Session

/-- The first of the errors that are answered is the first one on the way. -/
theorem first_of_program_error {tokens : List Token} {errors : List ParseError}
    (refused : (ofTokens tokens).program.result = .error errors) :
    ∃ e others, errors = e :: others ∧ (declarations ⟨tokens, .start⟩).errors.head? = some e := by
  rw [program] at refused
  simp only [ofTokens, List.nil_append] at refused
  rw [Outcome.errors]
  cases told : (declarations ⟨tokens, .start⟩).recovered with
  | nil =>
    rw [told] at refused
    cases ends : (declarations ⟨tokens, .start⟩).result with
    | ok ss =>
      rw [ends] at refused
      cases refused
    | error e =>
      rw [ends] at refused
      cases refused
      exact ⟨e, [], rfl, rfl⟩
  | cons e others =>
    rw [told] at refused
    cases refused
    exact ⟨e, others, rfl, rfl⟩

/-- What the productions spell out is refused only because it is nested too deep, or because of what
stands on the left of `=`. -/
theorem ok_or_excused_of_isProgram {tokens : List Token} {mark : Token} (isMark : mark.kind = .eof)
    (program : IsProgram tokens) :
    (∃ p, (ofTokens (tokens ++ [mark])).program.result = .ok p) ∨
      ∃ errors e, (ofTokens (tokens ++ [mark])).program.result = .error errors ∧ errors.head? = some e ∧
        ∀ expected found position, e = .unexpectedToken expected found position →
          expected = .shallowNesting := by
  cases answer : (ofTokens (tokens ++ [mark])).program.result with
  | ok p => exact Or.inl ⟨p, rfl⟩
  | error errors =>
    obtain ⟨e, others, rfl, first⟩ := first_of_program_error answer
    refine Or.inr ⟨e :: others, e, rfl, rfl, ?_⟩
    rintro expected found position rfl
    refine Decidable.byContradiction fun deep => ?_
    have judged := tracks_declarations maxNesting ⟨tokens ++ [mark], .start⟩ trivial
    obtain ⟨stack, rest, follows, none, _⟩ := judged.blamed _ _ _ first deep
    obtain ⟨i, token, _, entry, _, _, dead, incomplete⟩ := follows.dead_end isMark none
    rcases Nat.lt_or_ge i tokens.length with short | long
    · refine dead short ⟨tokens.drop (i + 1), ?_⟩
      rw [List.take_append_drop]
      exact program
    · have bound := (List.getElem?_eq_some_iff.mp entry).1
      rw [List.length_append, List.length_singleton] at bound
      exact incomplete (by omega) program

/-- Where the first error is that of an unexpected token, and not of one that is nested too deep, it
names the token at which the input ceases to be the beginning of a program. -/
theorem first_error_earliest {tokens : List Token} {mark : Token} {errors : List ParseError}
    {expected : Expected} {found : Found} {position : Position} (isMark : mark.kind = .eof)
    (refused : (ofTokens (tokens ++ [mark])).program.result = .error errors)
    (first : errors.head? = some (.unexpectedToken expected found position))
    (deep : expected ≠ .shallowNesting) :
    ∃ i token, (tokens ++ [mark])[i]? = some token ∧ position = token.position ∧
      found = (if token.kind = .eof then .endOfInput else .lexeme token.lexeme) ∧ Viable (tokens.take i) ∧
      (i < tokens.length → ¬ Viable (tokens.take (i + 1))) ∧ (i = tokens.length → ¬ IsProgram tokens) := by
  have judged := tracks_declarations maxNesting ⟨tokens ++ [mark], .start⟩ trivial
  obtain ⟨e, others, rfl, first'⟩ := first_of_program_error refused
  cases first
  obtain ⟨stack, ⟨left, last⟩, follows, none, same⟩ := judged.blamed _ _ _ first' deep
  obtain ⟨i, token, others, entry, rfl, viable, dead, incomplete⟩ := follows.dead_end isMark none
  cases same
  exact ⟨i, token, entry, rfl, rfl, viable, dead, incomplete⟩

/-- `var` is the beginning of a program, but `var;` is not. -/
theorem first_error_earliest_nameless :
    Viable [⟨.kwVar, "var", ⟨1, 1⟩⟩] ∧ ¬ Viable [⟨.kwVar, "var", ⟨1, 1⟩⟩, ⟨.semicolon, ";", ⟨1, 4⟩⟩] := by
  have item : Recovers (recovering .declaration false (declaration maxNesting))
      ⟨[⟨.kwVar, "var", ⟨1, 1⟩⟩, ⟨.semicolon, ";", ⟨1, 4⟩⟩, ⟨.eof, "", ⟨1, 5⟩⟩], .start⟩ none
      [⟨.eof, "", ⟨1, 5⟩⟩] [.unexpectedToken .variableName (.lexeme ";") ⟨1, 4⟩] := by
    rw [declaration_eq]
    exact ⟨_, _, rfl, rfl⟩
  have run : Recovers declarations
      ⟨[⟨.kwVar, "var", ⟨1, 1⟩⟩, ⟨.semicolon, ";", ⟨1, 4⟩⟩] ++ [⟨.eof, "", ⟨1, 5⟩⟩], .start⟩ []
      [⟨.eof, "", ⟨1, 5⟩⟩] _ :=
    .many_next (by decide) item (by decide) fun place => .many_stop rfl
  obtain ⟨i, token, entry, place, -, viable, dead, -⟩ :=
    first_error_earliest rfl (program_of_recovers run nofun) rfl nofun
  match i, entry with
  | 0, entry =>
    cases entry
    cases place
  | 1, _ => exact ⟨viable, dead (by decide)⟩
  | 2, entry =>
    cases entry
    cases place

end Session

end LoxFrontEnd
