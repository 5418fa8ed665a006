import LoxFrontEnd.Proofs.Parse.StatementComplete

/-!
Parsing a program and deriving it are the same. The end mark stands behind the tokens of the program,
and no phrase has one in it, so the whole input has been read where parsing ends well.
-/

namespace LoxFrontEnd

open Grammar Parse

namespace Session

/-- The answer is a program where nothing was in the queue, and all declarations were read cleanly, up
to the end of input. -/
theorem program_ok_iff {s : Session} {p : Program} :
    s.program.result = .ok p ↔ s.queue = [] ∧ ∃ rest, Reads declarations s.input p.declarations rest := by
  rw [exists_reads_iff, program]
  dsimp only
  cases s.queue with
  | cons e errors => exact ⟨nofun, fun ⟨clean, _⟩ => nomatch clean⟩
  | nil =>
    rw [List.nil_append]
    cases (declarations s.input).recovered with
    | cons e errors => exact ⟨nofun, fun ⟨_, _, clean⟩ => nomatch clean⟩
    | nil =>
      obtain ⟨declared⟩ := p
      cases (declarations s.input).result with
      | error e => exact ⟨nofun, fun ⟨_, same, _⟩ => nomatch same⟩
      | ok ss =>
        show Except.ok (Program.mk ss) = Except.ok (Program.mk declared) ↔ [] = [] ∧
            Except.ok ss = Except.ok declared ∧ [] = []
        simp

theorem program_ok_iff_reads {tokens : List Token} {p : Program} :
    (ofTokens tokens).program.result = .ok p ↔
      ∃ rest, Reads declarations ⟨tokens, .start⟩ p.declarations rest := by
  rw [program_ok_iff]
  exact and_iff_right rfl

end Session

/-- Where the first end mark stands is the end of the tokens in front of it. -/
theorem eq_of_append_mark_eq {tokens taken rest : List Token} {mark : Token} {last : Position}
    (inner : ∀ token ∈ tokens, token.kind ≠ .eof) (isMark : mark.kind = .eof)
    (inner' : ∀ token ∈ taken, token.kind ≠ .eof) (ends : Input.kind ⟨rest, last⟩ = .eof)
    (front : tokens ++ [mark] = taken ++ rest) : taken = tokens := by
  rcases List.append_eq_append_iff.mp front with ⟨more, rfl, split⟩ | ⟨more, rfl, rfl⟩
  · cases more with
    | nil => exact List.append_nil _
    | cons token others =>
      obtain ⟨rfl, -⟩ := List.cons.inj split
      exact absurd isMark (inner' _ (by simp))
  · cases more with
    | nil => exact (List.append_nil _).symm
    | cons token others => exact absurd ends (inner _ (by simp))

namespace Session

/-- A list of tokens with an end mark is parsed into a program exactly if the grammar derives the program
from the tokens. -/
theorem program_ok_iff_derives {tokens : List Token} {mark : Token} {p : Program}
    (inner : ∀ token ∈ tokens, token.kind ≠ .eof) (isMark : mark.kind = .eof) :
    (ofTokens (tokens ++ [mark])).program.result = .ok p ↔ DerivesProgram tokens p := by
  rw [program_ok_iff_reads]
  constructor
  · rintro ⟨rest, read⟩
    obtain ⟨taken, front, derives⟩ := body_yields (declaration_yields (Nat.zero_add maxNesting)) _ _ _ read
    have ends : rest.kind = .eof := of_decide_eq_true read.many_ends
    rw [DerivesProgram, ← eq_of_append_mark_eq inner isMark derives.kind_ne_eof ends front]
    exact derives
  · intro derives
    have read := completeStmt_of_derives derives maxNesting (Nat.zero_add _)
    refine ⟨_, read (· = .eof) .declaration false [mark] .start ?_ ?_ ?_⟩
    · exact fun kind starts => decide_eq_false (kind_ne_of_starts starts rfl)
    · exact decide_eq_true isMark
    · exact kind_cons_ne isMark (by decide)

/-- `for (;;) {}` goes round an empty block for ever. -/
theorem program_ok_for_ever :
    (ofTokens ([⟨.kwFor, "for", ⟨1, 1⟩⟩, ⟨.leftParen, "(", ⟨1, 5⟩⟩, ⟨.semicolon, ";", ⟨1, 6⟩⟩,
      ⟨.semicolon, ";", ⟨1, 7⟩⟩, ⟨.rightParen, ")", ⟨1, 8⟩⟩, ⟨.leftBrace, "\x7b", ⟨1, 10⟩⟩,
      ⟨.rightBrace, "\x7d", ⟨1, 11⟩⟩] ++ [⟨.eof, "", ⟨1, 12⟩⟩])).program.result =
      .ok ⟨[.block [.whileLoop (.literal (.bool true)) (.block [])]]⟩ := by
  refine (program_ok_iff_derives (by simp) rfl).mpr ?_
  have start : Derives maxNesting 1 (.initializer none) [⟨.semicolon, ";", ⟨1, 6⟩⟩] := .noInitializer rfl
  have missing : OptionalExpr maxNesting 1 none [] := .none
  have body : Derives maxNesting 1 (.statement .closed (.block []))
      [⟨.leftBrace, "\x7b", ⟨1, 10⟩⟩, ⟨.rightBrace, "\x7d", ⟨1, 11⟩⟩] :=
    .nested (by decide) (.block rfl .empty rfl)
  have loop : Derives maxNesting 1 (.unnested .closed _) _ :=
    .forLoop (rfl : Token.kind ⟨.kwFor, "for", ⟨1, 1⟩⟩ = .kwFor)
      (rfl : Token.kind ⟨.leftParen, "(", ⟨1, 5⟩⟩ = .leftParen) start missing
      (rfl : Token.kind ⟨.semicolon, ";", ⟨1, 7⟩⟩ = .semicolon) missing
      (rfl : Token.kind ⟨.rightParen, ")", ⟨1, 8⟩⟩ = .rightParen) body
  exact Derives.item (.plain (.nested (by decide) loop)) .empty

end Session

namespace Grammar

/-- The grammar is not ambiguous: a list of tokens is one program at most. -/
theorem DerivesProgram.unique {tokens : List Token} {p p' : Program} (derives : DerivesProgram tokens p)
    (derives' : DerivesProgram tokens p') : p = p' := by
  have read {q : Program} (derived : DerivesProgram tokens q) :
      Reads Session.declarations ⟨tokens ++ [], .start⟩ q.declarations ⟨[], _⟩ :=
    completeStmt_of_derives derived maxNesting (Nat.zero_add _) (· = .eof) .declaration false [] .start
      (fun kind starts => decide_eq_false (kind_ne_of_starts starts rfl)) rfl nofun
  obtain ⟨declared⟩ := p
  obtain ⟨declared'⟩ := p'
  exact congrArg Program.mk ((read derives).unique (read derives')).1

end Grammar

end LoxFrontEnd
