import LoxFrontEnd.Proofs.Grammar.CanonicalProgram
import LoxFrontEnd.Proofs.Parse.Program

/-!
What parsing a program can answer: canonical programs, and all of them that are not nested too deep.
So an `else` belongs to the nearest `if` that can take it, since no branch in front of one is open.
-/

namespace LoxFrontEnd

open Grammar Parse

namespace Session

/-- Whatever is parsed, from any tokens and behind any calls, is canonical. And a canonical program
that is not nested too deep is parsed from its rendering, but for its lines. -/
theorem program_image :
    (∀ (s : Session) (p : Program), s.program.result = .ok p → p.Canonical) ∧
    ∀ (tokens : List Token) (mark : Token) (p : Program), mark.kind = .eof → p.Canonical →
      p.Fits maxNesting → tokens.map Token.mark = p.rendering →
      ∃ p', p'.Alike p ∧ (ofTokens (tokens ++ [mark])).program.result = .ok p' := by
  constructor
  · intro s p answer
    obtain ⟨-, rest, read⟩ := program_ok_iff.mp answer
    obtain ⟨taken, -, derives⟩ := body_yields (declaration_yields (Nat.zero_add maxNesting)) _ _ _ read
    exact canonicalPhrase_of_derives derives
  · intro tokens mark p isMark canonical fits renders
    obtain ⟨ss, alike, derives⟩ := restoredAll_of_canonical p.declarations canonical fits renders
    exact ⟨⟨ss⟩, congrArg Program.mk alike, (program_ok_iff_derives derives.kind_ne_eof isMark).mpr derives⟩

/-- In `if (a) if (b) c; else d;` the `else` belongs to the second `if`. -/
theorem program_image_else :
    let tokens : List Token :=
      [⟨.kwIf, "if", ⟨1, 1⟩⟩, ⟨.leftParen, "(", ⟨1, 4⟩⟩, ⟨.identifier, "a", ⟨1, 5⟩⟩,
        ⟨.rightParen, ")", ⟨1, 6⟩⟩, ⟨.kwIf, "if", ⟨1, 8⟩⟩, ⟨.leftParen, "(", ⟨1, 11⟩⟩,
        ⟨.identifier, "b", ⟨1, 12⟩⟩, ⟨.rightParen, ")", ⟨1, 13⟩⟩, ⟨.identifier, "c", ⟨1, 15⟩⟩,
        ⟨.semicolon, ";", ⟨1, 16⟩⟩, ⟨.kwElse, "else", ⟨1, 18⟩⟩, ⟨.identifier, "d", ⟨1, 23⟩⟩,
        ⟨.semicolon, ";", ⟨1, 24⟩⟩]
    let inner : Stmt := .ifElse (.var "b" 0) (.expr (.var "c" 0)) (some (.expr (.var "d" 0)))
    ∃ p : Program, p.Alike ⟨[.ifElse (.var "a" 0) inner none]⟩ ∧
      (ofTokens (tokens ++ [⟨.eof, "", ⟨1, 25⟩⟩])).program.result = .ok p ∧ p.Canonical := by
  intro tokens inner
  have canonical : (Program.mk [.ifElse (.var "a" 0) inner none]).Canonical :=
    ⟨⟨trivial, id, trivial, ⟨id, trivial⟩, id, id, trivial⟩, trivial⟩
  have fits : (Program.mk [.ifElse (.var "a" 0) inner none]).Fits maxNesting := by
    refine ⟨⟨by decide, ⟨by decide, trivial⟩, by decide, ⟨by decide, trivial⟩,
      ⟨by decide, by decide, trivial⟩, by decide, by decide, trivial⟩, trivial⟩
  obtain ⟨p, alike, parsed⟩ := program_image.2 tokens ⟨.eof, "", ⟨1, 25⟩⟩ _ rfl canonical fits rfl
  exact ⟨p, alike, parsed, program_image.1 _ p parsed⟩

end Session

end LoxFrontEnd
