import LoxFrontEnd.Proofs.Grammar.Canonical
import LoxFrontEnd.Proofs.Parse.Program

/-!
Parsing an expression is the inverse of rendering a canonical tree. Both go through the grammar: what is
parsed is what is derived, and what is derived is canonical.
-/

namespace LoxFrontEnd

open Grammar Parse

namespace Session

theorem reads_whole {α : Type} {rule : Parse α} {input rest : Input} {a : α} :
    Reads (whole rule) input a rest ↔ Reads rule input a rest ∧ rest.kind = .eof := by
  rw [whole, reads_bind]
  constructor
  · rintro ⟨a', later, read, next⟩
    obtain ⟨_, behind, ends, last⟩ := reads_bind.mp next
    obtain ⟨rfl, rfl⟩ := reads_pure.mp last
    rw [expectEnd, reads_peek_bind] at ends
    by_cases atEnd : later.kind = .eof
    · rw [if_pos atEnd] at ends
      obtain ⟨-, rfl⟩ := reads_pure.mp ends
      exact ⟨read, atEnd⟩
    · rw [if_neg atEnd] at ends
      exact absurd ends not_reads_unexpected
  · rintro ⟨read, atEnd⟩
    refine ⟨a, rest, read, Reads.bind (a := ()) ?_ .pure⟩
    rw [expectEnd, reads_peek_bind, if_pos atEnd]
    exact .pure

/-- The answer is a tree where it was read cleanly and nothing stands behind it. -/
theorem single_ok_iff_reads {α : Type} {rule : Parse α} {tokens : List Token} {a : α} :
    ((ofTokens tokens).single rule).result = .ok a ↔
      ∃ rest, Reads rule ⟨tokens, .start⟩ a rest ∧ rest.kind = .eof := by
  simp only [← reads_whole]
  rw [exists_reads_iff, single, ofTokens, List.nil_append]
  dsimp only
  cases (whole rule ⟨tokens, .start⟩).recovered with
  | cons e errors => exact ⟨nofun, fun ⟨_, clean⟩ => nomatch clean⟩
  | nil => exact ⟨fun same => ⟨same, rfl⟩, fun ⟨same, _⟩ => same⟩

/-- A list of tokens with an end mark is parsed into an expression exactly if the grammar derives the
expression from the tokens. -/
theorem expression_ok_iff_derives {tokens : List Token} {mark : Token} {e : Expr}
    (inner : ∀ token ∈ tokens, token.kind ≠ .eof) (isMark : mark.kind = .eof) :
    (ofTokens (tokens ++ [mark])).expression.result = .ok e ↔
      DerivesExpr maxNesting 0 (.expression e) tokens := by
  rw [expression, single_ok_iff_reads]
  constructor
  · rintro ⟨rest, read, ends⟩
    obtain ⟨taken, front, derives⟩ := expression_yields (Nat.zero_add maxNesting) _ _ _ read
    rw [← eq_of_append_mark_eq inner isMark derives.kind_ne_eof ends front]
    exact derives
  · intro derives
    exact ⟨_, reads_expression (Nat.zero_add maxNesting) derives
      (by rw [Input.kind_cons, isMark]; rfl), isMark⟩

/-- Parsing undoes rendering on canonical trees that are not nested too deep, but for lines. And whatever is
parsed from tokens with quoted strings is such a tree, rendered by these tokens. -/
theorem expression_inverse {tokens : List Token} {mark : Token} (isMark : mark.kind = .eof) :
    (∀ e : Expr, e.Canonical → e.Fits maxNesting 1 → tokens.map Token.mark = e.rendering →
      ∃ e', e'.Alike e ∧ (ofTokens (tokens ++ [mark])).expression.result = .ok e') ∧
    ((∀ token ∈ tokens, token.kind ≠ .eof) → QuotedStrings tokens →
      ∀ e, (ofTokens (tokens ++ [mark])).expression.result = .ok e →
        e.Canonical ∧ e.Fits maxNesting 1 ∧ tokens.map Token.mark = e.rendering) := by
  constructor
  · intro e canonical fits renders
    obtain ⟨e', alike, derived⟩ := derives_of_canonical e canonical fits renders
    have derives : DerivesExpr maxNesting 0 (.expression e') tokens := derived.expression (by decide)
    exact ⟨e', alike, (expression_ok_iff_derives derives.kind_ne_eof isMark).mpr derives⟩
  · intro inner quoted e parsed
    have derives := (expression_ok_iff_derives inner isMark).mp parsed
    obtain ⟨canonical, ⟨_, fits⟩, renders⟩ := shown_of_derives derives quoted
    exact ⟨canonical, fits, renders⟩

/-- The call `f("a")` is read back, up to its line. -/
theorem expression_inverse_call :
    let tokens : List Token := [⟨.identifier, "f", ⟨7, 1⟩⟩, ⟨.leftParen, "(", ⟨7, 2⟩⟩,
      ⟨.string, "\"a\"", ⟨7, 3⟩⟩, ⟨.rightParen, ")", ⟨7, 6⟩⟩]
    ∃ e', e'.Alike (.call (.var "f" 1) [.literal (.string "a")]) ∧
      (ofTokens (tokens ++ [⟨.eof, "", ⟨7, 7⟩⟩])).expression.result = .ok e' ∧ e'.Canonical := by
  intro tokens
  have inverse := @expression_inverse tokens ⟨.eof, "", ⟨7, 7⟩⟩ rfl
  have canonical : (Expr.call (.var "f" 1) [.literal (.string "a")]).Canonical :=
    ⟨Nat.le_succ 8, trivial, trivial, trivial⟩
  have fits : (Expr.call (.var "f" 1) [.literal (.string "a")]).Fits maxNesting 1 :=
    ⟨trivial, ⟨by decide, trivial⟩, trivial⟩
  obtain ⟨e', alike, parsed⟩ := inverse.1 _ canonical fits rfl
  have quoted : QuotedStrings tokens := by
    intro token member isString
    simp only [tokens, List.mem_cons, List.not_mem_nil, or_false] at member
    rcases member with rfl | rfl | rfl | rfl
    · cases isString
    · cases isString
    · exact ⟨"a", rfl⟩
    · cases isString
  have inner : ∀ token ∈ tokens, token.kind ≠ .eof := by simp [tokens]
  exact ⟨e', alike, parsed, (inverse.2 inner quoted e' parsed).1⟩

end Session

end LoxFrontEnd
