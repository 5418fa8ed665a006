import LoxFrontEnd.Parse.Basic

/-!
Recovery: behind an error, tokens are skipped up to the end of the statement or the beginning of
the next one. The token at fault goes as well, unless it closes an open block.
-/

namespace LoxFrontEnd

namespace Input

/-- Skips on from a token that was taken at `last`. A semicolon is the last token skipped. The end
of input and the beginning of a statement are kept, and inside a block its closing brace. -/
def skipOn (enclosed : Bool) (last : Position) : List Token → Input
  | [] => ⟨[], last⟩
  | token :: tokens =>
    if token.kind = .eof ∨ (token.kind = .rightBrace ∧ enclosed = true) then ⟨token :: tokens, last⟩
    else if token.kind = .semicolon then ⟨tokens, token.position⟩
    else if token.kind.startsStatement then ⟨token :: tokens, last⟩
    else skipOn enclosed token.position tokens

/-- Skips the rest of a statement that has gone wrong. -/
def skip (enclosed : Bool) (input : Input) : Input :=
  match input.tokens with
  | [] => input
  | token :: tokens =>
    if token.kind = .rightBrace ∧ enclosed = true then input
    else if token.kind = .semicolon then ⟨tokens, token.position⟩
    else skipOn enclosed token.position tokens

end Input

/-- Runs a rule. If it fails, the error becomes an event, the rest of the statement is skipped and
there is no value. -/
def Parse.recovering {α : Type} (site : RecoverySite) (enclosed : Bool) (p : Parse α) : Parse (Option α) :=
  fun input =>
    match p input with
    | ⟨.ok a, rest, events⟩ => ⟨.ok (some a), rest, events⟩
    | ⟨.error e, rest, events⟩ => ⟨.ok none, rest.skip enclosed, events ++ [.recovered site e]⟩

end LoxFrontEnd
