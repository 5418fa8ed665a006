import LoxFrontEnd.Scan.Error

/-!
From a source text to its tokens. The text is cut into pieces, each piece gets its place, and
the tokens and the faults among them are picked out. An end mark follows the last token.
-/

namespace LoxFrontEnd

namespace Piece

/-- All pieces of a text, in order. -/
def all : List Char → List Piece
  | [] => []
  | c :: cs => (next c cs).1 :: all (next c cs).2
termination_by text => text.length
decreasing_by exact next_shorter c cs

/-- Pieces that follow one another, each with the place where it begins. -/
def place : Position → List Piece → List (Position × Piece)
  | _, [] => []
  | p, piece :: pieces => (p, piece) :: place (p.after piece.text) pieces

def token? : Position × Piece → Option Token
  | (p, ⟨.token kind, text⟩) => some ⟨kind, String.ofList text, p⟩
  | _ => none

def error? : Position × Piece → Option ScanError
  | (p, ⟨.fault cause, text⟩) => some ⟨cause, String.ofList text, p⟩
  | _ => none

end Piece

/-- What a source text holds: its tokens with the end mark, and its lexical errors. -/
structure Scan where
  tokens : List Token
  errors : List ScanError
  deriving DecidableEq

namespace Scan

/-- The mark behind the last token. -/
def endMark (text : List Char) : Token :=
  ⟨.eof, "", Position.start.after text⟩

def ofChars (text : List Char) : Scan :=
  let placed := Piece.place .start (Piece.all text)
  ⟨placed.filterMap Piece.token? ++ [endMark text], placed.filterMap Piece.error?⟩

def ofSource (source : String) : Scan :=
  ofChars source.toList

end Scan

/-- The tokens of a source text, or all its lexical errors. -/
def tokenize (source : String) : Except (List ScanError) (List Token) :=
  let scan := Scan.ofSource source
  if scan.errors.isEmpty then .ok scan.tokens else .error scan.errors

end LoxFrontEnd
