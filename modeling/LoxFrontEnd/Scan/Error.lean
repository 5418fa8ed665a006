import LoxFrontEnd.Scan.Piece

/-!
Reports of the pieces that are no tokens.
-/

namespace LoxFrontEnd

structure ScanError where
  cause : ScanFault
  /-- The piece at fault. -/
  text : String
  position : Position
  deriving DecidableEq

namespace ScanError

def message (e : ScanError) : String :=
  match e.cause with
  | .unexpectedCharacter => "Unexpected character '" ++ e.text ++ "'."
  | .unterminatedString => "Unterminated string."
  | .leadingZero => "Invalid number '" ++ e.text ++ "': leading zeros are not allowed."

end ScanError

end LoxFrontEnd
