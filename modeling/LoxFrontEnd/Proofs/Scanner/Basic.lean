import LoxFrontEnd.Trace

/-!
The scanner step by step. It has two cursors in the text: the characters that are ahead, and an offset
that counts the bytes behind. The next character is looked up at the first cursor; the character
behind the next one and all lexemes are cut out of the text at the second one. A cut that goes through
a character ends the scanner without a result.
-/

namespace LoxFrontEnd

/-- The characters between two offsets in bytes. Both have to stand between characters. -/
def slice (source : String) (start stop : Nat) : Option String :=
  if valid : (String.Pos.Raw.mk start).IsValid source ∧ (String.Pos.Raw.mk stop).IsValid source ∧
      start ≤ stop then
    some (String.extract (source.pos ⟨start⟩ valid.1) (source.pos ⟨stop⟩ valid.2.1))
  else none

/-- Where the scanner stands in its rules. -/
inductive Phase where
  /-- In front of a lexeme. -/
  | between
  /-- Behind this first character of a lexeme. -/
  | begun (c : Char)
  | comment
  | string
  /-- In the digits in front of a point. -/
  | whole
  /-- In the digits behind a point. The digits in front of it end at this offset. -/
  | decimals (wholeEnd : Nat)
  | numeral (wholeEnd : Nat)
  | word
  | token (kind : TokenKind)
  | fault (cause : ScanFault) (text : String)
  | done
  deriving DecidableEq

structure Scanner where
  phase : Phase
  ahead : List Char
  /-- The number of bytes behind. -/
  current : Nat
  position : Position
  lexemeStart : Nat
  lexemePosition : Position
  tokens : List Token
  errors : List ScanError
  log : List LogRecord
  deriving DecidableEq

namespace Scanner

def ofSource (source : String) : Scanner :=
  ⟨.between, source.toList, 0, .start, 0, .start, [], [], []⟩

def goto (s : Scanner) (phase : Phase) : Scanner := { s with phase := phase }

/-- Takes the next character, if there is one. -/
def advance (s : Scanner) : Scanner :=
  match s.ahead with
  | [] => s
  | c :: ahead =>
    { s with ahead := ahead, current := s.current + c.utf8Size, position := s.position.next c }

/-- Whether the next character is of the class. -/
def sees (s : Scanner) (p : Char → Bool) : Bool := s.ahead.head?.any p

/-- Takes the next character if it is this one. -/
def matchOne (s : Scanner) (expected : Char) (matched other : Phase) : Scanner :=
  if s.sees (· = expected) then s.advance.goto matched else s.goto other

def isAtEnd (source : String) (s : Scanner) : Bool := source.utf8ByteSize ≤ s.current

/-- The character behind the next one. -/
def peekTwo (source : String) (s : Scanner) : Option (Option Char) := do
  return (← slice source s.current source.utf8ByteSize).toList[1]?

def lexeme (source : String) (s : Scanner) : Option String := slice source s.lexemeStart s.current

/-- Begins a lexeme with the next character. -/
def begin (s : Scanner) : Scanner :=
  let s := { s with lexemeStart := s.current, lexemePosition := s.position }
  match s.ahead with
  | [] => s
  | c :: _ => s.advance.goto (.begun c)

/-- Goes on behind the first character of a lexeme. -/
def classify (s : Scanner) (c : Char) : Scanner :=
  match TokenKind.ofChar? c with
  | some kind =>
    if c = '/' then s.matchOne '/' .comment (.token kind)
    else
      match TokenKind.ofPair? c '=' with
      | some pair => s.matchOne '=' (.token pair) (.token kind)
      | none => s.goto (.token kind)
  | none =>
    if Text.isBlank c then s.goto .between
    else if c = '"' then s.goto .string
    else if c.isDigit then s.goto .whole
    else if Piece.isWordStart c then s.goto .word
    else s.goto (.fault .unexpectedCharacter (String.singleton c))

/-- A point belongs to a number only in front of a digit. -/
def point (source : String) (s : Scanner) : Option Scanner :=
  if s.sees (· = '.') then do
    let next ← s.peekTwo source
    return if next.any Char.isDigit then s.advance.goto (.decimals s.current)
      else s.goto (.numeral s.current)
  else some (s.goto (.numeral s.current))

/-- The value of digits with perhaps a point among them. -/
def value (numeral : List Char) : Binary64 :=
  (Decimal.ofDigits (numeral.takeWhile Char.isDigit)
    ((numeral.dropWhile Char.isDigit).drop 1)).toBinary64 false

/-- Only a zero on its own may come first in a number. -/
def number (source : String) (s : Scanner) (wholeEnd : Nat) : Option Scanner := do
  let lexeme ← s.lexeme source
  let whole ← slice source s.lexemeStart wholeEnd
  return s.goto <|
    if 1 < whole.utf8ByteSize ∧ whole.toList.head? = some '0' then .fault .leadingZero lexeme
    else .token (.number (value lexeme.toList))

def push (s : Scanner) (token : Token) : Scanner :=
  { s with phase := .between, tokens := s.tokens ++ [token] }

def report (s : Scanner) (e : ScanError) : Scanner :=
  { s with phase := .between, errors := s.errors ++ [e],
           log := s.log ++ [⟨.debug, .scanner, messageAt e.message e.position⟩] }

/-- Puts the end mark behind the tokens, and the totals into the log. -/
def close (s : Scanner) : Scanner :=
  let tokens := s.tokens ++ [⟨.eof, "", s.position⟩]
  { s with phase := .done, tokens := tokens,
           log := s.log ++ [⟨.debug, .scanner, "scanned " ++ toString tokens.length ++ " tokens with "
             ++ toString s.errors.length ++ " errors"⟩] }

/-- One step takes one character at most, and comes to nothing where a cut goes through a character. -/
def step (source : String) (s : Scanner) : Option Scanner :=
  match s.phase with
  | .between => some (if s.isAtEnd source then s.close else s.begin)
  | .begun c => some (s.classify c)
  | .comment => some (if s.sees (· ≠ '\n') then s.advance else s.goto .between)
  | .string =>
    if s.sees fun c => c ≠ '"' ∧ c ≠ '\n' then some s.advance
    else if s.sees (· = '"') then some (s.advance.goto (.token .string))
    else do return s.goto (.fault .unterminatedString (← s.lexeme source))
  | .whole => if s.sees Char.isDigit then some s.advance else s.point source
  | .decimals wholeEnd => some (if s.sees Char.isDigit then s.advance else s.goto (.numeral wholeEnd))
  | .numeral wholeEnd => s.number source wholeEnd
  | .word =>
    if s.sees Piece.isWordPart then some s.advance
    else do return s.goto (.token (.ofWord (← s.lexeme source).toList))
  | .token kind => do return s.push ⟨kind, ← s.lexeme source, s.lexemePosition⟩
  | .fault cause text => some (s.report ⟨cause, text, s.lexemePosition⟩)
  | .done => some s

/-- The scanner after so many steps. -/
def run (source : String) : Nat → Option Scanner
  | 0 => some (ofSource source)
  | n + 1 => (run source n).bind (step source)

end Scanner

end LoxFrontEnd
