import LoxFrontEnd.Scan.Piece

/-!
The lexical grammar, apart from any way to scan. It says which texts are lexemes, which are trivia
between them, and what is to be cut off at the front of a text: trivia where there is some, else the
longest lexeme, else a fault.
-/

namespace LoxFrontEnd

namespace Lexical

/-- The operators and punctuation marks. -/
def operators : List (List Char × TokenKind) :=
  [(['('], .leftParen), ([')'], .rightParen), (['{'], .leftBrace), (['}'], .rightBrace),
    ([','], .comma), (['.'], .dot), (['-'], .minus), (['+'], .plus), ([';'], .semicolon),
    (['/'], .slash), (['*'], .star), (['!'], .bang), (['!', '='], .bangEqual), (['='], .equal),
    (['=', '='], .equalEqual), (['>'], .greater), (['>', '='], .greaterEqual), (['<'], .less),
    (['<', '='], .lessEqual)]

/-- The words that are no names, each with what it stands for. -/
def reservedWords : List (String × TokenKind) :=
  [("var", .kwVar), ("fun", .kwFun), ("class", .kwClass), ("print", .kwPrint), ("if", .kwIf),
    ("else", .kwElse), ("while", .kwWhile), ("for", .kwFor), ("return", .kwReturn),
    ("and", .kwAnd), ("or", .kwOr), ("true", .bool true), ("false", .bool false), ("nil", .kwNil),
    ("this", .kwThis), ("super", .kwSuper)]

/-- One digit or more. -/
def Digits (text : List Char) : Prop := text ≠ [] ∧ ∀ c ∈ text, c.isDigit = true

/-- A numeral with its digits in front of the point and behind it. A point has digits on both sides. -/
inductive Numeral : List Char → List Char → List Char → Prop
  | whole {whole} : Digits whole → Numeral whole whole []
  | decimal {whole decimals} : Digits whole → Digits decimals →
      Numeral (whole ++ '.' :: decimals) whole decimals

/-- More than one digit, and the first of them is a zero. -/
def LeadingZero (whole : List Char) : Prop := ∃ d others, whole = '0' :: d :: others

def WordStart (c : Char) : Prop := c.isAlpha = true ∨ c = '_'

def WordPart (c : Char) : Prop := WordStart c ∨ c.isDigit = true

/-- A letter or an underscore, and letters, digits and underscores behind it. -/
def Word (text : List Char) : Prop :=
  ∃ first others, text = first :: others ∧ WordStart first ∧ ∀ c ∈ others, WordPart c

/-- What a string may have between its quotes. -/
def Inside (c : Char) : Prop := c ≠ '"' ∧ c ≠ '\n'

/-- The lexemes, each with what it stands for. A numeral with a leading zero is taken as a whole, and is
a fault. -/
inductive Lexeme : PieceSort → List Char → Prop
  | operator {spelling kind} : (spelling, kind) ∈ operators → Lexeme (.token kind) spelling
  | string {body} : (∀ c ∈ body, Inside c) → Lexeme (.token .string) ('"' :: body ++ ['"'])
  | number {text whole decimals} : Numeral text whole decimals → ¬ LeadingZero whole →
      Lexeme (.token (.number ((Decimal.ofDigits whole decimals).toBinary64 false))) text
  | leadingZero {text whole decimals} : Numeral text whole decimals → LeadingZero whole →
      Lexeme (.fault .leadingZero) text
  | reserved {text kind} : Word text → (String.ofList text, kind) ∈ reservedWords →
      Lexeme (.token kind) text
  | name {text} : Word text → (∀ kind, (String.ofList text, kind) ∉ reservedWords) →
      Lexeme (.token .identifier) text

/-- The longest lexeme, of whatever sort, at the front of a text. -/
structure Longest (rest : List Char) (sort : PieceSort) (text : List Char) : Prop where
  lexeme : Lexeme sort text
  front : text <+: rest
  longest : ∀ {sort' text'}, Lexeme sort' text' → text' <+: rest → text'.length ≤ text.length

/-- There is nothing, or a new line begins. -/
def EndsLine (rest : List Char) : Prop := ∀ c ∈ rest.head?, c = '\n'

/-- White space and comments at the front of a text. A comment goes to the end of its line. -/
inductive Trivia : List Char → List Char → Prop
  | space {c rest} : Text.isBlank c = true → Trivia (c :: rest) [c]
  | comment {body rest} : (∀ c ∈ body, c ≠ '\n') → EndsLine rest →
      Trivia ('/' :: '/' :: (body ++ rest)) ('/' :: '/' :: body)

/-- What is cut off at the front of a text. -/
inductive Cuts : List Char → Piece → Prop
  | trivia {rest text} : Trivia rest text → Cuts rest ⟨.blank, text⟩
  | lexeme {rest sort text} : (∀ blank, ¬ Trivia rest blank) → Longest rest sort text →
      Cuts rest ⟨sort, text⟩
  | unterminated {body rest} : (∀ c ∈ body, Inside c) → EndsLine rest →
      Cuts ('"' :: (body ++ rest)) ⟨.fault .unterminatedString, '"' :: body⟩
  | unexpected {c rest} : (∀ blank, ¬ Trivia (c :: rest) blank) →
      (∀ sort text, Lexeme sort text → ¬ text <+: c :: rest) → c ≠ '"' →
      Cuts (c :: rest) ⟨.fault .unexpectedCharacter, [c]⟩

/-- A text cut into pieces from its front to its end. -/
inductive Cutting : List Char → List Piece → Prop
  | nil : Cutting [] []
  | cons {piece rest pieces} : Cuts (piece.text ++ rest) piece → Cutting rest pieces →
      Cutting (piece.text ++ rest) (piece :: pieces)

end Lexical

end LoxFrontEnd
