import LoxFrontEnd.Token
import LoxFrontEnd.Number.Decimal
import LoxFrontEnd.Text.Blank

/-!
A source text is cut into pieces: blanks, tokens and faults. `Piece.next` takes the longest piece
that the lexical rules allow at the front of a text. No character is lost (`next_append`), and
every piece has at least one (`next_shorter`), so that cutting ends.
-/

namespace LoxFrontEnd

/-- Why a piece is no token. -/
inductive ScanFault where
  | unexpectedCharacter
  | unterminatedString
  | leadingZero
  deriving DecidableEq, Repr

/-- What a piece stands for. White space and comments are blank. -/
inductive PieceSort where
  | blank
  | token (kind : TokenKind)
  | fault (cause : ScanFault)
  deriving DecidableEq

structure Piece where
  sort : PieceSort
  text : List Char
  deriving DecidableEq

namespace Piece

def isWordStart (c : Char) : Bool := c.isAlpha || c == '_'

def isWordPart (c : Char) : Bool := c.isAlphanum || c == '_'

/-- A quote begins a string, which ends at the next quote on the same line. -/
def string (cs : List Char) : Piece × List Char :=
  let inside c := c ≠ '"' ∧ c ≠ '\n'
  let body := cs.takeWhile inside
  match cs.dropWhile inside with
  | '"' :: rest => (⟨.token .string, '"' :: body ++ ['"']⟩, rest)
  | rest => (⟨.fault .unterminatedString, '"' :: body⟩, rest)

/-- The digits behind a point, if the text begins with a point and a digit. -/
def fraction : List Char → List Char × List Char
  | '.' :: d :: cs =>
    if d.isDigit then (d :: cs.takeWhile Char.isDigit, cs.dropWhile Char.isDigit) else ([], '.' :: d :: cs)
  | cs => ([], cs)

/-- Digits, and a point with more digits behind it. Only a zero on its own may come first. -/
def number (c : Char) (cs : List Char) : Piece × List Char :=
  let whole := c :: cs.takeWhile Char.isDigit
  let (decimals, rest) := fraction (cs.dropWhile Char.isDigit)
  let text := if decimals.isEmpty then whole else whole ++ '.' :: decimals
  let sort : PieceSort :=
    if c = '0' ∧ 1 < whole.length then .fault .leadingZero
    else .token (.number ((Decimal.ofDigits whole decimals).toBinary64 false))
  (⟨sort, text⟩, rest)

def word (c : Char) (cs : List Char) : Piece × List Char :=
  let text := c :: cs.takeWhile isWordPart
  (⟨.token (.ofWord text), text⟩, cs.dropWhile isWordPart)

/-- An operator of two characters where there is one, else of one. -/
def symbol (c : Char) (cs : List Char) : Piece × List Char :=
  match cs.head?.bind (TokenKind.ofPair? c) with
  | some kind => (⟨.token kind, c :: cs.take 1⟩, cs.drop 1)
  | none =>
    match TokenKind.ofChar? c with
    | some kind => (⟨.token kind, [c]⟩, cs)
    | none => (⟨.fault .unexpectedCharacter, [c]⟩, cs)

/-- The first piece of the text `c :: cs`, and what is behind it. -/
def next (c : Char) (cs : List Char) : Piece × List Char :=
  if Text.isBlank c then (⟨.blank, [c]⟩, cs)
  else if c = '/' ∧ cs.head? = some '/' then
    (⟨.blank, c :: cs.takeWhile (· ≠ '\n')⟩, cs.dropWhile (· ≠ '\n'))
  else if c = '"' then string cs
  else if c.isDigit then number c cs
  else if isWordStart c then word c cs
  else symbol c cs

theorem string_append (cs : List Char) : (string cs).1.text ++ (string cs).2 = '"' :: cs := by
  simp only [string]
  split
  · rename_i rest h
    simp only [List.cons_append, List.append_assoc, List.nil_append, ← h,
      List.takeWhile_append_dropWhile]
  · simp only [List.cons_append, List.takeWhile_append_dropWhile]

theorem fraction_append (cs : List Char) :
    (if (fraction cs).1.isEmpty then [] else '.' :: (fraction cs).1) ++ (fraction cs).2 = cs := by
  unfold fraction
  split
  · split
    · simp only [List.isEmpty_cons, Bool.false_eq_true, if_false, List.cons_append,
        List.takeWhile_append_dropWhile]
    · rfl
  · rfl

theorem number_append (c : Char) (cs : List Char) :
    (number c cs).1.text ++ (number c cs).2 = c :: cs := by
  have whole := List.takeWhile_append_dropWhile (p := Char.isDigit) (l := cs)
  have decimals := fraction_append (cs.dropWhile Char.isDigit)
  generalize hf : fraction (cs.dropWhile Char.isDigit) = f at decimals
  simp only [number, hf]
  split at decimals
  all_goals simp_all

theorem word_append (c : Char) (cs : List Char) : (word c cs).1.text ++ (word c cs).2 = c :: cs := by
  simp only [word, List.cons_append, List.takeWhile_append_dropWhile]

theorem symbol_append (c : Char) (cs : List Char) :
    (symbol c cs).1.text ++ (symbol c cs).2 = c :: cs := by
  unfold symbol
  split
  · simp only [List.cons_append, List.take_append_drop]
  · split <;> rfl

/-- A piece and what is behind it make up the text. -/
theorem next_append (c : Char) (cs : List Char) : (next c cs).1.text ++ (next c cs).2 = c :: cs := by
  unfold next
  split
  · rfl
  split
  · simp only [List.cons_append, List.takeWhile_append_dropWhile]
  split
  · rename_i quote
    rw [string_append, quote]
  split
  · exact number_append c cs
  split
  · exact word_append c cs
  · exact symbol_append c cs

theorem number_text_ne_nil (c : Char) (cs : List Char) : (number c cs).1.text ≠ [] := by
  simp only [number]
  split <;> simp

/-- Every piece has a character. -/
theorem next_text_ne_nil (c : Char) (cs : List Char) : (next c cs).1.text ≠ [] := by
  unfold next
  split
  · simp
  split
  · simp
  split
  · simp only [string]
    split <;> simp
  split
  · exact number_text_ne_nil c cs
  split
  · simp [word]
  · unfold symbol
    split
    · simp
    · split <;> simp

theorem next_shorter (c : Char) (cs : List Char) : (next c cs).2.length < (c :: cs).length := by
  have lengths := congrArg List.length (next_append c cs)
  have positive := List.length_pos_iff.mpr (next_text_ne_nil c cs)
  rw [List.length_append] at lengths
  omega

end Piece

end LoxFrontEnd
