import Mathlib.Data.List.DropRight
import LoxFrontEnd.Proofs.Lexical.Lexemes
import LoxFrontEnd.Scan.Tokens

/-!
The parts of a source text. A part is a piece of the text together with what is told of it, a token or
an error at the place that counting gives; without its place it is the piece again. A text that is cut
into pieces is laid out in such parts.
-/

namespace LoxFrontEnd

namespace Position

/-- The place behind a text, by counting: line feeds make lines, and columns begin behind the last of
them. -/
def behind (text : List Char) : Position :=
  ⟨1 + text.count '\n', 1 + (text.rtakeWhile (· ≠ '\n')).length⟩

/-- Going along a text counts its lines and columns. -/
theorem after_start (text : List Char) : start.after text = behind text := by
  induction text using List.reverseRecOn with
  | nil => rfl
  | append_singleton text c ih =>
    rw [after_append, ih, after_cons, after_nil, next, behind, behind]
    by_cases newline : c = '\n'
    · subst newline
      rw [if_pos rfl, List.count_append, List.rtakeWhile_concat_neg _ _ _ (by decide)]
      rfl
    · have counted : [c].count '\n' = 0 := List.count_eq_zero.mpr (by simpa using Ne.symm newline)
      rw [if_neg newline, List.count_append, counted,
        List.rtakeWhile_concat_pos _ _ _ (by exact decide_eq_true newline), List.length_append]
      rfl

theorem behind_after (before text : List Char) : (behind before).after text = behind (before ++ text) := by
  rw [← after_start, ← after_start, after_append]

end Position

namespace Lexical

/-- A part of a source text: one character of white space, a comment without its two slashes, the lexeme of
a token, or the text of an error. -/
inductive Part where
  | space (c : Char)
  | comment (body : List Char)
  | token (t : Token)
  | error (e : ScanError)

namespace Part

def text : Part → List Char
  | .space c => [c]
  | .comment body => '/' :: '/' :: body
  | .token t => t.lexeme.toList
  | .error e => e.text.toList

/-- What a part stands for. -/
def sort : Part → PieceSort
  | .space _ | .comment _ => .blank
  | .token t => .token t.kind
  | .error e => .fault e.cause

/-- A part without its place. -/
def piece (part : Part) : Piece := ⟨part.sort, part.text⟩

def token? : Part → Option Token
  | .token t => some t
  | _ => none

def error? : Part → Option ScanError
  | .error e => some e
  | _ => none

/-- Where a token or an error is placed. -/
def position? : Part → Option Position
  | .token t => some t.position
  | .error e => some e.position
  | _ => none

/-- `part.Stands before after`: the part can stand between these two texts. -/
inductive Stands (before after : List Char) : Part → Prop
  | space {c} : Text.isBlank c = true → Stands before after (.space c)
  | comment {body} : (∀ c ∈ body, c ≠ '\n') → EndsLine after → Stands before after (.comment body)
  | token {kind text} : Lexeme (.token kind) text →
      Stands before after (.token ⟨kind, String.ofList text, .behind before⟩)
  | unexpected {c} : Text.isBlank c = false → c ≠ '"' →
      (∀ sort text, Lexeme sort text → ¬ text <+: c :: after) →
      Stands before after (.error ⟨.unexpectedCharacter, String.ofList [c], .behind before⟩)
  | unterminated {body} : (∀ c ∈ body, Inside c) → EndsLine after →
      Stands before after (.error ⟨.unterminatedString, String.ofList ('"' :: body), .behind before⟩)
  | malformed {text} : Lexeme (.fault .leadingZero) text →
      Stands before after (.error ⟨.leadingZero, String.ofList text, .behind before⟩)

variable {before after : List Char} {part : Part}

/-- Where a part stands, its piece is told as the token that the part is. -/
theorem Stands.token? (stands : part.Stands before after) :
    Piece.token? (.behind before, part.piece) = part.token? := by
  cases stands with
  | token =>
    rw [piece, text, String.toList_ofList]
    rfl
  | space | comment | unexpected | unterminated | malformed => rfl

theorem Stands.error? (stands : part.Stands before after) :
    Piece.error? (.behind before, part.piece) = part.error? := by
  cases stands with
  | unexpected | unterminated | malformed =>
    rw [piece, text, String.toList_ofList]
    rfl
  | space | comment | token => rfl

end Part

/-- `Laid before text parts`: the text, which stands behind `before`, is these parts one behind another. -/
inductive Laid : List Char → List Char → List Part → Prop
  | nil {before} : Laid before [] []
  | cons {before rest part parts} : part.Stands before rest → Laid (before ++ part.text) rest parts →
      Laid before (part.text ++ rest) (part :: parts)

/-- What the pieces of a text are told as, each at the place where it begins, are the tokens and the
errors among the parts. -/
theorem Laid.place {before text : List Char} {parts : List Part} (laid : Laid before text parts) :
    (Piece.place (.behind before) (parts.map Part.piece)).filterMap Piece.token? =
        parts.filterMap Part.token? ∧
      (Piece.place (.behind before) (parts.map Part.piece)).filterMap Piece.error? =
        parts.filterMap Part.error? := by
  induction laid with
  | nil => exact ⟨rfl, rfl⟩
  | @cons before rest part parts stands _ ih =>
    have next : (Position.behind before).after part.piece.text = .behind (before ++ part.text) :=
      Position.behind_after before part.text
    rw [List.map_cons, Piece.place, next]
    constructor
    · rw [List.filterMap_cons, List.filterMap_cons, stands.token?, ih.1]
    · rw [List.filterMap_cons, List.filterMap_cons, stands.error?, ih.2]

/-- What is cut off behind `before` is a part. -/
theorem exists_part (before : List Char) {rest : List Char} {piece : Piece}
    (cuts : Cuts (piece.text ++ rest) piece) :
    ∃ part : Part, part.Stands before rest ∧ part.piece = piece := by
  have told (sort : PieceSort) (text : List Char) :
      Piece.mk sort (String.ofList text).toList = ⟨sort, text⟩ := by
    rw [String.toList_ofList]
  generalize whole : piece.text ++ rest = text at cuts
  cases cuts with
  | trivia trivia =>
    cases trivia with
    | @space c _ blank => exact ⟨.space c, .space blank, rfl⟩
    | @comment body rest' all ends =>
      obtain rfl : rest = rest' := (List.append_right_inj ('/' :: '/' :: body)).mp whole
      exact ⟨.comment body, .comment all ends, rfl⟩
  | @lexeme _ sort text _ longest =>
    have lexeme := longest.lexeme
    match sort, lexeme with
    | .token kind, lexeme =>
      exact ⟨.token ⟨kind, String.ofList text, .behind before⟩, .token lexeme, told _ _⟩
    | .fault .leadingZero, lexeme =>
      exact ⟨.error ⟨.leadingZero, _, .behind before⟩, .malformed lexeme, told _ _⟩
  | @unterminated body rest' inside ends =>
    obtain rfl : rest = rest' := (List.append_right_inj ('"' :: body)).mp whole
    exact ⟨.error ⟨.unterminatedString, _, .behind before⟩, .unterminated inside ends, told _ _⟩
  | @unexpected c rest' none noLexeme quote =>
    obtain rfl : rest = rest' := (List.append_right_inj [c]).mp whole
    have blank : Text.isBlank c = false := Bool.eq_false_iff.mpr fun blank => none [c] (.space blank)
    exact ⟨.error ⟨.unexpectedCharacter, _, .behind before⟩, .unexpected blank quote noLexeme, told _ _⟩

/-- A text that is cut into pieces is laid out in parts that are these pieces. -/
theorem exists_laid {text : List Char} {pieces : List Piece} (cutting : Cutting text pieces)
    (before : List Char) :
    ∃ parts, Laid before text parts ∧ parts.map Part.piece = pieces := by
  induction cutting generalizing before with
  | nil => exact ⟨[], .nil, rfl⟩
  | @cons piece rest pieces cuts _ ih =>
    obtain ⟨part, stands, rfl⟩ := exists_part before cuts
    obtain ⟨parts, laid, rfl⟩ := ih (before ++ part.text)
    exact ⟨part :: parts, .cons stands laid, rfl⟩

end Lexical

end LoxFrontEnd
