/-!
Places in a source text. A place is a line and a column, both counted from 1; a column counts
characters, and only a line feed begins a new line.
-/

namespace LoxFrontEnd

structure Position where
  line : Nat
  column : Nat
  deriving DecidableEq, Repr, Inhabited

namespace Position

/-- The place of the first character of a text. -/
def start : Position := ⟨1, 1⟩

/-- The place just behind a character that stands at `p`. -/
def next (p : Position) (c : Char) : Position :=
  if c = '\n' then ⟨p.line + 1, 1⟩ else ⟨p.line, p.column + 1⟩

/-- The place just behind a text that begins at `p`. -/
def after (p : Position) (text : List Char) : Position :=
  text.foldl next p

@[simp] theorem after_nil (p : Position) : p.after [] = p := rfl

@[simp] theorem after_cons (p : Position) (c : Char) (text : List Char) :
    p.after (c :: text) = (p.next c).after text := rfl

/-- Texts are measured piece by piece. -/
theorem after_append (p : Position) (before rest : List Char) :
    p.after (before ++ rest) = (p.after before).after rest :=
  List.foldl_append ..

/-- The written form, line and column with a colon between them. -/
def text (p : Position) : String :=
  toString p.line ++ ":" ++ toString p.column

end Position

end LoxFrontEnd
