import LoxFrontEnd.Proofs.Grammar.Productions
import LoxFrontEnd.Proofs.Lexical.Layout
import LoxFrontEnd.Proofs.Number.Shortest
import LoxFrontEnd.Proofs.Parse.Ladder
import LoxFrontEnd.Proofs.Tree.FormText
import LoxFrontEnd.Proofs.Tree.Readable

/-!
Printed trees read back. The leaves of a printed tree are lexemes of a script and are scanned as such;
a group is told by its first word and the number of its parts. What is read back has no lines.
-/

namespace LoxFrontEnd

open Grammar Lexical

section Words

variable {word : String}

theorem isBare_of_wordPart {c : Char} (part : WordPart c) : Form.isBare c = true := by
  have apart : [' ', '(', ')', '"', '\n'].all (fun c => !Piece.isWordPart c) = true := by decide
  refine decide_eq_true fun member => ?_
  have other := List.all_eq_true.mp apart c member
  rw [isWordPart_iff.mpr part] at other
  cases other

theorem isWord_of_word (known : Word word.toList) : Form.IsWord word := by
  obtain ⟨first, others, chars, start, parts⟩ := known
  refine .bare (chars ▸ List.cons_ne_nil _ _) (chars ▸ List.forall_mem_cons.mpr ⟨?_, fun c member => ?_⟩)
  · exact isBare_of_wordPart (Or.inl start)
  · exact isBare_of_wordPart (parts c member)

theorem isWord_of_numeral {whole decimals : List Char} (numeral : Numeral word.toList whole decimals) :
    Form.IsWord word := by
  obtain ⟨c, others, chars, -⟩ := numeral.first
  have bare {digits : List Char} (known : Digits digits) : ∀ c ∈ digits, Form.isBare c = true :=
    fun c member => isBare_of_wordPart (Or.inr (known.2 c member))
  refine .bare (chars ▸ List.cons_ne_nil _ _) ?_
  generalize word.toList = text at numeral
  cases numeral with
  | whole digits => exact bare digits
  | decimal digits digits' =>
    exact List.forall_mem_append.mpr ⟨bare digits, List.forall_mem_cons.mpr ⟨rfl, bare digits'⟩⟩

/-- The leaves of a script are words. -/
theorem isWord_of_leaf {kind : TokenKind} (lexeme : Lexeme (.token kind) word.toList)
    (leaf : isLeaf kind = true) :
    Form.IsWord word := by
  generalize chars : word.toList = text at lexeme
  cases lexeme with
  | operator member =>
    have others : ∀ entry ∈ operators, isLeaf entry.2 = false := by decide
    cases leaf.symm.trans (others _ member)
  | string inside => exact .quoted chars inside
  | number numeral => exact isWord_of_numeral (chars ▸ numeral)
  | reserved known => exact isWord_of_word (chars ▸ known)
  | name known => exact isWord_of_word (chars ▸ known)

theorem IsName.isWord (known : IsName word) : Form.IsWord word := isWord_of_leaf known rfl

end Words

namespace Form

/-- What a word of a printed tree stands for, when it is a leaf. -/
def leaf? (word : String) : Option Expr :=
  match Piece.all word.toList with
  | [⟨.token kind, _⟩] => Token.leaf? ⟨kind, word, ⟨0, 0⟩⟩
  | _ => none

/-- A lexeme is scanned as one piece. -/
theorem all_of_lexeme {sort : PieceSort} {text : List Char} (lexeme : Lexeme sort text) :
    Piece.all text = [⟨sort, text⟩] := by
  have longest : Longest text sort text := ⟨lexeme, List.prefix_rfl, fun _ front => front.length_le⟩
  have cuts : Cuts (text ++ []) ⟨sort, text⟩ := by
    rw [List.append_nil]
    refine .lexeme (fun blank trivia => ?_) longest
    cases trivia with
    | space isBlank => cases lexeme.not_blank.symm.trans isBlank
    | comment => exact Lexeme.not_comment lexeme
  have cutting : Cutting (text ++ []) [⟨sort, text⟩] :=
    .cons (show Cuts (Piece.text ⟨sort, text⟩ ++ []) _ from cuts) .nil
  rw [List.append_nil] at cutting
  exact (cutting_iff.mp cutting).symm

theorem leaf?_of_lexeme {word : String} {kind : TokenKind} (lexeme : Lexeme (.token kind) word.toList) :
    leaf? word = Token.leaf? ⟨kind, word, ⟨0, 0⟩⟩ := by
  rw [leaf?, all_of_lexeme lexeme]

end Form

/-- A word of letters is a lexeme of its kind. -/
theorem lexeme_of_letters {text : List Char} {kind : TokenKind}
    (letters : text ≠ [] ∧ text.all Char.isAlpha = true) (same : .ofWord text = kind) :
    Lexeme (.token kind) text := by
  obtain ⟨first, others, rfl⟩ := List.exists_cons_of_ne_nil letters.1
  obtain ⟨start, parts⟩ := List.forall_mem_cons.mp (List.all_eq_true.mp letters.2)
  have known : Word (first :: others) :=
    ⟨first, others, rfl, Or.inl start, fun c member => Or.inl (Or.inl (parts c member))⟩
  exact same ▸ known.lexeme

/-- A tree as it is read back. -/
abbrev Expr.unlined (e : Expr) : Expr := e.nameInfinite.mapLines fun _ => 0

/-- A literal is printed as a lexeme that stands for it, or for a name where the number is not finite. -/
theorem Literal.Readable.lexeme {value : Literal} (readable : value.Readable) :
    ∃ kind, isLeaf kind = true ∧ Lexeme (.token kind) value.text.toList ∧
      Token.leaf? ⟨kind, value.text, ⟨0, 0⟩⟩ = some (Expr.literal value).unlined := by
  cases value with
  | number value =>
    rcases readable with rfl | ⟨units, fits, rfl⟩
    · exact ⟨.identifier, rfl, lexeme_of_letters (by decide) rfl, rfl⟩
    · obtain ⟨whole, decimals, numeral, noZero, value⟩ := Binary64.numeral_chars fits
      have lexeme := Lexeme.number numeral noZero
      rw [value] at lexeme
      refine ⟨.number (.finite false units fits), rfl, ?_, rfl⟩
      rw [Literal.text, Binary64.text, String.toList_ofList]
      exact lexeme
  | string text =>
    have chars : (Literal.string text).text.toList = '"' :: text.toList ++ ['"'] := by
      rw [Literal.text, String.toList_append, String.toList_append]
      rfl
    refine ⟨.string, rfl, chars ▸ .string readable, ?_⟩
    rw [Token.leaf?, unquote_of_quoted chars]
    rfl
  | bool value =>
    cases value with
    | true => exact ⟨.bool true, rfl, lexeme_of_letters (by decide) rfl, rfl⟩
    | false => exact ⟨.bool false, rfl, lexeme_of_letters (by decide) rfl, rfl⟩
  | nil => exact ⟨.kwNil, rfl, lexeme_of_letters (by decide) rfl, rfl⟩

theorem lexeme_this : Lexeme (.token .kwThis) "this".toList := lexeme_of_letters (by decide) rfl

theorem UnaryOp.isWord (op : UnaryOp) : Form.IsWord op.text := by
  cases op <;> exact .plain (by decide)

theorem LogicalOp.isWord (op : LogicalOp) : Form.IsWord op.text := by
  cases op <;> exact .plain (by decide)

theorem BinaryOp.isWord (op : BinaryOp) : Form.IsWord op.text := by
  cases op <;> exact .plain (by decide)

namespace Expr

open Form

mutual

theorem worded_form (e : Expr) (readable : e.Readable) : e.form.Worded := by
  cases e with
  | literal value =>
    obtain ⟨kind, leaf, lexeme, -⟩ := Literal.Readable.lexeme readable
    exact isWord_of_leaf lexeme leaf
  | var name line => exact IsName.isWord readable
  | assign name value =>
    exact ⟨.plain (by decide), readable.1.isWord, worded_form value readable.2, trivial⟩
  | getAttr object name =>
    exact ⟨.plain (by decide), worded_form object readable.1, readable.2.isWord, trivial⟩
  | setAttr object name value =>
    obtain ⟨readableObject, isName, readableValue⟩ := readable
    have target : (Expr.getAttr object name).form.Worded :=
      ⟨.plain (by decide), worded_form object readableObject, isName.isWord, trivial⟩
    exact ⟨.plain (by decide), target, worded_form value readableValue, trivial⟩
  | logical op left right =>
    exact ⟨op.isWord, worded_form left readable.1, worded_form right readable.2, trivial⟩
  | binary op left right =>
    exact ⟨op.isWord, worded_form left readable.1, worded_form right readable.2, trivial⟩
  | unary op operand => exact ⟨op.isWord, worded_form operand readable, trivial⟩
  | call callee arguments =>
    exact ⟨.plain (by decide), worded_form callee readable.1, worded_forms arguments readable.2⟩
  | thisRef line => exact isWord_of_leaf lexeme_this rfl
  | superRef method line => exact ⟨.plain (by decide), IsName.isWord readable, trivial⟩
  | grouping inner => exact ⟨.plain (by decide), worded_form inner readable, trivial⟩

theorem worded_forms (es : List Expr) (readable : ReadableAll es) : WordedAll (forms es) := by
  match es with
  | [] => trivial
  | e :: es => exact ⟨worded_form e readable.1, worded_forms es readable.2⟩

end

mutual

/-- Neither lines nor the names for numbers that are not finite change what is printed. -/
theorem form_unlined (e : Expr) (readable : e.Readable) : e.unlined.form = e.form := by
  cases e with
  | literal value =>
    match value, readable with
    | .number _, Or.inl rfl => rfl
    | .number _, Or.inr ⟨_, _, rfl⟩ => rfl
    | .string _, _ | .bool _, _ | .nil, _ => rfl
  | var | thisRef | superRef => rfl
  | assign name value =>
    exact congrArg (fun value => Form.group [.atom "=", .atom name, value]) (form_unlined value readable.2)
  | getAttr object name =>
    exact congrArg (fun object => Form.group [.atom ".", object, .atom name])
      (form_unlined object readable.1)
  | setAttr object name value =>
    exact congrArg₂ (fun object value =>
      Form.group [.atom "=", .group [.atom ".", object, .atom name], value])
      (form_unlined object readable.1) (form_unlined value readable.2.2)
  | logical op left right | binary op left right =>
    exact congrArg₂ (fun left right => Form.group [.atom op.text, left, right])
      (form_unlined left readable.1) (form_unlined right readable.2)
  | unary op operand =>
    exact congrArg (fun operand => Form.group [.atom op.text, operand]) (form_unlined operand readable)
  | call callee arguments =>
    exact congrArg₂ (fun callee arguments => Form.group (.atom "call" :: callee :: arguments))
      (form_unlined callee readable.1) (forms_unlined arguments readable.2)
  | grouping inner =>
    exact congrArg (fun inner => Form.group [.atom "group", inner]) (form_unlined inner readable)

theorem forms_unlined (es : List Expr) (readable : ReadableAll es) :
    forms (mapLinesAll (fun _ => 0) (nameInfiniteAll es)) = forms es := by
  match es with
  | [] => rfl
  | e :: es => exact congrArg₂ List.cons (form_unlined e readable.1) (forms_unlined es readable.2)

end

end Expr

/-- The operator that is written like this. -/
def UnaryOp.ofText? (text : String) : Option UnaryOp := [UnaryOp.minus, .not].find? (·.text = text)

def LogicalOp.ofText? (text : String) : Option LogicalOp := [LogicalOp.or, .and].find? (·.text = text)

def BinaryOp.ofText? (text : String) : Option BinaryOp :=
  [BinaryOp.plus, .minus, .multiply, .divide, .equal, .notEqual, .greater, .greaterEqual, .less,
    .lessEqual].find? (·.text = text)

namespace Form

/-- A group with an operator in front. -/
def operation? (head : String) (operands : List Expr) : Option Expr :=
  match operands with
  | [operand] => (UnaryOp.ofText? head).map (.unary · operand)
  | [left, right] =>
    ((LogicalOp.ofText? head).map (.logical · left right)).or
      ((BinaryOp.ofText? head).map (.binary · left right))
  | _ => none

mutual

/-- The expression that a form shows. -/
def expr? : Form → Option Expr
  | .atom word => leaf? word
  | .group [.atom "group", inner] => do return .grouping (← inner.expr?)
  | .group [.atom "super", .atom method] => some (.superRef method 0)
  | .group [.atom "=", .atom name, value] => do return .assign name (← value.expr?)
  | .group [.atom "=", .group [.atom ".", object, .atom name], value] => do
    return .setAttr (← object.expr?) name (← value.expr?)
  | .group [.atom ".", object, .atom name] => do return .getAttr (← object.expr?) name
  | .group (.atom "call" :: callee :: arguments) => do return .call (← callee.expr?) (← exprs? arguments)
  | .group (.atom head :: operands) => (exprs? operands).bind (operation? head)
  | .group _ => none

def exprs? : List Form → Option (List Expr)
  | [] => some []
  | form :: forms => do return (← form.expr?) :: (← exprs? forms)

end

theorem operation?_unary (op : UnaryOp) (operand : Expr) :
    operation? op.text [operand] = some (.unary op operand) := by
  cases op <;> rfl

theorem operation?_logical (op : LogicalOp) (left right : Expr) :
    operation? op.text [left, right] = some (.logical op left right) := by
  cases op <;> rfl

theorem operation?_binary (op : BinaryOp) (left right : Expr) :
    operation? op.text [left, right] = some (.binary op left right) := by
  cases op <;> rfl

/-- Nothing but operators stands in front of their operands. -/
theorem expr?_operation {head : String} {operands : List Form}
    (other : head ∉ ["group", "super", "=", ".", "call"]) :
    expr? (.group (.atom head :: operands)) = (exprs? operands).bind (operation? head) := by
  simp only [List.mem_cons, List.not_mem_nil, or_false, not_or] at other
  obtain ⟨notGroup, notSuper, notEqual, notDot, notCall⟩ := other
  rw [expr?]
  all_goals
    intros
    contradiction

end Form

namespace Expr

open Form

mutual

theorem expr?_form (e : Expr) (readable : e.Readable) : e.form.expr? = some e.unlined := by
  cases e with
  | literal value =>
    obtain ⟨kind, leaf, lexeme, stands⟩ := Literal.Readable.lexeme readable
    exact (leaf?_of_lexeme lexeme).trans stands
  | var name line => exact leaf?_of_lexeme readable
  | thisRef line => exact leaf?_of_lexeme lexeme_this
  | superRef method line => rfl
  | assign name value =>
    rw [form, expr?, expr?_form value readable.2]
    rfl
  | getAttr object name =>
    rw [form, expr?, expr?_form object readable.1]
    rfl
  | setAttr object name value =>
    rw [form, expr?, expr?_form object readable.1, expr?_form value readable.2.2]
    rfl
  | logical op left right =>
    have other : op.text ∉ ["group", "super", "=", ".", "call"] := by cases op <;> decide
    rw [form, expr?_operation other, exprs?, exprs?, exprs?, expr?_form left readable.1,
      expr?_form right readable.2]
    exact operation?_logical op _ _
  | binary op left right =>
    have other : op.text ∉ ["group", "super", "=", ".", "call"] := by cases op <;> decide
    rw [form, expr?_operation other, exprs?, exprs?, exprs?, expr?_form left readable.1,
      expr?_form right readable.2]
    exact operation?_binary op _ _
  | unary op operand =>
    have other : op.text ∉ ["group", "super", "=", ".", "call"] := by cases op <;> decide
    rw [form, expr?_operation other, exprs?, exprs?, expr?_form operand readable]
    exact operation?_unary op _
  | call callee arguments =>
    rw [form, expr?, expr?_form callee readable.1, exprs?_forms arguments readable.2]
    rfl
  | grouping inner =>
    rw [form, expr?, expr?_form inner readable]
    rfl

theorem exprs?_forms (es : List Expr) (readable : ReadableAll es) :
    exprs? (forms es) = some (mapLinesAll (fun _ => 0) (nameInfiniteAll es)) := by
  match es with
  | [] => rfl
  | e :: es =>
    rw [forms, exprs?, expr?_form e readable.1, exprs?_forms es readable.2]
    rfl

end

end Expr

end LoxFrontEnd
