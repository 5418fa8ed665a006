import LoxFrontEnd.Proofs.Lexical.MaximalMunch

/-!
The layout of a source text. Nothing is lost between the tokens and the errors but white space and
comments, and every token and every error stands at the place that counting the lines and the columns of
the text in front of it gives.
-/

namespace LoxFrontEnd

namespace Position

/-- Places are passed line by line, and column by column on one line. -/
def Before (p q : Position) : Prop :=
  p.line < q.line ∨ p.line = q.line ∧ p.column < q.column

theorem Before.trans {p q r : Position} (first : p.Before q) (second : q.Before r) : p.Before r := by
  unfold Before at *
  omega

theorem before_next (p : Position) (c : Char) : p.Before (p.next c) := by
  rw [next]
  split
  · exact Or.inl (Nat.lt_succ_self _)
  · exact Or.inr ⟨rfl, Nat.lt_succ_self _⟩

/-- Characters take the place further on. -/
theorem before_after (p : Position) {text : List Char} (some : text ≠ []) : p.Before (p.after text) := by
  induction text generalizing p with
  | nil => exact absurd rfl some
  | cons c text ih =>
    by_cases last : text = []
    · rw [last]
      exact before_next p c
    · exact (before_next p c).trans (ih (p.next c) last)

theorem behind_append (before : List Char) {text : List Char} (some : text ≠ []) :
    (behind before).Before (behind (before ++ text)) := by
  rw [← behind_after]
  exact before_after _ some

end Position

namespace Lexical

/-- A lexeme begins with a character that can be seen. -/
theorem Lexeme.not_blank {sort : PieceSort} {c : Char} {others : List Char}
    (lexeme : Lexeme sort (c :: others)) :
    Text.isBlank c = false := by
  have visible (low : 33 ≤ c.toNat) (high : c.toNat ≤ 126) : Text.isBlank c = false := by
    rw [Bool.eq_false_iff]
    intro blank
    simp only [Text.isBlank, Text.blankRanges, List.any_cons, List.any_nil, Bool.or_eq_true,
      Bool.and_eq_true,
      decide_eq_true_eq, Bool.false_eq_true, or_false] at blank
    omega
  obtain ⟨c, others', same, ⟨rfl, _⟩ | ⟨digit, _⟩ | ⟨start, _⟩ | ⟨kind, known, _⟩⟩ := lexeme.first
  all_goals obtain ⟨rfl, rfl⟩ := List.cons.inj same
  · decide
  · have code := toNat_of_isDigit digit
    exact visible (by omega) (by omega)
  · rcases start with letter | rfl
    · have code := toNat_of_isAlpha letter
      exact visible (by omega) (by omega)
    · decide
  · match others with
    | [] =>
      replace known : TokenKind.ofChar? c = some kind := known
      unfold TokenKind.ofChar? at known
      split at known
      case h_16 => cases known
      all_goals decide
    | [d] =>
      replace known : TokenKind.ofPair? c d = some kind := known
      unfold TokenKind.ofPair? at known
      split at known
      case h_5 => cases known
      all_goals decide

theorem Lexeme.not_comment {sort : PieceSort} {body : List Char} : ¬ Lexeme sort ('/' :: '/' :: body) := by
  intro lexeme
  obtain ⟨kind, known, _⟩ :=
    lexeme.of_other (by decide) (by decide) (by rintro (letter | underscore) <;> contradiction)
  match body with
  | [] => cases known
  | _ :: _ => cases known

theorem Lexeme.kind_ne_eof {kind : TokenKind} {text : List Char} (lexeme : Lexeme (.token kind) text) :
    kind ≠ .eof := by
  cases lexeme with
  | operator member =>
    have all : ∀ entry ∈ operators, entry.2 ≠ .eof := by decide
    exact all _ member
  | reserved _ member =>
    have all : ∀ entry ∈ reservedWords, entry.2 ≠ .eof := by decide
    exact all _ member
  | _ => nofun

namespace Part

variable {before after : List Char} {part : Part}

theorem Stands.text_ne_nil (stands : part.Stands before after) : part.text ≠ [] := by
  cases stands with
  | space | comment => exact List.cons_ne_nil _ _
  | token lexeme | malformed lexeme =>
    rw [text, String.toList_ofList]
    exact List.ne_nil_of_length_pos lexeme.length_pos
  | unexpected | unterminated =>
    rw [text, String.toList_ofList]
    exact List.cons_ne_nil _ _

theorem Stands.position? (stands : part.Stands before after) :
    part.position? = none ∨ part.position? = some (.behind before) := by
  cases stands with
  | space | comment => exact Or.inl rfl
  | token | unexpected | unterminated | malformed => exact Or.inr rfl

/-- What stands for a lexeme is told by the lexeme. -/
theorem Stands.sort_of_lexeme {sort : PieceSort} (stands : part.Stands before after)
    (lexeme : Lexeme sort part.text) : part.sort = sort := by
  cases stands with
  | space blank => cases lexeme.not_blank.symm.trans blank
  | comment => exact absurd lexeme Lexeme.not_comment
  | token lexeme' | malformed lexeme' =>
    rw [text, String.toList_ofList] at lexeme
    exact lexeme'.unique lexeme
  | @unexpected c _ _ none =>
    rw [text, String.toList_ofList] at lexeme
    exact absurd ⟨after, rfl⟩ (none sort [c] lexeme)
  | unterminated inside =>
    rw [text, String.toList_ofList] at lexeme
    obtain ⟨-, body, -, rfl⟩ := lexeme.of_quote
    exact absurd rfl (inside '"' (List.mem_append_right _ List.mem_cons_self)).1

/-- Two parts with one text stand for the same. Where the text is no lexeme, its first character tells. -/
theorem Stands.sort_unique {part' : Part} (stands : part.Stands before after)
    (stands' : part'.Stands before after) (same : part.text = part'.text) : part.sort = part'.sort := by
  by_cases known : ∃ sort, Lexeme sort part.text
  · obtain ⟨sort, lexeme⟩ := known
    rw [stands.sort_of_lexeme lexeme, stands'.sort_of_lexeme (same ▸ lexeme)]
  · have known' : ¬ ∃ sort, Lexeme sort part'.text := same ▸ known
    have blank_slash : Text.isBlank '/' = false := by decide
    have blank_quote : Text.isBlank '"' = false := by decide
    cases stands with
    | token lexeme | malformed lexeme => exact absurd ⟨_, by rwa [text, String.toList_ofList]⟩ known
    | _ =>
      cases stands' with
      | token lexeme | malformed lexeme => exact absurd ⟨_, by rwa [text, String.toList_ofList]⟩ known'
      | _ => grind [Part.sort, text, String.toList_ofList]

/-- What stands in a place tells by its text what it is. -/
theorem Stands.unique {part' : Part} (stands : part.Stands before after)
    (stands' : part'.Stands before after) (same : part.text = part'.text) : part = part' := by
  have sorts := stands.sort_unique stands' same
  cases stands <;> cases stands' <;> simp_all [Part.sort, text]

end Part

namespace Laid

variable {before text : List Char} {parts : List Part}

theorem flatMap_text (laid : Laid before text parts) : parts.flatMap Part.text = text := by
  induction laid with
  | nil => rfl
  | cons _ _ ih => rw [List.flatMap_cons, ih]

/-- The tokens are spelled as the lexical grammar has it. -/
theorem lexeme (laid : Laid before text parts) :
    ∀ t ∈ parts.filterMap Part.token?, Lexeme (.token t.kind) t.lexeme.toList := by
  induction laid with
  | nil => exact fun _ member => absurd member List.not_mem_nil
  | cons stands _ ih =>
    cases stands with
    | token lexeme => exact List.forall_mem_cons.mpr ⟨by rwa [String.toList_ofList], ih⟩
    | space | comment | unexpected | unterminated | malformed => exact ih

theorem kind_ne_eof (laid : Laid before text parts) : ∀ t ∈ parts.filterMap Part.token?, t.kind ≠ .eof :=
  fun t member => (laid.lexeme t member).kind_ne_eof

/-- A text is laid out in one way only, if it is cut at the same places. -/
theorem unique {parts' : List Part} (laid : Laid before text parts) (laid' : Laid before text parts')
    (cut : parts.map Part.text = parts'.map Part.text) : parts = parts' := by
  induction laid generalizing parts' with
  | nil => exact (List.map_eq_nil_iff.mp cut.symm).symm
  | @cons before rest part parts stands _ ih =>
    generalize whole : part.text ++ rest = text at laid'
    cases laid' with
    | nil => cases cut
    | @cons _ rest' part' parts' stands' laid' =>
      obtain ⟨same, others⟩ := List.cons.inj cut
      rw [same] at whole
      obtain rfl := List.append_cancel_left whole
      obtain rfl := stands.unique stands' same
      rw [ih laid' others]

/-- No token or error is placed in front of the text, nor is its end. -/
theorem later (laid : Laid before text parts) :
    ∀ p ∈ parts.filterMap Part.position? ++ [Position.behind (before ++ text)],
      p = .behind before ∨ (Position.behind before).Before p := by
  induction laid with
  | nil =>
    intro p member
    rw [List.append_nil] at member
    exact Or.inl (List.mem_singleton.mp member)
  | @cons before rest part parts stands _ ih =>
    intro p member
    have further := Position.behind_append before stands.text_ne_nil
    rw [List.filterMap_cons, ← List.append_assoc before] at member
    rcases stands.position? with none | some
    · rw [none] at member
      rcases ih p member with rfl | after
      · exact Or.inr further
      · exact Or.inr (further.trans after)
    · rw [some] at member
      rcases List.mem_cons.mp member with here | member
      · exact Or.inl here
      · rcases ih p member with rfl | after
        · exact Or.inr further
        · exact Or.inr (further.trans after)

/-- Tokens and errors are placed one behind another, and the end behind all of them. -/
theorem increasing (laid : Laid before text parts) :
    (parts.filterMap Part.position? ++ [Position.behind (before ++ text)]).Pairwise Position.Before := by
  induction laid with
  | nil => exact List.pairwise_singleton _ _
  | @cons before rest part parts stands others ih =>
    rw [List.filterMap_cons, ← List.append_assoc before]
    rcases stands.position? with none | some
    · rw [none]
      exact ih
    · rw [some]
      refine List.pairwise_cons.mpr ⟨fun p member => ?_, ih⟩
      have further := Position.behind_append before stands.text_ne_nil
      rcases others.later p member with rfl | after
      · exact further
      · exact further.trans after

end Laid

/-- A source text falls into white space, comments, the lexemes of its tokens and the texts of its
errors, one behind another, and each part is one of these only. Every token and every error is told
once, in order, and is placed where the text in front of it ends by count; the end mark, which is the
only one, is placed behind the last character. -/
theorem source_laid_out (source : String) :
    ∃ parts : List Part, Laid [] source.toList parts ∧ source.toList = parts.flatMap Part.text ∧
      (∀ parts', Laid [] source.toList parts' → parts'.map Part.text = parts.map Part.text →
        parts' = parts) ∧
      (Scan.ofSource source).tokens =
        parts.filterMap Part.token? ++ [⟨.eof, "", .behind source.toList⟩] ∧
      (∀ token ∈ parts.filterMap Part.token?, token.kind ≠ .eof) ∧
      (Scan.ofSource source).errors = parts.filterMap Part.error? ∧
      (parts.filterMap Part.position? ++ [Position.behind source.toList]).Pairwise Position.Before := by
  obtain ⟨parts, laid, -, tokens, errors⟩ := exists_parts source
  exact ⟨parts, laid, laid.flatMap_text.symm, fun _ laid' cut => laid'.unique laid cut, tokens,
    laid.kind_ne_eof, errors, laid.increasing⟩

end Lexical

end LoxFrontEnd
