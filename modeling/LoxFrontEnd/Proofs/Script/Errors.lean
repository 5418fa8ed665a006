import LoxFrontEnd.Proofs.Lexical.Layout
import LoxFrontEnd.Proofs.Parse.ErrorOrder
import LoxFrontEnd.Script

/-!
The errors of a source text. They come in the order of the text, since tokens and lexical errors are
placed one behind another and the errors of parsing follow the tokens.
-/

namespace LoxFrontEnd

namespace Lexical

theorem Part.tokens_sublist (parts : List Part) :
    ((parts.filterMap Part.token?).map Token.position).Sublist (parts.filterMap Part.position?) := by
  induction parts with
  | nil => exact List.nil_sublist _
  | cons part parts ih =>
    cases part with
    | token => exact ih.cons_cons _
    | error => exact ih.cons _
    | space | comment => exact ih

theorem Part.errors_sublist (parts : List Part) :
    ((parts.filterMap Part.error?).map ScanError.position).Sublist (parts.filterMap Part.position?) := by
  induction parts with
  | nil => exact List.nil_sublist _
  | cons part parts ih =>
    cases part with
    | error => exact ih.cons_cons _
    | token => exact ih.cons _
    | space | comment => exact ih

/-- The tokens of a text are followed by an end mark, which is the only one, and placed one behind
another. -/
theorem tokens_increase (source : String) :
    ∃ tokens mark, (Scan.ofSource source).tokens = tokens ++ [mark] ∧
    (∀ token ∈ tokens, token.kind ≠ .eof) ∧ mark.kind = .eof ∧
    (tokens.map Token.position ++ [mark.position]).Pairwise Position.Before := by
  obtain ⟨parts, laid, -, tokens, -⟩ := exists_parts source
  refine ⟨parts.filterMap Part.token?, _, tokens, laid.kind_ne_eof, rfl, ?_⟩
  exact laid.increasing.sublist ((Part.tokens_sublist parts).append_right _)

theorem errors_increase (source : String) :
    ((Scan.ofSource source).errors.map ScanError.position).Pairwise Position.Before := by
  obtain ⟨parts, laid, -, -, errors⟩ := exists_parts source
  rw [errors]
  exact laid.increasing.sublist ((Part.errors_sublist parts).trans (List.sublist_append_left _ _))

end Lexical

theorem Position.Before.asymm {p q : Position} (before : p.Before q) : ¬ q.Before p := by
  unfold Before at *
  omega

/-- Places one behind another, up to a last one that is met again and again, never go back. -/
theorem Position.never_back {inner ended : List Position} {last : Position}
    (ordered : (inner ++ [last]).Pairwise Before) (atEnd : ∀ p ∈ ended, p = last) :
    (inner ++ ended).Pairwise fun p q => ¬ q.Before p := by
  obtain ⟨among, -, before⟩ := List.pairwise_append.mp ordered
  refine List.pairwise_append.mpr ⟨among.imp fun before => before.asymm, ?_, fun p member q member' => ?_⟩
  · refine List.pairwise_of_forall_mem_list fun p member q member' => ?_
    rw [atEnd p member, atEnd q member']
    exact fun before => before.asymm before
  · rw [atEnd q member']
    exact (before p member last (List.mem_singleton_self last)).asymm

/-- A text with lexical errors is refused for these alone. -/
theorem parse_of_faults {source : String} (faults : (Scan.ofSource source).errors ≠ []) :
    parse source = .error ((Scan.ofSource source).errors.map .lexical) := by
  have scanned : tokenize source = .error (Scan.ofSource source).errors :=
    if_neg fun none => faults (List.isEmpty_iff.mp none)
  rw [parse, scanned]
  rfl

theorem tokenize_of_clean {source : String} (clean : (Scan.ofSource source).errors = []) :
    tokenize source = .ok (Scan.ofSource source).tokens :=
  if_pos (List.isEmpty_iff.mpr clean)

/-- A text without lexical errors is refused for all errors that the declarations in it are recovered
from. -/
theorem parse_of_clean {source : String} (clean : (Scan.ofSource source).errors = [])
    {ss : List Stmt} {rest : Input} {events : List Event}
    (run : Session.declarations ⟨(Scan.ofSource source).tokens, .start⟩ = ⟨.ok ss, rest, events⟩) :
    parse source = if events.filterMap Event.error? = [] then .ok ⟨ss⟩
      else .error ((events.filterMap Event.error?).map .grammatical) := by
  rw [parse, tokenize_of_clean clean]
  show ((Session.ofTokens _).program.result).mapError _ = _
  rw [Session.program_ofTokens run]
  split <;> rfl

/-- An answer that tells errors is a refusal for these. -/
theorem refused_of_told {answer : Except (List SyntaxError) Program} {errors : List SyntaxError}
    (told : (match answer with | .error found => found | .ok _ => []) = errors) (some : errors ≠ []) :
    answer = .error errors := by
  cases answer with
  | error found => exact congrArg Except.error told
  | ok p => exact absurd told.symm some

/-- The errors of a text are all lexical or all from parsing. They are placed one behind another; only
the errors that parsing finds at the end of input share a place, that of the end mark, and they come
last. An error from parsing is placed at a token. -/
theorem errors_in_order {source : String} {errors : List SyntaxError}
    (refused : parse source = .error errors) :
    errors ≠ [] ∧
    (errors.map SyntaxError.position).Pairwise (fun p q => ¬ q.Before p) ∧
    ((∃ lexical : List ScanError, errors = lexical.map .lexical ∧
        (errors.map SyntaxError.position).Pairwise Position.Before) ∨
      ∃ (tokens : List Token) (mark : Token) (inner ended : List ParseError),
        tokenize source = .ok (tokens ++ [mark]) ∧ mark.kind = .eof ∧
          errors = (inner ++ ended).map .grammatical ∧
        (inner.map ParseError.position ++ [mark.position]).Pairwise Position.Before ∧
        (∀ e ∈ inner, ∃ token ∈ tokens, e.position = token.position) ∧
        ∀ e ∈ ended, ∃ expected, e = .unexpectedToken expected .endOfInput mark.position) := by
  by_cases clean : (Scan.ofSource source).errors = []
  · obtain ⟨tokens, mark, split, noMark, isMark, increasing⟩ := Lexical.tokens_increase source
    obtain ⟨ss, rest, events, items⟩ := Parse.items_declarations ⟨(Scan.ofSource source).tokens, .start⟩
    have read : Session.declarations ⟨(Scan.ofSource source).tokens, .start⟩ = ⟨.ok ss, rest, events⟩ :=
      items.many_eq
    rw [parse_of_clean clean read] at refused
    have scanned := tokenize_of_clean clean
    have passes := Parse.declarations_pass isMark noMark .start
    rw [← split, read] at passes
    rw [split] at scanned
    obtain ⟨inner, ended, told, sublist, atEnd⟩ := passes.split
    have told' : events.filterMap Event.error? = inner ++ ended := told
    rw [told'] at refused
    split at refused
    · cases refused
    next some =>
      obtain rfl : (inner ++ ended).map .grammatical = errors := Except.error.inj refused
      have ordered := increasing.sublist (sublist.append_right [mark.position])
      refine ⟨fun none => some (List.map_eq_nil_iff.mp none), ?_,
        Or.inr ⟨tokens, mark, inner, ended, scanned, isMark, rfl, ordered, fun e member => ?_, atEnd⟩⟩
      · rw [List.map_map, List.map_append]
        refine Position.never_back ordered fun p member => ?_
        obtain ⟨e, member', rfl⟩ := List.mem_map.mp member
        obtain ⟨expected, rfl⟩ := atEnd e member'
        rfl
      · obtain ⟨token, member', same⟩ := List.mem_map.mp (sublist.subset (List.mem_map_of_mem member))
        exact ⟨token, member', same.symm⟩
  · rw [parse_of_faults clean] at refused
    obtain rfl : (Scan.ofSource source).errors.map .lexical = errors := Except.error.inj refused
    have ordered :
        (((Scan.ofSource source).errors.map SyntaxError.lexical).map SyntaxError.position).Pairwise
        Position.Before := by
      rw [List.map_map]
      exact Lexical.errors_increase source
    exact ⟨fun none => clean (List.map_eq_nil_iff.mp none), ordered.imp fun before => before.asymm,
      Or.inl ⟨_, rfl, ordered⟩⟩

/-- A brace that closes a block is blamed once, and the end of input for each block that is left open. -/
theorem errors_in_order_open :
    let errors : List SyntaxError := [.grammatical (.invalidAssignmentTarget ⟨1, 3⟩),
      .grammatical (.unexpectedToken .variableName (.lexeme "\x7d") ⟨2, 7⟩),
      .grammatical (.unexpectedToken .braceAfterBlock .endOfInput ⟨2, 12⟩),
      .grammatical (.unexpectedToken .braceAfterBlock .endOfInput ⟨2, 12⟩)]
    parse "1 = 2;\n\x7b var \x7d \x7b \x7b" = .error errors ∧
      (errors.map SyntaxError.position).Pairwise fun p q => ¬ q.Before p := by
  intro errors
  have refused : parse "1 = 2;\n\x7b var \x7d \x7b \x7b" = .error errors :=
    refused_of_told (by decide +kernel) (List.cons_ne_nil _ _)
  exact ⟨refused, (errors_in_order refused).2.1⟩

end LoxFrontEnd
