import LoxFrontEnd.Proofs.Lexical.Parts

/-!
Scanning is maximal munch. The piece that is cut off at the front of a text is what the lexical grammar
says, and the grammar leaves no choice.
-/

namespace LoxFrontEnd

namespace Lexical

section Runs

variable {p : Char → Bool} {run text : List Char}

theorem all_takeWhile (p : Char → Bool) (text : List Char) : ∀ c ∈ text.takeWhile p, p c = true :=
  List.all_eq_true.mp List.all_takeWhile

theorem ends_dropWhile (p : Char → Bool) (text : List Char) :
    ∀ c ∈ (text.dropWhile p).head?, p c = false := by
  intro c first
  have head := List.head?_dropWhile_not p text
  rwa [first] at head

/-- A text is the longest run of a class of characters at its front, and what is behind it. -/
theorem exists_run (p : Char → Bool) (text : List Char) :
    ∃ run rest, text = run ++ rest ∧ text.takeWhile p = run ∧ text.dropWhile p = rest ∧
      (∀ c ∈ run, p c = true) ∧ ∀ c ∈ rest.head?, p c = false :=
  ⟨_, _, List.takeWhile_append_dropWhile.symm, rfl, rfl, all_takeWhile p text, ends_dropWhile p text⟩

/-- A run at the front of a text is part of the longest one. -/
theorem prefix_takeWhile (front : run <+: text) (all : ∀ c ∈ run, p c = true) :
    run <+: text.takeWhile p := by
  obtain ⟨rest, rfl⟩ := front
  rw [List.takeWhile_append_of_pos all]
  exact List.prefix_append run _

end Runs

theorem not_trivia {c : Char} {cs : List Char} (blank : Text.isBlank c = false)
    (comment : ¬ (c = '/' ∧ cs.head? = some '/')) (text : List Char) : ¬ Trivia (c :: cs) text := by
  rintro (isBlank | ⟨_, _⟩)
  · cases blank.symm.trans isBlank
  · exact comment ⟨rfl, rfl⟩

theorem quote_not_trivia {rest : List Char} (text : List Char) : ¬ Trivia ('"' :: rest) text :=
  not_trivia (by decide) (fun comment => absurd comment.1 (by decide)) text

theorem Lexeme.length_pos {sort : PieceSort} {text : List Char} (lexeme : Lexeme sort text) :
    0 < text.length := by
  obtain ⟨c, others, rfl, _⟩ := lexeme.first
  exact Nat.succ_pos _

/-- A lexeme at the front of a text begins with the first character of the text. -/
theorem Lexeme.front {sort : PieceSort} {text cs : List Char} {c : Char} (lexeme : Lexeme sort text)
    (front : text <+: c :: cs) : ∃ others, text = c :: others ∧ others <+: cs := by
  obtain ⟨d, others, rfl, _⟩ := lexeme.first
  obtain ⟨rfl, behind⟩ := List.cons_prefix_cons.mp front
  exact ⟨others, rfl, behind⟩

/-- What a string may have inside, as the scanner asks for it. -/
def isInside (c : Char) : Bool := c ≠ '"' ∧ c ≠ '\n'

theorem isInside_of_inside {body : List Char} (inside : ∀ c ∈ body, Inside c) :
    ∀ c ∈ body, isInside c = true :=
  fun c member => decide_eq_true (inside c member)

theorem EndsLine.not_isInside {rest : List Char} (ends : EndsLine rest) :
    ∀ c ∈ rest.head?, isInside c = false := by
  intro c first
  rw [ends c first]
  rfl

section Cut

variable {c : Char} {cs : List Char}

theorem cuts_string (cs : List Char) : Cuts ('"' :: cs) (Piece.string cs).1 := by
  obtain ⟨body, rest, whole, taken, behind, all, ends⟩ := exists_run isInside cs
  simp only [Piece.string, show cs.takeWhile (fun c => decide (c ≠ '"' ∧ c ≠ '\n')) = body from taken,
    show cs.dropWhile (fun c => decide (c ≠ '"' ∧ c ≠ '\n')) = rest from behind]
  have inside : ∀ c ∈ body, Inside c := fun c member => of_decide_eq_true (p := _ ∧ _) (all c member)
  subst whole
  split
  next rest' =>
    refine .lexeme quote_not_trivia ⟨.string inside, ⟨rest', by simp⟩, ?_⟩
    intro sort' text' lexeme' front'
    obtain ⟨others, rfl, front⟩ := lexeme'.front front'
    obtain ⟨-, body', inside', rfl⟩ := lexeme'.of_quote
    obtain ⟨more, same⟩ := front
    rw [List.append_assoc] at same
    obtain ⟨rfl, -⟩ := run_unique (isInside_of_inside inside') (by rintro c ⟨⟩; rfl) all ends same
    exact Nat.le_refl _
  next other =>
    refine .unterminated inside fun c first => ?_
    have outside : ¬ (c ≠ '"' ∧ c ≠ '\n') := of_decide_eq_false (ends c first)
    obtain ⟨others, rfl⟩ := List.head?_eq_some_iff.mp first
    by_cases quote : c = '"'
    · exact absurd (by rw [quote]) (other others)
    · exact Classical.not_not.mp fun newline => outside ⟨quote, newline⟩

theorem isWordStart_iff : Piece.isWordStart c = true ↔ WordStart c := by
  simp [Piece.isWordStart, WordStart]

theorem isWordPart_iff : Piece.isWordPart c = true ↔ WordPart c := by
  simp only [Piece.isWordPart, WordPart, WordStart, Char.isAlphanum, Bool.or_eq_true, beq_iff_eq]
  exact or_right_comm

theorem cuts_word (trivia : ∀ text, ¬ Trivia (c :: cs) text) (start : WordStart c) :
    Cuts (c :: cs) (Piece.word c cs).1 := by
  have all := all_takeWhile Piece.isWordPart cs
  refine .lexeme trivia ⟨?_, ?_, ?_⟩
  · exact Word.lexeme ⟨c, _, rfl, start, fun d member => isWordPart_iff.mp (all d member)⟩
  · exact List.cons_prefix_cons.mpr ⟨rfl, List.takeWhile_prefix _⟩
  · intro sort' text' lexeme' front'
    obtain ⟨others, rfl, front⟩ := lexeme'.front front'
    have parts := (lexeme'.of_wordStart start).1
    have short := (prefix_takeWhile front fun d member => isWordPart_iff.mpr (parts d member)).length_le
    exact Nat.succ_le_succ short

theorem cuts_symbol (trivia : ∀ text, ¬ Trivia (c :: cs) text) (quote : c ≠ '"') (digit : c.isDigit = false)
    (start : ¬ WordStart c) : Cuts (c :: cs) (Piece.symbol c cs).1 := by
  have spelling {sort' : PieceSort} {text' : List Char} (lexeme' : Lexeme sort' text')
      (front' : text' <+: c :: cs) : ∃ others kind, text' = c :: others ∧ others <+: cs ∧
        ofSpelling? (c :: others) = some kind := by
    obtain ⟨others, rfl, front⟩ := lexeme'.front front'
    obtain ⟨kind, known, _⟩ := lexeme'.of_other quote digit start
    exact ⟨others, kind, rfl, front, known⟩
  rw [Piece.symbol]
  split
  next kind pair =>
    obtain ⟨d, first, isPair⟩ := Option.bind_eq_some_iff.mp pair
    obtain ⟨others, rfl⟩ : ∃ others, cs = d :: others := List.head?_eq_some_iff.mp first
    refine .lexeme trivia ⟨.operator (mem_operators_iff.mpr isPair), ⟨others, rfl⟩, ?_⟩
    intro sort' text' lexeme' front'
    obtain ⟨others', kind', rfl, -, known⟩ := spelling lexeme' front'
    match others' with
    | [] | [_] => simp
  next noPair =>
    have single (others : List Char) (kind : TokenKind) (front : others <+: cs)
        (known : ofSpelling? (c :: others) = some kind) : others = [] := by
      match others with
      | [] => rfl
      | [d] =>
        obtain ⟨more, rfl⟩ := front
        cases noPair.symm.trans known
    split
    next kind isMark =>
      refine .lexeme trivia ⟨.operator (mem_operators_iff.mpr isMark), ⟨cs, rfl⟩, ?_⟩
      intro sort' text' lexeme' front'
      obtain ⟨others', kind', rfl, front, known⟩ := spelling lexeme' front'
      obtain rfl := single others' kind' front known
      exact Nat.le_refl _
    next noMark =>
      refine .unexpected trivia (fun sort' text' lexeme' front' => ?_) quote
      obtain ⟨others', kind', rfl, front, known⟩ := spelling lexeme' front'
      obtain rfl := single others' kind' front known
      cases noMark.symm.trans known

/-- The digits behind a point are taken where there are any. -/
theorem fraction_cases (cs : List Char) :
    ((Piece.fraction cs).1 = [] ∧ ∀ decimals, Digits decimals → ¬ '.' :: decimals <+: cs) ∨
      (Digits (Piece.fraction cs).1 ∧ ∃ rest, cs = '.' :: ((Piece.fraction cs).1 ++ rest) ∧
        ∀ decimals, Digits decimals → '.' :: decimals <+: cs → decimals <+: (Piece.fraction cs).1) := by
  unfold Piece.fraction
  split
  next d cs =>
    by_cases digit : d.isDigit = true
    · rw [if_pos digit]
      have all := all_takeWhile Char.isDigit cs
      refine Or.inr ⟨⟨List.cons_ne_nil _ _, ?_⟩, cs.dropWhile Char.isDigit, ?_, ?_⟩
      · exact List.forall_mem_cons.mpr ⟨digit, all⟩
      · rw [List.cons_append, List.takeWhile_append_dropWhile]
      · intro decimals digits front
        have run := prefix_takeWhile (List.cons_prefix_cons.mp front).2 digits.2
        rwa [List.takeWhile_cons_of_pos digit] at run
    · rw [if_neg digit]
      refine Or.inl ⟨rfl, fun decimals digits front => ?_⟩
      obtain ⟨e, others, rfl⟩ := List.exists_cons_of_ne_nil digits.1
      obtain ⟨rfl, -⟩ := List.cons_prefix_cons.mp (List.cons_prefix_cons.mp front).2
      exact digit (digits.2 e List.mem_cons_self)
  next other =>
    refine Or.inl ⟨rfl, fun decimals digits front => ?_⟩
    obtain ⟨e, others, rfl⟩ := List.exists_cons_of_ne_nil digits.1
    obtain ⟨more, rfl⟩ := front
    exact other e (others ++ more) rfl

/-- No numeral is longer than all digits, and the ones behind a point with them. -/
theorem longest_numeral {text whole decimals behind : List Char} (numeral : Numeral text whole decimals)
    (digits : Digits whole) (ends : ∀ c ∈ behind.head?, c.isDigit = false)
    (front : text <+: whole ++ behind) (atLeast : whole.length ≤ text.length)
    (point : ∀ others, Digits others → '.' :: others <+: behind →
      whole.length + ('.' :: others).length ≤ text.length) :
    Longest (whole ++ behind) (numeralSort whole decimals) text := by
  refine ⟨numeral.lexeme, front, ?_⟩
  intro sort' text' lexeme' front'
  obtain ⟨c, first, rfl⟩ := List.exists_cons_of_ne_nil digits.1
  obtain ⟨others, rfl, -⟩ := lexeme'.front front'
  obtain ⟨whole', decimals', numeral', -⟩ := lexeme'.of_digit (digits.2 c List.mem_cons_self)
  generalize c :: others = text' at front' numeral'
  cases numeral' with
  | whole digits' =>
    have run := prefix_takeWhile front' digits'.2
    have short := run.length_le
    rw [List.takeWhile_append_of_pos digits.2, List.length_append] at short
    have none : behind.takeWhile Char.isDigit = [] := by
      cases behind with
      | nil => rfl
      | cons d behind => exact List.takeWhile_cons_of_neg (by rw [ends d rfl]; exact Bool.false_ne_true)
    rw [none, List.length_nil] at short
    omega
  | decimal digits' decimalDigits =>
    obtain ⟨more, same⟩ := front'
    rw [List.append_assoc] at same
    obtain ⟨rfl, rfl⟩ := run_unique digits'.2 (not_digit_point _) digits.2 ends same
    rw [List.length_append]
    exact point _ decimalDigits ⟨more, rfl⟩

theorem cuts_number (trivia : ∀ text, ¬ Trivia (c :: cs) text) (digit : c.isDigit = true) :
    Cuts (c :: cs) (Piece.number c cs).1 := by
  obtain ⟨run, behind, whole, taken, left, all, ends⟩ := exists_run Char.isDigit cs
  have point := fraction_cases behind
  rw [Piece.number, taken, left]
  generalize Piece.fraction behind = fraction at point ⊢
  obtain ⟨decimals, rest⟩ := fraction
  have digits : Digits (c :: run) := ⟨List.cons_ne_nil _ _, List.forall_mem_cons.mpr ⟨digit, all⟩⟩
  have sort : (if c = '0' ∧ 1 < (c :: run).length then PieceSort.fault .leadingZero
      else .token (.number ((Decimal.ofDigits (c :: run) decimals).toBinary64 false))) =
        numeralSort (c :: run) decimals := by
    simp only [numeralSort, List.head?_cons, Option.some.injEq]
  subst whole
  rw [← List.cons_append] at trivia ⊢
  dsimp only
  rw [sort]
  refine .lexeme trivia ?_
  rcases point with ⟨none, noPoint⟩ | ⟨decimalDigits, rest', same, longest⟩
  · obtain rfl : decimals = [] := none
    refine longest_numeral (.whole digits) digits ends (List.prefix_append _ _) (Nat.le_refl _) ?_
    exact fun others digits' front => absurd front (noPoint others digits')
  · have some : decimals.isEmpty = false := List.isEmpty_eq_false_iff.mpr decimalDigits.1
    rw [some, if_neg Bool.false_ne_true]
    refine longest_numeral (.decimal digits decimalDigits) digits ends ?_ (by simp) ?_
    · rw [same]
      exact ⟨rest', by simp⟩
    · intro others digits' front
      have short := (longest others digits' front).length_le
      simp only [List.length_append, List.length_cons]
      dsimp only at short
      omega

end Cut

/-- What is cut off is what the grammar says. -/
theorem cuts_next (c : Char) (cs : List Char) : Cuts (c :: cs) (Piece.next c cs).1 := by
  unfold Piece.next
  split
  next blank => exact .trivia (.space blank)
  next blank =>
  have noBlank := Bool.eq_false_iff.mpr blank
  split
  next comment =>
    obtain ⟨rfl, slash⟩ := comment
    obtain ⟨others, rfl⟩ : ∃ others, cs = '/' :: others := List.head?_eq_some_iff.mp slash
    rw [List.takeWhile_cons_of_pos (by decide)]
    obtain ⟨body, rest, rfl, taken, -, all, ends⟩ := exists_run (fun d : Char => decide (d ≠ '\n')) others
    rw [taken]
    refine .trivia (.comment (fun d member => of_decide_eq_true (all d member)) fun d first => ?_)
    exact Classical.not_not.mp (of_decide_eq_false (ends d first))
  next comment =>
  have trivia := not_trivia noBlank comment
  split
  next quote =>
    subst quote
    exact cuts_string cs
  next quote =>
  split
  next digit => exact cuts_number trivia digit
  next digit =>
  split
  next start => exact cuts_word trivia (isWordStart_iff.mp start)
  next start => exact cuts_symbol trivia quote (Bool.eq_false_iff.mpr digit) (mt isWordStart_iff.mpr start)

theorem Trivia.unique {rest text text' : List Char} (trivia : Trivia rest text)
    (trivia' : Trivia rest text') :
    text = text' := by
  cases trivia with
  | space blank =>
    cases trivia' with
    | space => rfl
    | comment => cases blank
  | @comment body behind all ends =>
    generalize same : body ++ behind = line at trivia'
    cases trivia' with
    | space blank => cases blank
    | comment all' ends' =>
      have run {body : List Char} (all : ∀ c ∈ body, c ≠ '\n') : ∀ c ∈ body, (c != '\n') = true :=
        fun c member => bne_iff_ne.mpr (all c member)
      have stop {rest : List Char} (ends : EndsLine rest) : ∀ c ∈ rest.head?, (c != '\n') = false :=
        fun c first => by rw [ends c first]; rfl
      rw [(run_unique (run all) (stop ends) (run all') (stop ends') same).1]

theorem Longest.unique {rest text text' : List Char} {sort sort' : PieceSort}
    (longest : Longest rest sort text) (longest' : Longest rest sort' text') :
    sort = sort' ∧ text = text' := by
  have le := longest'.longest longest.lexeme longest.front
  have ge := longest.longest longest'.lexeme longest'.front
  obtain rfl : text = text' :=
    (List.prefix_of_prefix_length_le longest.front longest'.front le).eq_of_length (Nat.le_antisymm le ge)
  exact ⟨longest.lexeme.unique longest'.lexeme, rfl⟩

section Unterminated

variable {body rest : List Char}

/-- A string that is not closed on its line does not begin with a lexeme. -/
theorem unterminated_not_lexeme (inside : ∀ c ∈ body, Inside c) (ends : EndsLine rest) (sort : PieceSort)
    (text : List Char) (lexeme : Lexeme sort text) : ¬ text <+: '"' :: (body ++ rest) := by
  intro front
  obtain ⟨others, rfl, front'⟩ := lexeme.front front
  obtain ⟨-, body', inside', rfl⟩ := lexeme.of_quote
  obtain ⟨more, same⟩ := front'
  rw [List.append_assoc] at same
  obtain ⟨rfl, rfl⟩ := run_unique (isInside_of_inside inside') (by rintro c ⟨⟩; rfl)
    (isInside_of_inside inside) ends.not_isInside same
  cases ends '"' rfl

end Unterminated

/-- The grammar leaves no choice. -/
theorem Cuts.unique {rest : List Char} {piece piece' : Piece} (cuts : Cuts rest piece)
    (cuts' : Cuts rest piece') :
    piece = piece' := by
  cases cuts with
  | trivia blank =>
    cases cuts' with
    | trivia blank' => rw [blank.unique blank']
    | lexeme none => exact absurd blank (none _)
    | unterminated => exact absurd blank (quote_not_trivia _)
    | unexpected none => exact absurd blank (none _)
  | lexeme none longest =>
    cases cuts' with
    | trivia blank => exact absurd blank (none _)
    | lexeme _ longest' =>
      obtain ⟨rfl, rfl⟩ := longest.unique longest'
      rfl
    | unterminated inside ends =>
      exact absurd longest.front (unterminated_not_lexeme inside ends _ _ longest.lexeme)
    | unexpected _ noLexeme => exact absurd longest.front (noLexeme _ _ longest.lexeme)
  | @unterminated body behind inside ends =>
    generalize same : '"' :: (body ++ behind) = line at cuts'
    cases cuts' with
    | trivia blank =>
      subst same
      exact absurd blank (quote_not_trivia _)
    | lexeme _ longest =>
      subst same
      exact absurd longest.front (unterminated_not_lexeme inside ends _ _ longest.lexeme)
    | unterminated inside' ends' =>
      obtain ⟨rfl, -⟩ := run_unique (isInside_of_inside inside) ends.not_isInside
        (isInside_of_inside inside') ends'.not_isInside (List.cons.inj same).2
      rfl
    | unexpected _ _ quote => exact absurd (List.cons.inj same).1.symm quote
  | unexpected none noLexeme quote =>
    cases cuts' with
    | trivia blank => exact absurd blank (none _)
    | lexeme _ longest => exact absurd longest.front (noLexeme _ _ longest.lexeme)
    | unterminated => exact absurd rfl quote
    | unexpected => rfl

theorem not_cuts_nil (piece : Piece) : ¬ Cuts [] piece := by
  rintro (⟨⟨⟩⟩ | ⟨none, longest⟩)
  have empty := List.prefix_nil.mp longest.front
  have pos := longest.lexeme.length_pos
  rw [empty] at pos
  exact Nat.lt_irrefl 0 pos

/-- Cutting a text is what scanning does. -/
theorem cutting_iff {text : List Char} {pieces : List Piece} :
    Cutting text pieces ↔ pieces = Piece.all text := by
  constructor
  · intro cutting
    induction cutting with
    | nil => rw [Piece.all]
    | @cons piece rest pieces cuts _ ih =>
      generalize whole : piece.text ++ rest = text at cuts
      cases text with
      | nil => exact absurd cuts (not_cuts_nil piece)
      | cons c cs =>
        obtain rfl : piece = (Piece.next c cs).1 := cuts.unique (cuts_next c cs)
        obtain rfl : rest = (Piece.next c cs).2 :=
          List.append_cancel_left (whole.trans (Piece.next_append c cs).symm)
        rw [Piece.all, ih]
  · rintro rfl
    induction text using Piece.all.induct with
    | case1 =>
      rw [Piece.all]
      exact .nil
    | case2 c cs ih =>
      have cuts := cuts_next c cs
      rw [← Piece.next_append c cs] at cuts
      have cutting := Cutting.cons cuts ih
      rw [Piece.next_append] at cutting
      rwa [Piece.all]

/-- A source text is laid out in the parts that it is cut into, and its tokens and errors are those
among the parts. -/
theorem exists_parts (source : String) :
    ∃ parts : List Part, Laid [] source.toList parts ∧ Cutting source.toList (parts.map Part.piece) ∧
      (Scan.ofSource source).tokens = parts.filterMap Part.token? ++ [⟨.eof, "", .behind source.toList⟩] ∧
      (Scan.ofSource source).errors = parts.filterMap Part.error? := by
  have cutting : Cutting source.toList (Piece.all source.toList) := cutting_iff.mpr rfl
  obtain ⟨parts, laid, pieces⟩ := exists_laid cutting []
  obtain ⟨tokens, errors⟩ := laid.place
  rw [pieces] at tokens errors
  have mark : Scan.endMark source.toList = ⟨.eof, "", .behind source.toList⟩ := by
    rw [Scan.endMark, Position.after_start]
  refine ⟨parts, laid, pieces ▸ cutting, ?_, errors⟩
  rw [← tokens, ← mark]
  rfl

/-- Scanning is maximal munch: there is one way to cut a source text by the lexical grammar, and the
pieces, each with the place where the text in front of it ends by count, are the tokens and the
errors, with an end mark behind the last character. -/
theorem maximal_munch (source : String) :
    ∃ parts : List Part, Laid [] source.toList parts ∧ Cutting source.toList (parts.map Part.piece) ∧
      (∀ pieces, Cutting source.toList pieces → pieces = parts.map Part.piece) ∧
      (Scan.ofSource source).tokens = parts.filterMap Part.token? ++ [⟨.eof, "", .behind source.toList⟩] ∧
      (Scan.ofSource source).errors = parts.filterMap Part.error? := by
  obtain ⟨parts, laid, cutting, tokens, errors⟩ := exists_parts source
  have only (pieces : List Piece) (cutting' : Cutting source.toList pieces) :
      pieces = parts.map Part.piece :=
    (cutting_iff.mp cutting').trans (cutting_iff.mp cutting).symm
  exact ⟨parts, laid, cutting, only, tokens, errors⟩

end Lexical

end LoxFrontEnd
