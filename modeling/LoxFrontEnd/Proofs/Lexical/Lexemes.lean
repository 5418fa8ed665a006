import LoxFrontEnd.Proofs.Lexical.Grammar

/-!
Lexemes by their first character. A quote begins a string, a digit a numeral and a letter a word, and
nothing else begins with one of these; so a lexeme stands for one thing only.
-/

namespace LoxFrontEnd

namespace Lexical

/-- What an operator or a punctuation mark of one or two characters stands for. -/
def ofSpelling? : List Char → Option TokenKind
  | [c] => TokenKind.ofChar? c
  | [c, d] => TokenKind.ofPair? c d
  | _ => none

theorem mem_operators_iff {spelling : List Char} {kind : TokenKind} :
    (spelling, kind) ∈ operators ↔ ofSpelling? spelling = some kind := by
  constructor
  · have all : ∀ entry ∈ operators, ofSpelling? entry.1 = some entry.2 := by decide
    exact all (spelling, kind)
  · intro known
    match spelling with
    | [c] =>
      replace known : TokenKind.ofChar? c = some kind := known
      unfold TokenKind.ofChar? at known
      split at known <;> simp_all [operators]
    | [c, d] =>
      replace known : TokenKind.ofPair? c d = some kind := known
      unfold TokenKind.ofPair? at known
      split at known <;> simp_all [operators]

/-- The table that scanning goes by is the one of the grammar. -/
theorem mem_reservedWords_iff {entry : String × TokenKind} :
    entry ∈ reservedWords ↔ entry ∈ TokenKind.reserved := by
  have scanned : ∀ entry ∈ reservedWords, entry ∈ TokenKind.reserved := by decide
  have known : ∀ entry ∈ TokenKind.reserved, entry ∈ reservedWords := by decide
  exact ⟨scanned entry, known entry⟩

theorem ofWord_of_reserved {text : List Char} {kind : TokenKind}
    (member : (String.ofList text, kind) ∈ reservedWords) : TokenKind.ofWord text = kind := by
  have all : ∀ entry ∈ TokenKind.reserved, TokenKind.reserved.lookup entry.1 = some entry.2 := by decide
  rw [TokenKind.ofWord, all _ (mem_reservedWords_iff.mp member), Option.getD_some]

theorem ofWord_of_not_reserved {text : List Char}
    (absent : ∀ kind, (String.ofList text, kind) ∉ reservedWords) :
    TokenKind.ofWord text = .identifier := by
  have missing : TokenKind.reserved.lookup (String.ofList text) = none := by
    refine List.lookup_eq_none_iff.mpr fun entry member => ?_
    refine bne_iff_ne.mpr fun same => absent entry.2 ?_
    rw [same]
    exact mem_reservedWords_iff.mpr member
  rw [TokenKind.ofWord, missing, Option.getD_none]

/-- Every word stands for something. -/
theorem Word.lexeme {text : List Char} (word : Word text) : Lexeme (.token (.ofWord text)) text := by
  by_cases reserved : ∃ kind, (String.ofList text, kind) ∈ reservedWords
  · obtain ⟨kind, member⟩ := reserved
    rw [ofWord_of_reserved member]
    exact .reserved word member
  · have absent (kind : TokenKind) : (String.ofList text, kind) ∉ reservedWords :=
      fun member => reserved ⟨kind, member⟩
    rw [ofWord_of_not_reserved absent]
    exact .name word absent

/-- What a numeral stands for. -/
def numeralSort (whole decimals : List Char) : PieceSort :=
  if whole.head? = some '0' ∧ 1 < whole.length then .fault .leadingZero
  else .token (.number ((Decimal.ofDigits whole decimals).toBinary64 false))

theorem leadingZero_iff {whole : List Char} :
    LeadingZero whole ↔ whole.head? = some '0' ∧ 1 < whole.length := by
  match whole with
  | [] => exact ⟨nofun, nofun⟩
  | [c] => exact ⟨nofun, fun ⟨_, longer⟩ => absurd longer (Nat.lt_irrefl 1)⟩
  | c :: d :: others => simp [LeadingZero]

theorem Numeral.lexeme {text whole decimals : List Char} (numeral : Numeral text whole decimals) :
    Lexeme (numeralSort whole decimals) text := by
  rw [numeralSort]
  split
  next leading => exact .leadingZero numeral (leadingZero_iff.mpr leading)
  next other => exact .number numeral (mt leadingZero_iff.mp other)

theorem toNat_of_isDigit {c : Char} (digit : c.isDigit = true) : 48 ≤ c.toNat ∧ c.toNat ≤ 57 := by
  obtain ⟨low, high⟩ := (Bool.and_eq_true _ _).mp digit
  exact ⟨UInt32.le_iff_toNat_le.mp (of_decide_eq_true low),
    UInt32.le_iff_toNat_le.mp (of_decide_eq_true high)⟩

theorem toNat_of_isAlpha {c : Char} (letter : c.isAlpha = true) :
    65 ≤ c.toNat ∧ c.toNat ≤ 90 ∨ 97 ≤ c.toNat ∧ c.toNat ≤ 122 := by
  rcases (Bool.or_eq_true _ _).mp letter with upper | lower
  · obtain ⟨low, high⟩ : c.val ≥ 'A'.val ∧ c.val ≤ 'Z'.val := of_decide_eq_true upper
    exact Or.inl ⟨UInt32.le_iff_toNat_le.mp low, UInt32.le_iff_toNat_le.mp high⟩
  · obtain ⟨low, high⟩ := (Bool.and_eq_true _ _).mp lower
    exact Or.inr ⟨UInt32.le_iff_toNat_le.mp (of_decide_eq_true low),
      UInt32.le_iff_toNat_le.mp (of_decide_eq_true high)⟩

theorem WordStart.isDigit_eq_false {c : Char} (start : WordStart c) : c.isDigit = false := by
  rcases start with letter | rfl
  · rw [Bool.eq_false_iff]
    intro digit
    have codes := toNat_of_isAlpha letter
    have code := toNat_of_isDigit digit
    omega
  · rfl

/-- Operators begin like no other lexeme. -/
theorem ofSpelling?_cons {c : Char} {others : List Char} {kind : TokenKind}
    (known : ofSpelling? (c :: others) = some kind) : c ≠ '"' ∧ c.isDigit = false ∧ ¬ WordStart c := by
  suffices first : c ≠ '"' ∧ c.isDigit = false ∧ c.isAlpha = false ∧ c ≠ '_' by
    obtain ⟨quote, digit, alpha, underscore⟩ := first
    refine ⟨quote, digit, fun start => ?_⟩
    rcases start with letter | rfl
    · exact Bool.false_ne_true (alpha.symm.trans letter)
    · exact underscore rfl
  match others with
  | [] =>
    replace known : TokenKind.ofChar? c = some kind := known
    unfold TokenKind.ofChar? at known
    split at known
    case h_16 => cases known
    all_goals decide
  | [d] =>
    replace known : TokenKind.ofPair? c d = some kind := known
    unfold TokenKind.ofPair? at known
    split at known
    case h_5 => cases known
    all_goals decide

theorem Numeral.first {text whole decimals : List Char} (numeral : Numeral text whole decimals) :
    ∃ c others, text = c :: others ∧ c.isDigit = true := by
  have start (digits : List Char) (known : Digits digits) (more : List Char) :
      ∃ c others, digits ++ more = c :: others ∧ c.isDigit = true := by
    obtain ⟨c, others, rfl⟩ := List.exists_cons_of_ne_nil known.1
    exact ⟨c, others ++ more, rfl, known.2 c List.mem_cons_self⟩
  cases numeral with
  | whole digits =>
    have first := start _ digits []
    rwa [List.append_nil] at first
  | decimal digits => exact start _ digits _

/-- The first character of a lexeme tells its class. -/
theorem Lexeme.first {sort : PieceSort} {text : List Char} (lexeme : Lexeme sort text) :
    ∃ c others, text = c :: others ∧
      ((c = '"' ∧ sort = .token .string ∧ ∃ body, (∀ d ∈ body, Inside d) ∧ others = body ++ ['"']) ∨
        (c.isDigit = true ∧ ∃ whole decimals, Numeral text whole decimals ∧
          sort = numeralSort whole decimals) ∨
        (WordStart c ∧ (∀ d ∈ others, WordPart d) ∧ sort = .token (.ofWord text)) ∨
        ∃ kind, ofSpelling? text = some kind ∧ sort = .token kind) := by
  cases lexeme with
  | operator member =>
    have known := mem_operators_iff.mp member
    match text with
    | c :: others => exact ⟨c, others, rfl, Or.inr (Or.inr (Or.inr ⟨_, known, rfl⟩))⟩
  | @string body inside => exact ⟨'"', body ++ ['"'], rfl, Or.inl ⟨rfl, rfl, body, inside, rfl⟩⟩
  | number numeral other =>
    obtain ⟨c, others, rfl, digit⟩ := numeral.first
    refine ⟨c, others, rfl, Or.inr (Or.inl ⟨digit, _, _, numeral, ?_⟩)⟩
    rw [numeralSort, if_neg (mt leadingZero_iff.mpr other)]
  | leadingZero numeral leading =>
    obtain ⟨c, others, rfl, digit⟩ := numeral.first
    refine ⟨c, others, rfl, Or.inr (Or.inl ⟨digit, _, _, numeral, ?_⟩)⟩
    rw [numeralSort, if_pos (leadingZero_iff.mp leading)]
  | reserved word member =>
    obtain ⟨c, others, rfl, start, parts⟩ := word
    exact ⟨c, others, rfl, Or.inr (Or.inr (Or.inl ⟨start, parts, by rw [ofWord_of_reserved member]⟩))⟩
  | name word absent =>
    obtain ⟨c, others, rfl, start, parts⟩ := word
    exact ⟨c, others, rfl, Or.inr (Or.inr (Or.inl ⟨start, parts, by rw [ofWord_of_not_reserved absent]⟩))⟩

section

variable {sort : PieceSort} {c : Char} {others : List Char}

theorem Lexeme.of_quote (lexeme : Lexeme sort ('"' :: others)) :
    sort = .token .string ∧ ∃ body, (∀ c ∈ body, Inside c) ∧ others = body ++ ['"'] := by
  obtain ⟨c, others', same, ⟨_, isString, body⟩ | ⟨digit, _⟩ | ⟨start, _⟩ | ⟨kind, known, _⟩⟩ :=
    lexeme.first
  all_goals obtain ⟨rfl, rfl⟩ := List.cons.inj same
  · exact ⟨isString, body⟩
  · cases digit
  · rcases start with letter | underscore
    · cases letter
    · cases underscore
  · exact absurd rfl (ofSpelling?_cons known).1

theorem Lexeme.of_digit (lexeme : Lexeme sort (c :: others)) (digit : c.isDigit = true) :
    ∃ whole decimals, Numeral (c :: others) whole decimals ∧ sort = numeralSort whole decimals := by
  obtain ⟨c, others', same, ⟨rfl, _⟩ | ⟨_, numeral⟩ | ⟨start, _⟩ | ⟨kind, known, _⟩⟩ := lexeme.first
  all_goals obtain ⟨rfl, rfl⟩ := List.cons.inj same
  · cases digit
  · exact numeral
  · cases digit.symm.trans start.isDigit_eq_false
  · cases digit.symm.trans (ofSpelling?_cons known).2.1

theorem Lexeme.of_wordStart (lexeme : Lexeme sort (c :: others)) (start : WordStart c) :
    (∀ d ∈ others, WordPart d) ∧ sort = .token (.ofWord (c :: others)) := by
  obtain ⟨c, others', same, ⟨rfl, _⟩ | ⟨digit, _⟩ | ⟨_, word⟩ | ⟨kind, known, _⟩⟩ := lexeme.first
  all_goals obtain ⟨rfl, rfl⟩ := List.cons.inj same
  · rcases start with letter | underscore
    · cases letter
    · cases underscore
  · cases digit.symm.trans start.isDigit_eq_false
  · exact word
  · exact absurd start (ofSpelling?_cons known).2.2

theorem Lexeme.of_other (lexeme : Lexeme sort (c :: others)) (quote : c ≠ '"') (digit : c.isDigit = false)
    (start : ¬ WordStart c) : ∃ kind, ofSpelling? (c :: others) = some kind ∧ sort = .token kind := by
  obtain ⟨c, others', same, ⟨isQuote, _⟩ | ⟨isDigit, _⟩ | ⟨isStart, _⟩ | spelling⟩ := lexeme.first
  all_goals obtain ⟨rfl, rfl⟩ := List.cons.inj same
  · exact absurd isQuote quote
  · cases isDigit.symm.trans digit
  · exact absurd isStart start
  · exact spelling

end

/-- A run of characters of one class ends where a character of another class stands. -/
theorem run_unique {p : Char → Bool} {run rest run' rest' : List Char} (all : ∀ c ∈ run, p c = true)
    (ends : ∀ c ∈ rest.head?, p c = false) (all' : ∀ c ∈ run', p c = true)
    (ends' : ∀ c ∈ rest'.head?, p c = false) (same : run ++ rest = run' ++ rest') :
    run = run' ∧ rest = rest' := by
  have cut {run rest : List Char} (all : ∀ c ∈ run, p c = true) (ends : ∀ c ∈ rest.head?, p c = false) :
      (run ++ rest).takeWhile p = run := by
    rw [List.takeWhile_append_of_pos all]
    cases rest with
    | nil => exact List.append_nil run
    | cons c others =>
      rw [List.takeWhile_cons_of_neg (by rw [ends c rfl]; exact Bool.false_ne_true), List.append_nil]
  have runs : run = run' := by rw [← cut all ends, same, cut all' ends']
  subst runs
  exact ⟨rfl, List.append_cancel_left same⟩

theorem not_digit_point (decimals : List Char) : ∀ c ∈ ('.' :: decimals).head?, c.isDigit = false := by
  rintro c ⟨⟩
  rfl

theorem not_digits_point {whole decimals : List Char} : ¬ Digits (whole ++ '.' :: decimals) := by
  intro digits
  cases digits.2 '.' (List.mem_append_right _ List.mem_cons_self)

/-- A numeral has its digits in one way only. -/
theorem Numeral.unique {text whole decimals whole' decimals' : List Char}
    (numeral : Numeral text whole decimals) (numeral' : Numeral text whole' decimals') :
    whole = whole' ∧ decimals = decimals' := by
  cases numeral with
  | whole digits =>
    cases numeral' with
    | whole => exact ⟨rfl, rfl⟩
    | decimal => exact absurd digits not_digits_point
  | decimal digits =>
    generalize same : whole ++ '.' :: decimals = text at numeral'
    cases numeral' with
    | whole digits' =>
      subst same
      exact absurd digits' not_digits_point
    | decimal digits' =>
      obtain ⟨wholes, rests⟩ := run_unique digits.2 (not_digit_point _) digits'.2 (not_digit_point _) same
      exact ⟨wholes, (List.cons.inj rests).2⟩

/-- A lexeme stands for one thing only. -/
theorem Lexeme.unique {sort sort' : PieceSort} {text : List Char} (lexeme : Lexeme sort text)
    (lexeme' : Lexeme sort' text) : sort = sort' := by
  obtain ⟨c, others, rfl, ⟨rfl, isString, _⟩ | ⟨digit, whole, decimals, numeral, isNumeral⟩ |
    ⟨start, _, isWord⟩ | ⟨kind, known, isOperator⟩⟩ := lexeme.first
  · rw [isString, lexeme'.of_quote.1]
  · obtain ⟨whole', decimals', numeral', isNumeral'⟩ := lexeme'.of_digit digit
    obtain ⟨rfl, rfl⟩ := numeral.unique numeral'
    rw [isNumeral, isNumeral']
  · rw [isWord, (lexeme'.of_wordStart start).2]
  · obtain ⟨quote, digit, start⟩ := ofSpelling?_cons known
    obtain ⟨kind', known', isOperator'⟩ := lexeme'.of_other quote digit start
    cases known.symm.trans known'
    rw [isOperator, isOperator']

end Lexical

end LoxFrontEnd
