import Mathlib.Logic.Relation
import LoxFrontEnd.Proofs.Lexical.Layout
import LoxFrontEnd.Proofs.Scanner.Cursors

/-!
Step by step, the scanner cuts the text into its pieces. From one lexeme to the next it takes the
longest piece, and at the end of the text it has the tokens and the errors of the pieces.
-/

namespace LoxFrontEnd

variable {source : String}

/-- The record of an error. -/
def ScanError.record (e : ScanError) : LogRecord :=
  ⟨.debug, .scanner, messageAt e.message e.position⟩

/-- The phase in which a piece has been taken. -/
def PieceSort.phase (text : List Char) : PieceSort → Phase
  | .blank => .between
  | .token kind => .token kind
  | .fault cause => .fault cause (String.ofList text)

namespace Frame

/-- What is written when a piece has been taken. -/
def after (f : Frame) (piece : Piece) : Frame :=
  let errors := (Piece.error? (f.position, piece)).toList
  { f with tokens := f.tokens ++ (Piece.token? (f.position, piece)).toList, errors := f.errors ++ errors,
           log := f.log ++ errors.map ScanError.record }

theorem after_blank (f : Frame) (text : List Char) : f.after ⟨.blank, text⟩ = f := by
  simp only [after, Piece.token?, Piece.error?, Option.toList_none, List.map_nil, List.append_nil]

theorem after_token (f : Frame) (kind : TokenKind) (text : List Char) : f.after ⟨.token kind, text⟩ =
    { f with tokens := f.tokens ++ [⟨kind, String.ofList text, f.position⟩] } := by
  simp only [after, Piece.token?, Piece.error?, Option.toList_none, Option.toList_some, List.map_nil,
    List.append_nil]

theorem after_fault (f : Frame) (cause : ScanFault) (text : List Char) : f.after ⟨.fault cause, text⟩ =
    { f with errors := f.errors ++ [⟨cause, String.ofList text, f.position⟩],
             log := f.log ++ [ScanError.record ⟨cause, String.ofList text, f.position⟩] } := by
  simp only [after, Piece.token?, Piece.error?, Option.toList_none, Option.toList_some,
    List.map_cons, List.map_nil, List.append_nil]

end Frame

namespace Scanner

/-- Step by step, the scanner gets there. -/
def Goes (source : String) : Scanner → Scanner → Prop :=
  Relation.ReflTransGen fun s s' => step source s = some s'

theorem Goes.run {s : Scanner} (goes : Goes source (ofSource source) s) : ∃ n, run source n = some s := by
  induction goes with
  | refl => exact ⟨0, rfl⟩
  | tail _ steps ih =>
    obtain ⟨n, runs⟩ := ih
    exact ⟨n + 1, (run_succ runs).trans steps⟩

section Frame

variable {f : Frame} {phase : Phase} {p : Char → Bool} {text taken ahead : List Char} {c : Char}

/-- Where nothing is known of a point, the cursors of a frame are in step. -/
theorem inStep_scanner (whole : source = f.front ++ String.ofList text ++ String.ofList ahead)
    (plain : phase.wholeEnd? = none) : InStep source f text (f.scanner phase text ahead) :=
  ⟨rfl, whole, fun _ isEnd => absurd (plain.symm.trans isEnd) nofun⟩

theorem whole_append (whole : source = f.front ++ String.ofList text ++ String.ofList (taken ++ ahead)) :
    source = f.front ++ String.ofList (text ++ taken) ++ String.ofList ahead := by
  rw [whole, String.ofList_append, String.ofList_append, ← String.append_assoc, ← String.append_assoc]

theorem sees_eq_false (ends : ∀ c ∈ ahead.head?, p c = false) :
    ¬ (f.scanner phase text ahead).sees p = true := by
  show ¬ ahead.head?.any p = true
  cases next : ahead.head? with
  | none => exact Bool.false_ne_true
  | some c =>
    rw [Option.any_some, ends c next]
    exact Bool.false_ne_true

/-- A phase that takes all characters of a class. -/
theorem goes_loop (takes : ∀ text c ahead, p c = true →
      step source (f.scanner phase text (c :: ahead)) = some ((f.scanner phase text (c :: ahead)).advance))
    (all : ∀ c ∈ taken, p c = true) :
    Goes source (f.scanner phase text (taken ++ ahead)) (f.scanner phase (text ++ taken) ahead) := by
  induction taken generalizing text with
  | nil =>
    rw [List.append_nil]
    exact .refl
  | cons c taken ih =>
    obtain ⟨isIn, all'⟩ := List.forall_mem_cons.mp all
    have steps := takes text c (taken ++ ahead) isIn
    rw [f.advance_cons] at steps
    rw [List.append_cons]
    exact .head steps (ih all')

/-- A piece that has been taken is written down. -/
theorem goes_written (sort : PieceSort)
    (whole : source = f.front ++ String.ofList text ++ String.ofList ahead) :
    Goes source (f.scanner (sort.phase text) text ahead)
      ((f.after ⟨sort, text⟩).scanner .between text ahead) := by
  cases sort with
  | blank =>
    rw [f.after_blank]
    exact .refl
  | token kind =>
    have inStep : InStep source f text (f.scanner (.token kind) text ahead) := inStep_scanner whole rfl
    have steps : step source (f.scanner (.token kind) text ahead) =
        ((f.scanner (.token kind) text ahead).lexeme source).bind fun text' =>
          some ((f.scanner (.token kind) text ahead).push ⟨kind, text', f.position⟩) := rfl
    refine .single ?_
    rw [f.after_token]
    refine steps.trans ?_
    rw [inStep.lexeme_eq]
    rfl
  | fault cause =>
    refine .single ?_
    rw [f.after_fault]
    rfl

/-- A comment goes up to the end of the line. -/
theorem goes_comment : Goes source (f.scanner .comment text ahead)
    (f.scanner .between (text ++ ahead.takeWhile (· ≠ '\n')) (ahead.dropWhile (· ≠ '\n'))) := by
  obtain ⟨body, rest, rfl, taken, behind, all, ends⟩ := Lexical.exists_run (· ≠ '\n') ahead
  have loop :
      Goes source (f.scanner .comment text (body ++ rest)) (f.scanner .comment (text ++ body) rest) :=
    goes_loop (fun _ _ _ isIn => congrArg some (if_pos isIn)) all
  rw [taken, behind]
  exact .tail loop (congrArg some (if_neg (sees_eq_false ends)))

/-- A word goes on as long as there are letters and digits. -/
theorem goes_word (whole : source = f.front ++ String.ofList [c] ++ String.ofList ahead) :
    Goes source (f.scanner .word [c] ahead)
      ((f.after (Piece.word c ahead).1).scanner .between (Piece.word c ahead).1.text
        (Piece.word c ahead).2) := by
  obtain ⟨others, rest, rfl, taken, behind, all, ends⟩ := Lexical.exists_run Piece.isWordPart ahead
  have loop : Goes source (f.scanner .word [c] (others ++ rest)) (f.scanner .word ([c] ++ others) rest) :=
    goes_loop (fun _ _ _ isIn => if_pos isIn) all
  have whole' := whole_append whole
  have inStep : InStep source f ([c] ++ others) (f.scanner .word ([c] ++ others) rest) :=
    inStep_scanner whole' rfl
  have steps : step source (f.scanner .word ([c] ++ others) rest) =
      some (f.scanner (.token (.ofWord ([c] ++ others))) ([c] ++ others) rest) := by
    refine (if_neg (sees_eq_false ends)).trans ?_
    rw [inStep.lexeme_eq]
    show some (f.scanner (.token (.ofWord (String.ofList ([c] ++ others)).toList)) ([c] ++ others) rest) = _
    rw [String.toList_ofList]
  rw [Piece.word, taken, behind]
  exact (loop.tail steps).trans (goes_written (.token _) whole')

theorem step_string {s : Scanner} (phase : s.phase = .string) : step source s =
    if s.sees Lexical.isInside then some s.advance
    else if s.sees (· = '"') then some (s.advance.goto (.token .string))
    else (s.lexeme source).bind fun text => some (s.goto (.fault .unterminatedString text)) := by
  simp only [step, phase]
  rfl

/-- A string goes up to the quote that closes it, or up to the end of the line. -/
theorem goes_string (whole : source = f.front ++ String.ofList ['"'] ++ String.ofList ahead) :
    Goes source (f.scanner .string ['"'] ahead)
      ((f.after (Piece.string ahead).1).scanner .between (Piece.string ahead).1.text
        (Piece.string ahead).2) := by
  obtain ⟨body, rest, rfl, taken, behind, all, ends⟩ := Lexical.exists_run Lexical.isInside ahead
  have loop : Goes source (f.scanner .string ['"'] (body ++ rest)) (f.scanner .string ('"' :: body) rest) :=
    goes_loop (fun _ _ _ isIn => (step_string rfl).trans (if_pos isIn)) all
  have whole' := whole_append whole
  rw [List.singleton_append] at whole'
  have taken' : (body ++ rest).takeWhile (fun c => decide (c ≠ '"' ∧ c ≠ '\n')) = body := taken
  have behind' : (body ++ rest).dropWhile (fun c => decide (c ≠ '"' ∧ c ≠ '\n')) = rest := behind
  have stops : ¬ (f.scanner .string ('"' :: body) rest).sees Lexical.isInside = true := sees_eq_false ends
  simp only [Piece.string, taken', behind']
  split
  next rest' =>
    let s := f.scanner .string ('"' :: body) ('"' :: rest')
    have closes : s.sees (· = '"') = true := rfl
    have steps : step source s = some (f.scanner (.token .string) ('"' :: body ++ ['"']) rest') := by
      rw [step_string rfl, if_neg stops, if_pos closes, f.advance_cons]
      rfl
    have whole'' : source = f.front ++ String.ofList ('"' :: body ++ ['"']) ++ String.ofList rest' :=
      whole_append whole'
    exact (loop.tail steps).trans (goes_written (.token _) whole'')
  next other =>
    let s := f.scanner .string ('"' :: body) rest
    have inStep : InStep source f ('"' :: body) s := inStep_scanner whole' rfl
    have unclosed : ¬ s.sees (· = '"') = true := by
      have ends' : ∀ c ∈ rest.head?, decide (c = '"') = false := by
        intro c first
        refine decide_eq_false fun isQuote => ?_
        obtain ⟨others, rfl⟩ := List.head?_eq_some_iff.mp first
        exact other others (by rw [isQuote])
      exact sees_eq_false ends'
    have steps : step source s =
        some (f.scanner (.fault .unterminatedString (String.ofList ('"' :: body))) ('"' :: body) rest) := by
      rw [step_string rfl, if_neg stops, if_neg unclosed, inStep.lexeme_eq]
      rfl
    exact (loop.tail steps).trans (goes_written (.fault _) whole')

section Number

variable {digits others decimals : List Char}

theorem value_whole (all : ∀ c ∈ digits, c.isDigit = true) :
    value digits = (Decimal.ofDigits digits []).toBinary64 false := by
  have taken : (digits ++ []).takeWhile Char.isDigit = digits ++ [] := List.takeWhile_append_of_pos all
  have behind : (digits ++ []).dropWhile Char.isDigit = [] := List.dropWhile_append_of_pos all
  rw [List.append_nil] at taken behind
  rw [value, taken, behind, List.drop_nil]

theorem value_point (all : ∀ c ∈ digits, c.isDigit = true) :
    value (digits ++ '.' :: decimals) = (Decimal.ofDigits digits decimals).toBinary64 false := by
  rw [value, List.takeWhile_append_of_pos all, List.dropWhile_append_of_pos all,
    List.takeWhile_cons_of_neg (by decide), List.dropWhile_cons_of_neg (by decide), List.append_nil]
  rfl

/-- A zero takes one byte, and each character behind it at least one. -/
theorem leadingZero_iff :
    1 < (String.ofList digits).utf8ByteSize ∧ (String.ofList digits).toList.head? = some '0' ↔
      digits.head? = some '0' ∧ 1 < digits.length := by
  rw [String.toList_ofList, And.comm]
  refine and_congr_right fun first => ?_
  obtain ⟨others, rfl⟩ := List.head?_eq_some_iff.mp first
  have none : (String.ofList others).utf8ByteSize = 0 ↔ others.length = 0 := by
    rw [String.utf8ByteSize_eq_zero_iff, String.ofList_eq_empty_iff, List.length_eq_zero_iff]
  have zero : '0'.utf8Size = 1 := rfl
  rw [String.ofList_cons, String.utf8ByteSize_append, String.utf8ByteSize_singleton, zero, List.length_cons]
  omega

theorem number_eq {s : Scanner} {wholeEnd : Nat} (lexeme : s.lexeme source = some (String.ofList text))
    (cut : slice source s.lexemeStart wholeEnd = some (String.ofList digits))
    (read : value text = (Decimal.ofDigits digits decimals).toBinary64 false) :
    s.number source wholeEnd = some (s.goto ((Lexical.numeralSort digits decimals).phase text)) := by
  rw [number, lexeme, cut]
  show some (s.goto (if _ then _ else _)) = _
  rw [String.toList_ofList (l := text), read, Lexical.numeralSort]
  by_cases leading : digits.head? = some '0' ∧ 1 < digits.length
  · rw [if_pos (leadingZero_iff.mpr leading), if_pos leading]
    rfl
  · rw [if_neg (mt leadingZero_iff.mp leading), if_neg leading]
    rfl

theorem goes_numeral (whole : source = f.front ++ String.ofList (digits ++ others) ++ String.ofList ahead)
    (read : value (digits ++ others) = (Decimal.ofDigits digits decimals).toBinary64 false) :
    Goes source
      (f.scanner (.numeral (f.front ++ String.ofList digits).utf8ByteSize) (digits ++ others) ahead)
      ((f.after ⟨Lexical.numeralSort digits decimals, digits ++ others⟩).scanner .between
        (digits ++ others) ahead) := by
  let s := f.scanner (.numeral (f.front ++ String.ofList digits).utf8ByteSize) (digits ++ others) ahead
  have inStep : InStep source f (digits ++ others) s :=
    ⟨rfl, whole, fun stop isEnd => ⟨digits, others, rfl, (Option.some.inj isEnd).symm⟩⟩
  have cut : slice source s.lexemeStart (f.front ++ String.ofList digits).utf8ByteSize =
      some (String.ofList digits) := by
    rw [inStep.lexemeStart_eq, whole, String.ofList_append, ← String.append_assoc, String.append_assoc]
    exact slice_append ..
  have steps : step source s = _ := number_eq inStep.lexeme_eq cut read
  exact .head steps (goes_written _ whole)

/-- The digits behind a point are taken with it. -/
theorem goes_point (whole : source = f.front ++ String.ofList digits ++ String.ofList ahead)
    (ends : ∀ c ∈ ahead.head?, c.isDigit = false) :
    Goes source (f.scanner .whole digits ahead)
      (f.scanner (.numeral (f.front ++ String.ofList digits).utf8ByteSize)
        (digits ++ if (Piece.fraction ahead).1.isEmpty then [] else '.' :: (Piece.fraction ahead).1)
        (Piece.fraction ahead).2) := by
  let s := f.scanner .whole digits ahead
  have inStep : InStep source f digits s := inStep_scanner whole rfl
  have steps : step source s = s.point source := if_neg (sees_eq_false ends)
  rw [point_eq inStep] at steps
  unfold Piece.fraction
  split
  next d cs =>
    by_cases digit : d.isDigit = true
    · obtain ⟨others, rest, rfl, taken, behind, all, ends'⟩ := Lexical.exists_run Char.isDigit cs
      let stop := (f.front ++ String.ofList digits).utf8ByteSize
      have both : s.sees (· = '.') = true ∧ s.ahead[1]?.any Char.isDigit = true := ⟨rfl, digit⟩
      have point : s.advance.goto (.decimals s.current) =
          f.scanner (.decimals stop) (digits ++ ['.']) (d :: others ++ rest) :=
        congrArg (fun s => s.goto (.decimals stop)) f.advance_cons
      have loop : Goes source (f.scanner (.decimals stop) (digits ++ ['.']) (d :: others ++ rest))
          (f.scanner (.decimals stop) (digits ++ ['.'] ++ d :: others) rest) :=
        goes_loop (fun _ _ _ isIn => congrArg some (if_pos isIn)) (List.forall_mem_cons.mpr ⟨digit, all⟩)
      rw [if_pos both, point] at steps
      rw [if_pos digit, taken, behind, List.isEmpty_cons, if_neg Bool.false_ne_true, List.append_cons]
      have goes : Goes source s (f.scanner (.decimals stop) (digits ++ ['.'] ++ d :: others) rest) :=
        .head steps loop
      exact goes.tail (congrArg some (if_neg (sees_eq_false ends')))
    · have other : ¬ (s.sees (· = '.') = true ∧ s.ahead[1]?.any Char.isDigit = true) :=
        fun both => digit both.2
      rw [if_neg other] at steps
      rw [if_neg digit]
      simp only [List.isEmpty_nil, if_true, List.append_nil]
      exact .single steps
  next noPoint =>
    have other : ¬ (s.sees (· = '.') = true ∧ s.ahead[1]?.any Char.isDigit = true) := by
      rintro ⟨point, digit⟩
      obtain ⟨c, others, rfl, isPoint⟩ : ∃ c others, ahead = c :: others ∧ decide (c = '.') = true :=
        sees_cons point
      cases others with
      | nil => cases digit
      | cons d others => exact noPoint d others (congrArg (· :: d :: others) (of_decide_eq_true isPoint))
    rw [if_neg other] at steps
    simp only [List.isEmpty_nil, if_true, List.append_nil]
    exact .single steps

/-- A number goes on with its digits, and with those behind a point. -/
theorem goes_number (digit : c.isDigit = true)
    (whole : source = f.front ++ String.ofList [c] ++ String.ofList ahead) :
    Goes source (f.scanner .whole [c] ahead)
      ((f.after (Piece.number c ahead).1).scanner .between (Piece.number c ahead).1.text
        (Piece.number c ahead).2) := by
  obtain ⟨run, behind, rfl, taken, left, all, ends⟩ := Lexical.exists_run Char.isDigit ahead
  have digits : ∀ d ∈ c :: run, d.isDigit = true := List.forall_mem_cons.mpr ⟨digit, all⟩
  have loop : Goes source (f.scanner .whole [c] (run ++ behind)) (f.scanner .whole (c :: run) behind) :=
    goes_loop (fun _ _ _ isIn => if_pos isIn) all
  have whole' := whole_append whole
  rw [List.singleton_append] at whole'
  have point := goes_point whole' ends
  have parts := Piece.fraction_append behind
  rw [Piece.number, taken, left]
  generalize Piece.fraction behind = fraction at point parts ⊢
  obtain ⟨decimals, rest⟩ := fraction
  have whole'' :
      source = f.front ++ String.ofList (c :: run ++ if decimals.isEmpty then [] else '.' :: decimals) ++
      String.ofList rest := by
    rw [← parts] at whole'
    exact whole_append whole'
  have read : value (c :: run ++ if decimals.isEmpty then [] else '.' :: decimals) =
      (Decimal.ofDigits (c :: run) decimals).toBinary64 false := by
    cases decimals with
    | nil => exact (congrArg value (List.append_nil _)).trans (value_whole digits)
    | cons d decimals => exact value_point digits
  have text : (if decimals.isEmpty then c :: run else c :: run ++ '.' :: decimals) =
      c :: run ++ if decimals.isEmpty then [] else '.' :: decimals := by
    cases decimals with
    | nil => exact (List.append_nil _).symm
    | cons d decimals => rfl
  have sort : (if c = '0' ∧ 1 < (c :: run).length then PieceSort.fault .leadingZero
      else .token (.number ((Decimal.ofDigits (c :: run) decimals).toBinary64 false))) =
        Lexical.numeralSort (c :: run) decimals := by
    simp only [Lexical.numeralSort, List.head?_cons, Option.some.injEq]
  dsimp only
  rw [text, sort]
  exact (loop.trans point).trans (goes_numeral whole'' read)

end Number

/-- The second character of an operator is an equals sign, and the first one is an operator too. -/
theorem of_ofPair {d : Char} {pair : TokenKind} (known : TokenKind.ofPair? c d = some pair) :
    d = '=' ∧ TokenKind.ofChar? c ≠ none := by
  unfold TokenKind.ofPair? at known
  split at known
  case h_5 => cases known
  all_goals exact ⟨rfl, nofun⟩

theorem symbol_of_pair {pair : TokenKind} (known : TokenKind.ofPair? c '=' = some pair) :
    Piece.symbol c ('=' :: ahead) = (⟨.token pair, [c, '=']⟩, ahead) := by
  simp only [Piece.symbol, List.head?_cons, Option.bind_some, known]
  rfl

theorem symbol_of_single (single : ∀ d ∈ ahead.head?, TokenKind.ofPair? c d = none) :
    Piece.symbol c ahead =
      (⟨match TokenKind.ofChar? c with | some kind => .token kind | none => .fault .unexpectedCharacter,
        [c]⟩, ahead) := by
  have none : ahead.head?.bind (TokenKind.ofPair? c) = none := Option.bind_eq_none_iff.mpr single
  rw [Piece.symbol, none]
  cases TokenKind.ofChar? c <;> rfl

theorem matchOne_cons {expected : Char} {matched other : Phase} :
    (f.scanner phase text (expected :: ahead)).matchOne expected matched other =
      f.scanner matched (text ++ [expected]) ahead := by
  have sees : (f.scanner phase text (expected :: ahead)).sees (· = expected) = true := decide_eq_true rfl
  rw [matchOne, if_pos sees, f.advance_cons]
  rfl

theorem matchOne_other {expected : Char} {matched other : Phase} (next : ahead.head? ≠ some expected) :
    (f.scanner phase text ahead).matchOne expected matched other = f.scanner other text ahead := by
  have sees : ¬ (f.scanner phase text ahead).sees (· = expected) = true := by
    have ends : ∀ c ∈ ahead.head?, decide (c = expected) = false :=
      fun c first => decide_eq_false fun same => next (same ▸ first)
    exact sees_eq_false ends
  rw [matchOne, if_neg sees]
  rfl

section Begun

variable (whole : source = f.front ++ String.ofList [c] ++ String.ofList ahead)
include whole

/-- An operator goes on with an equals sign where there is an operator of both, and a slash with a
comment. -/
theorem goes_operator {kind : TokenKind} (known : TokenKind.ofChar? c = some kind) :
    Goes source (f.scanner (.begun c) [c] ahead)
      ((f.after (Piece.next c ahead).1).scanner .between (Piece.next c ahead).1.text
        (Piece.next c ahead).2) := by
  let s := f.scanner (.begun c) [c] ahead
  have steps : step source s = some (s.classify c) := rfl
  have spelled : Lexical.ofSpelling? [c] = some kind := known
  obtain ⟨quote, digit, start⟩ := Lexical.ofSpelling?_cons spelled
  have blank := (Lexical.Lexeme.operator (Lexical.mem_operators_iff.mpr spelled)).not_blank
  have word : ¬ Piece.isWordStart c = true := mt Lexical.isWordStart_iff.mp start
  have lone (single : ∀ d ∈ ahead.head?, TokenKind.ofPair? c d = none)
      (steps : step source s = some (f.scanner (.token kind) [c] ahead)) :
      Goes source s ((f.after (Piece.symbol c ahead).1).scanner .between (Piece.symbol c ahead).1.text
        (Piece.symbol c ahead).2) := by
    rw [symbol_of_single single, known]
    exact .head steps (goes_written (.token kind) whole)
  rw [classify, known] at steps
  rw [Piece.next, blank, digit, if_neg Bool.false_ne_true, if_neg quote,
    if_neg Bool.false_ne_true, if_neg word]
  dsimp only at steps
  by_cases slash : c = '/'
  · subst slash
    rw [if_pos rfl] at steps
    by_cases comment : ahead.head? = some '/'
    · obtain ⟨others, rfl⟩ := List.head?_eq_some_iff.mp comment
      rw [matchOne_cons] at steps
      rw [if_pos ⟨rfl, comment⟩, f.after_blank]
      exact .head steps goes_comment
    · have single : ∀ d ∈ ahead.head?, TokenKind.ofPair? '/' d = none := fun _ _ => rfl
      rw [matchOne_other comment] at steps
      rw [if_neg fun both => comment both.2]
      exact lone single steps
  rw [if_neg slash] at steps
  rw [if_neg fun both => slash both.1]
  cases pairs : TokenKind.ofPair? c '=' with
  | some pair =>
    rw [pairs] at steps
    dsimp only at steps
    by_cases equals : ahead.head? = some '='
    · obtain ⟨others, rfl⟩ := List.head?_eq_some_iff.mp equals
      rw [matchOne_cons] at steps
      rw [symbol_of_pair pairs]
      exact .head steps (goes_written (.token pair) (whole_append whole))
    · have single : ∀ d ∈ ahead.head?, TokenKind.ofPair? c d = none := by
        refine fun d first => Option.eq_none_iff_forall_ne_some.mpr fun pair' known' => ?_
        rw [(of_ofPair known').1] at first
        exact equals first
      rw [matchOne_other equals] at steps
      exact lone single steps
  | none =>
    have single : ∀ d ∈ ahead.head?, TokenKind.ofPair? c d = none := by
      refine fun d _ => Option.eq_none_iff_forall_ne_some.mpr fun pair known' => ?_
      rw [(of_ofPair known').1, pairs] at known'
      cases known'
    rw [pairs] at steps
    exact lone single steps

/-- Behind its first character a piece goes on as its first character says. -/
theorem goes_begun : Goes source (f.scanner (.begun c) [c] ahead)
    ((f.after (Piece.next c ahead).1).scanner .between (Piece.next c ahead).1.text
      (Piece.next c ahead).2) := by
  cases known : TokenKind.ofChar? c with
  | some kind => exact goes_operator whole known
  | none =>
    let s := f.scanner (.begun c) [c] ahead
    have steps : step source s = some (s.classify c) := rfl
    have slash : c ≠ '/' := by
      rintro rfl
      cases known
    have single : ∀ d ∈ ahead.head?, TokenKind.ofPair? c d = none :=
      fun d _ => Option.eq_none_iff_forall_ne_some.mpr fun pair known' => (of_ofPair known').2 known
    rw [classify, known] at steps
    dsimp only at steps
    rw [Piece.next, if_neg fun both : c = '/' ∧ _ => slash both.1]
    by_cases blank : Text.isBlank c = true
    · rw [if_pos blank] at steps ⊢
      exact .head steps (goes_written .blank whole)
    rw [if_neg blank] at steps ⊢
    by_cases quote : c = '"'
    · subst quote
      rw [if_pos rfl] at steps ⊢
      exact .head steps (goes_string whole)
    rw [if_neg quote] at steps ⊢
    by_cases digit : c.isDigit = true
    · rw [if_pos digit] at steps ⊢
      exact .head steps (goes_number digit whole)
    rw [if_neg digit] at steps ⊢
    by_cases start : Piece.isWordStart c = true
    · rw [if_pos start] at steps ⊢
      exact .head steps (goes_word whole)
    rw [if_neg start] at steps ⊢
    rw [String.singleton_eq_ofList] at steps
    rw [symbol_of_single single, known]
    exact .head steps (goes_written (.fault .unexpectedCharacter) whole)

end Begun

/-- From the front of a lexeme the scanner goes to the end of the piece there. -/
theorem goes_piece (whole : source = f.front ++ String.ofList text ++ String.ofList (c :: ahead)) :
    Goes source (f.scanner .between text (c :: ahead))
      (((f.behind text).after (Piece.next c ahead).1).scanner .between (Piece.next c ahead).1.text
        (Piece.next c ahead).2) := by
  let s := f.scanner .between text (c :: ahead)
  have inStep : InStep source f text s := inStep_scanner whole rfl
  have more : ¬ s.isAtEnd source = true :=
    fun atEnd => List.cons_ne_nil c ahead (inStep.isAtEnd_iff.mp atEnd)
  have steps : step source s = some s.begin := congrArg some (if_neg more)
  rw [f.begin_cons] at steps
  have whole' : source = (f.behind text).front ++ String.ofList [c] ++ String.ofList ahead := by
    rw [whole, String.ofList_cons, String.singleton_eq_ofList, ← String.append_assoc]
    rfl
  exact .head steps (goes_begun whole')

theorem filterMap_cons_toList {α β : Type} (g : α → Option β) (a : α) (as : List α) :
    (a :: as).filterMap g = (g a).toList ++ as.filterMap g := by
  cases known : g a with
  | none => rw [List.filterMap_cons_none known, Option.toList_none, List.nil_append]
  | some b => rw [List.filterMap_cons_some known, Option.toList_some, List.singleton_append]

/-- Piece by piece, to the end of the text. -/
theorem goes_all (whole : source = f.front ++ String.ofList text ++ String.ofList ahead) :
    let placed := Piece.place (f.position.after text) (Piece.all ahead)
    ∃ (g : Frame) (text' : List Char),
      Goes source (f.scanner .between text ahead) (g.scanner .between text' []) ∧
      source = g.front ++ String.ofList text' ++ String.ofList [] ∧
      g.tokens = f.tokens ++ placed.filterMap Piece.token? ∧
      g.errors = f.errors ++ placed.filterMap Piece.error? ∧
      g.log = f.log ++ (placed.filterMap Piece.error?).map ScanError.record ∧
      g.position.after text' = (f.position.after text).after ahead := by
  induction ahead using Piece.all.induct generalizing f text with
  | case1 =>
    refine ⟨f, text, .refl, whole, ?_⟩
    simp only [Piece.all, Piece.place, List.filterMap_nil, List.map_nil, List.append_nil,
      Position.after_nil, and_self]
  | case2 c cs ih =>
    have cut := Piece.next_append c cs
    have whole' : source = ((f.behind text).after (Piece.next c cs).1).front ++
        String.ofList (Piece.next c cs).1.text ++ String.ofList (Piece.next c cs).2 := by
      rw [whole, ← cut, String.ofList_append, ← String.append_assoc]
      rfl
    obtain ⟨g, text', goes, ended, tokens, errors, log, position⟩ := ih whole'
    refine ⟨g, text', (goes_piece whole).trans goes, ended, ?_, ?_, ?_, ?_⟩
    · rw [tokens, Piece.all, Piece.place, filterMap_cons_toList, ← List.append_assoc]
      rfl
    · rw [errors, Piece.all, Piece.place, filterMap_cons_toList, ← List.append_assoc]
      rfl
    · rw [log, Piece.all, Piece.place, filterMap_cons_toList, List.map_append, ← List.append_assoc]
      rfl
    · rw [position, ← Position.after_append]
      show (f.position.after text).after ((Piece.next c cs).1.text ++ (Piece.next c cs).2) = _
      rw [cut]

end Frame

/-- The scanner ends, with the tokens and the errors of the text, and has told of them. -/
theorem run_ends (source : String) : ∃ n s, run source n = some s ∧ s.phase = .done ∧
    (⟨s.tokens, s.errors⟩ : Scan) = Scan.ofSource source ∧ s.log = (Scan.ofSource source).log := by
  have start : InStep source .empty [] (ofSource source) := .ofSource source
  obtain ⟨g, text, goes, ended, tokens, errors, log, position⟩ := goes_all start.whole
  have inStep : InStep source g text (g.scanner .between text []) := inStep_scanner ended rfl
  have atEnd : (g.scanner .between text []).isAtEnd source = true := inStep.isAtEnd_iff.mpr rfl
  have steps : step source (g.scanner .between text []) = some (g.scanner .between text []).close :=
    congrArg some (if_pos atEnd)
  have goes' : Goes source (ofSource source) (g.scanner .between text []).close := goes.tail steps
  obtain ⟨n, runs⟩ := goes'.run
  have tokens' : g.tokens ++ [⟨.eof, "", g.position.after text⟩] = (Scan.ofSource source).tokens := by
    rw [tokens, position]
    rfl
  have errors' : g.errors = (Scan.ofSource source).errors := errors
  refine ⟨n, _, runs, rfl, ?_, ?_⟩
  · show (⟨g.tokens ++ [⟨.eof, "", g.position.after text⟩], g.errors⟩ : Scan) = _
    rw [tokens', errors']
  · show g.log ++ [⟨.debug, .scanner, "scanned " ++
      toString (g.tokens ++ [(⟨.eof, "", g.position.after text⟩ : Token)]).length ++ " tokens with " ++
      toString g.errors.length ++ " errors"⟩] = _
    rw [tokens', errors', log]
    rfl

/-- Behind every step the number of bytes taken and the characters ahead fit, and all offsets stand
between characters; no cut fails, each gives what the rules take it for, and the lexeme is what was
taken since it began. Between two lexemes something is taken, and in the end the scanner has the
tokens and the errors of the text. -/
theorem cursors_in_step (source : String) :
    (∀ n, ∃ s front text, run source n = some s ∧ Aligned source s front text ∧
      (s.phase.inside = true → Began source n s text)) ∧
    (∀ m n s s', m < n → run source m = some s → run source n = some s' → s.phase = .between →
      s'.phase = .between → s.current < s'.current) ∧
    ∃ n s, run source n = some s ∧ s.phase = .done ∧ (⟨s.tokens, s.errors⟩ : Scan) = Scan.ofSource source ∧
      s.log = (Scan.ofSource source).log := by
  refine ⟨fun n => ?_, fun m n s s' before runs runs' between between' => ?_, run_ends source⟩
  · obtain ⟨s, f, text, runs, inStep, began⟩ := run_inStep source n
    exact ⟨s, f.front.toList, text, runs, inStep.aligned, began⟩
  · rcases current_lt before runs between runs' with isDone | further
    · rw [between'] at isDone
      cases isDone
    · exact further

end Scanner

end LoxFrontEnd
