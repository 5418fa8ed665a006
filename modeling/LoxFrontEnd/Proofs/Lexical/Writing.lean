import LoxFrontEnd.Proofs.Lexical.Layout

/-!
Scanning undoes writing. Lexemes are written one behind another with a gap between neighbours, and are
scanned back as they were whatever the gaps hold: in front of white space no lexeme goes on.
-/

namespace LoxFrontEnd

/-- What a token says, apart from its place. -/
def Token.spelled (token : Token) : TokenKind × String := (token.kind, token.lexeme)

namespace Lexical

/-- White space, and comments with the line feeds that end them, in any mix. -/
inductive Filling : List Char → Prop
  | nil : Filling []
  | space {c rest} : Text.isBlank c = true → Filling rest → Filling (c :: rest)
  | comment {body rest} : (∀ c ∈ body, c ≠ '\n') → Filling rest →
      Filling ('/' :: '/' :: (body ++ '\n' :: rest))

/-- What may stand between two lexemes. -/
inductive Gap : List Char → Prop
  | space {c rest} : Text.isBlank c = true → Filling rest → Gap (c :: rest)

/-- Nothing, or a comment that the end of the text leaves unfinished. -/
inductive Unfinished : List Char → Prop
  | nothing : Unfinished []
  | comment {body} : (∀ c ∈ body, c ≠ '\n') → Unfinished ('/' :: '/' :: body)

/-- What stands behind a lexeme where these are still to come. -/
inductive Continues : List (TokenKind × String) → List Char → Prop
  | nothing : Continues [] []
  | ending {gap last} : Gap gap → Unfinished last → Continues [] (gap ++ last)
  | lexeme {gap kind text items rest} : Gap gap → Lexeme (.token kind) text → Continues items rest →
      Continues ((kind, String.ofList text) :: items) (gap ++ (text ++ rest))

/-- `Written items text`: the text is these lexemes in this order, with gaps between neighbours and
anything that means nothing in front. -/
inductive Written : List (TokenKind × String) → List Char → Prop
  | nothing {front last} : Filling front → Unfinished last → Written [] (front ++ last)
  | lexeme {front kind text items rest} : Filling front → Lexeme (.token kind) text → Continues items rest →
      Written ((kind, String.ofList text) :: items) (front ++ (text ++ rest))

/-- The text is scanned without an error, and these are its tokens in front of the end mark. -/
def Scans (source : String) (items : List (TokenKind × String)) : Prop :=
  ∃ tokens place, tokenize source = .ok (tokens ++ [⟨.eof, "", place⟩]) ∧ tokens.map Token.spelled = items

section Blank

variable {c : Char}

theorem WordPart.not_blank (part : WordPart c) : Text.isBlank c = false := by
  rcases part with start | digit
  · have word : Word [c] := ⟨c, [], rfl, start, nofun⟩
    exact word.lexeme.not_blank
  · have digits : Digits [c] := ⟨List.cons_ne_nil _ _, List.forall_mem_singleton.mpr digit⟩
    exact (Numeral.whole digits).lexeme.not_blank

theorem Numeral.not_blank {text whole decimals : List Char} (numeral : Numeral text whole decimals) :
    ∀ c ∈ text, Text.isBlank c = false := by
  have digits {run : List Char} (known : Digits run) : ∀ c ∈ run, Text.isBlank c = false :=
    fun c member => WordPart.not_blank (Or.inr (known.2 c member))
  cases numeral with
  | whole run => exact digits run
  | decimal run run' =>
    exact List.forall_mem_append.mpr ⟨digits run, List.forall_mem_cons.mpr ⟨by decide, digits run'⟩⟩

/-- Only strings have white space in them. -/
theorem Lexeme.quote_of_blank {sort : PieceSort} {others : List Char} {d : Char}
    (lexeme : Lexeme sort (c :: others)) (member : d ∈ c :: others) (blank : Text.isBlank d = true) :
    c = '"' := by
  have visible (all : ∀ e ∈ c :: others, Text.isBlank e = false) : c = '"' :=
    absurd ((all d member).symm.trans blank) Bool.false_ne_true
  obtain ⟨c, others', same, ⟨rfl, _⟩ | ⟨_, _, _, numeral, _⟩ | ⟨start, parts, _⟩ | ⟨kind, known, _⟩⟩ :=
    lexeme.first
  all_goals obtain ⟨rfl, rfl⟩ := List.cons.inj same
  · rfl
  · exact visible numeral.not_blank
  · refine visible (List.forall_mem_cons.mpr ⟨WordPart.not_blank (Or.inl start), fun e member => ?_⟩)
    exact (parts e member).not_blank
  · have all : ∀ entry ∈ operators, entry.1.all (Text.isBlank · == false) = true := by decide
    have clear := List.all_eq_true.mp (all _ (mem_operators_iff.mpr known))
    exact visible fun e member => beq_iff_eq.mp (clear e member)

end Blank

section Cut

variable {sort : PieceSort} {text rest : List Char}

/-- In front of white space, or of nothing, no lexeme goes on. -/
theorem Lexeme.not_further {sort' : PieceSort} {more : List Char} {c : Char} (lexeme : Lexeme sort text)
    (blank : Text.isBlank c = true) : ¬ Lexeme sort' (text ++ c :: more) := by
  intro lexeme'
  obtain ⟨d, others, rfl, -⟩ := lexeme.first
  have within : c ∈ d :: others ++ c :: more := List.mem_append_right _ List.mem_cons_self
  obtain rfl : d = '"' := lexeme'.quote_of_blank within blank
  obtain ⟨-, body, inside, rfl⟩ := lexeme.of_quote
  obtain ⟨-, body', inside', same⟩ := lexeme'.of_quote
  replace same : body ++ ['"'] ++ c :: more = body' ++ ['"'] := same
  rw [List.append_assoc] at same
  obtain ⟨-, ends⟩ := run_unique (isInside_of_inside inside) (by rintro c ⟨⟩; rfl)
    (isInside_of_inside inside') (by rintro c ⟨⟩; rfl) same
  cases ends

/-- A lexeme is cut off as it is in front of white space, or of nothing. -/
theorem Lexeme.cuts (lexeme : Lexeme sort text) (apart : ∀ c ∈ rest.head?, Text.isBlank c = true) :
    Cuts (text ++ rest) ⟨sort, text⟩ := by
  refine .lexeme ?_ ⟨lexeme, List.prefix_append _ _, ?_⟩
  · obtain ⟨c, others, rfl, -⟩ := lexeme.first
    refine not_trivia lexeme.not_blank ?_
    rintro ⟨rfl, slash⟩
    cases others with
    | nil => cases (apart '/' slash).symm.trans (by decide : Text.isBlank '/' = false)
    | cons d others =>
      cases slash
      exact Lexeme.not_comment lexeme
  · intro sort' text' lexeme' front
    refine Nat.le_of_not_lt fun longer => ?_
    obtain ⟨behind, rfl⟩ := List.prefix_of_prefix_length_le (List.prefix_append text rest) front
      (Nat.le_of_lt longer)
    cases behind with
    | nil => exact absurd longer (by simp)
    | cons c more =>
      have next : c ∈ rest.head? := by
        obtain ⟨others, rfl⟩ := (List.prefix_append_right_inj text).mp front
        rfl
      exact lexeme.not_further (apart c next) lexeme'

end Cut

/-- `Shows text items`: cutting the text gives these lexemes, and nothing else but what means nothing. -/
inductive Shows : List Char → List (TokenKind × String) → Prop
  | nil : Shows [] []
  | blank {text rest items} : Cuts (text ++ rest) ⟨.blank, text⟩ → Shows rest items →
      Shows (text ++ rest) items
  | lexeme {kind text rest items} : Cuts (text ++ rest) ⟨.token kind, text⟩ → Shows rest items →
      Shows (text ++ rest) ((kind, String.ofList text) :: items)

section Shows

variable {text rest : List Char} {items : List (TokenKind × String)}

theorem Shows.pieces (shows : Shows text items) :
    ∃ pieces, Cutting text pieces ∧ ∀ p, (Piece.place p pieces).filterMap Piece.error? = [] ∧
      ((Piece.place p pieces).filterMap Piece.token?).map Token.spelled = items := by
  induction shows with
  | nil => exact ⟨[], .nil, fun _ => ⟨rfl, rfl⟩⟩
  | @blank text rest items cuts _ ih =>
    obtain ⟨pieces, cutting, told⟩ := ih
    exact ⟨_, @Cutting.cons ⟨.blank, text⟩ _ _ cuts cutting, fun p => told (p.after text)⟩
  | @lexeme kind text rest items cuts _ ih =>
    obtain ⟨pieces, cutting, told⟩ := ih
    refine ⟨_, @Cutting.cons ⟨.token kind, text⟩ _ _ cuts cutting, fun p => ?_⟩
    obtain ⟨errors, tokens⟩ := told (p.after text)
    exact ⟨errors, congrArg ((kind, String.ofList text) :: ·) tokens⟩

theorem Shows.scans {source : String} (shows : Shows source.toList items) : Scans source items := by
  obtain ⟨pieces, cutting, told⟩ := shows.pieces
  obtain ⟨errors, tokens⟩ := told .start
  rw [cutting_iff.mp cutting] at errors tokens
  have clean : (Scan.ofSource source).errors = [] := errors
  refine ⟨_, Position.start.after source.toList, ?_, tokens⟩
  rw [tokenize, clean]
  rfl

theorem Filling.shows {front : List Char} (filling : Filling front) (behind : Shows rest items) :
    Shows (front ++ rest) items := by
  induction filling with
  | nil => exact behind
  | @space c _ blank _ ih => exact @Shows.blank [c] _ _ (.trivia (.space blank)) ih
  | @comment body _ all _ ih =>
    have newline := @Shows.blank ['\n'] _ _ (.trivia (.space Text.isBlank_newline)) ih
    have comment :=
      @Shows.blank ('/' :: '/' :: body) _ _ (.trivia (.comment all (by rintro c ⟨⟩; rfl))) newline
    simpa only [List.cons_append, List.append_assoc, List.nil_append] using comment

theorem Gap.shows {gap : List Char} (isGap : Gap gap) (behind : Shows rest items) :
    Shows (gap ++ rest) items := by
  cases isGap with
  | space blank filling => exact (Filling.space blank filling).shows behind

theorem Gap.head_blank {gap : List Char} (isGap : Gap gap) (rest : List Char) :
    ∀ c ∈ (gap ++ rest).head?, Text.isBlank c = true := by
  cases isGap with
  | space blank =>
    rintro c ⟨⟩
    exact blank

theorem Unfinished.shows {last : List Char} (unfinished : Unfinished last) : Shows last [] := by
  cases unfinished with
  | nothing => exact .nil
  | @comment body all =>
    have cuts : Cuts ('/' :: '/' :: (body ++ [])) ⟨.blank, '/' :: '/' :: body⟩ :=
      .trivia (.comment all nofun)
    have comment := @Shows.blank ('/' :: '/' :: body) [] _ cuts .nil
    rwa [List.append_nil] at comment

theorem Continues.head_blank (continues : Continues items rest) :
    ∀ c ∈ rest.head?, Text.isBlank c = true := by
  cases continues with
  | nothing => exact nofun
  | ending gap => exact gap.head_blank _
  | lexeme gap => exact gap.head_blank _

theorem Continues.shows (continues : Continues items rest) : Shows rest items := by
  induction continues with
  | nothing => exact .nil
  | ending gap last => exact gap.shows last.shows
  | lexeme gap lexeme more ih => exact gap.shows (.lexeme (lexeme.cuts more.head_blank) ih)

theorem Written.shows (written : Written items text) : Shows text items := by
  cases written with
  | nothing front last => exact front.shows last.shows
  | lexeme front lexeme more => exact front.shows (.lexeme (lexeme.cuts more.head_blank) more.shows)

end Shows

/-- The lexemes of tokens, joined again by single blanks. -/
def rejoined (tokens : List Token) : String := " ".intercalate (tokens.map Token.lexeme)

section Rejoined

variable {tokens : List Token}

theorem toList_rejoined (token : Token) (tokens : List Token) :
    (rejoined (token :: tokens)).toList =
      token.lexeme.toList ++ tokens.flatMap fun t => ' ' :: t.lexeme.toList := by
  induction tokens generalizing token with
  | nil =>
    rw [rejoined, List.map_singleton, String.intercalate_singleton, List.flatMap_nil, List.append_nil]
  | cons next tokens ih =>
    have joined : rejoined (token :: next :: tokens) = token.lexeme ++ " " ++ rejoined (next :: tokens) :=
      String.intercalate_cons_cons
    rw [joined, String.toList_append, String.toList_append, ih, List.flatMap_cons, List.append_assoc]
    rfl

theorem continues_blanks {rest : List Char} (lexemes : ∀ t ∈ tokens, Lexeme (.token t.kind) t.lexeme.toList)
    (ending : Continues [] rest) :
    Continues (tokens.map Token.spelled) ((tokens.flatMap fun t => ' ' :: t.lexeme.toList) ++ rest) := by
  induction tokens with
  | nil => exact ending
  | cons t tokens ih =>
    obtain ⟨first, others⟩ := List.forall_mem_cons.mp lexemes
    have blank : Gap [' '] := .space (by decide) .nil
    have more := Continues.lexeme blank first (ih others)
    rw [String.ofList_toList] at more
    rwa [List.flatMap_cons, List.append_assoc]

/-- Joined again, lexemes are written with a blank between neighbours. An end mark has no text, so
that it adds one more blank at the end. -/
theorem written_rejoined (lexemes : ∀ t ∈ tokens, Lexeme (.token t.kind) t.lexeme.toList) {mark : Token}
    (empty : mark.lexeme = "") : Written (tokens.map Token.spelled) (rejoined tokens).toList ∧
      Written (tokens.map Token.spelled) (rejoined (tokens ++ [mark])).toList := by
  cases tokens with
  | nil =>
    have nothing : (rejoined [mark]).toList = [] := by rw [toList_rejoined, empty]; rfl
    rw [List.nil_append, nothing]
    exact ⟨.nothing .nil .nothing, .nothing .nil .nothing⟩
  | cons t tokens =>
    obtain ⟨first, others⟩ := List.forall_mem_cons.mp lexemes
    have blank : Gap [' '] := .space (by decide) .nil
    have bare := Written.lexeme .nil first (continues_blanks others .nothing)
    have marked := Written.lexeme .nil first (continues_blanks others (.ending blank .nothing))
    rw [String.ofList_toList] at bare marked
    rw [List.cons_append, toList_rejoined, toList_rejoined, List.flatMap_append,
      List.flatMap_singleton, empty]
    rw [List.append_nil] at bare
    exact ⟨bare, marked⟩

end Rejoined

theorem tokenize_eq_ok {source : String} {tokens : List Token} (scanned : tokenize source = .ok tokens) :
    tokens = (Scan.ofSource source).tokens := by
  rw [tokenize] at scanned
  split at scanned
  · exact (Except.ok.inj scanned).symm
  · cases scanned

/-- Lexemes with gaps between them are scanned back, whatever is in the gaps. So texts that differ in
their gaps only have the same tokens but for places, and so has a text that is joined again from the
lexemes of one, with the end mark or without it. -/
theorem layout_lost :
    (∀ items source, Written items source.toList → Scans source items) ∧
    (∀ items source source', Written items source.toList → Written items source'.toList →
      ∃ tokens tokens', tokenize source = .ok tokens ∧ tokenize source' = .ok tokens' ∧
        tokens.map Token.spelled = tokens'.map Token.spelled) ∧
    ∀ source tokens, tokenize source = .ok tokens →
      ∃ items, tokens.map Token.spelled = items ++ [(.eof, "")] ∧ Scans (rejoined tokens) items ∧
        Scans (rejoined tokens.dropLast) items := by
  refine ⟨fun items source written => written.shows.scans, ?_, ?_⟩
  · intro items source source' written written'
    obtain ⟨tokens, place, scanned, same⟩ := written.shows.scans
    obtain ⟨tokens', place', scanned', same'⟩ := written'.shows.scans
    refine ⟨_, _, scanned, scanned', ?_⟩
    rw [List.map_append, List.map_append, same, same']
    rfl
  · intro source tokens scanned
    obtain ⟨parts, laid, -, -, told, -⟩ := source_laid_out source
    rw [← tokenize_eq_ok scanned] at told
    subst told
    obtain ⟨bare, marked⟩ := @written_rejoined _ laid.lexeme ⟨.eof, "", .behind source.toList⟩ rfl
    rw [List.dropLast_concat, List.map_append]
    exact ⟨_, rfl, marked.shows.scans, bare.shows.scans⟩

/-- Quotes in a comment open no string, and slashes in a string open no comment. A space that does not
break lines is white space as well. -/
theorem layout_lost_quotes :
    Scans "print\u00a0// \"\n\"//\"\t// \"" [(.kwPrint, "print"), (.string, "\"//\"")] := by
  have letters : ['r', 'i', 'n', 't'].all Char.isAlpha = true := by decide
  have parts (c : Char) (member : c ∈ ['r', 'i', 'n', 't']) : WordPart c :=
    Or.inl (Or.inl (List.all_eq_true.mp letters c member))
  have isPrint : Lexeme (.token .kwPrint) ['p', 'r', 'i', 'n', 't'] :=
    .reserved ⟨'p', _, rfl, Or.inl (by decide), parts⟩ (by decide)
  have inside : ∀ c ∈ ['/', '/'], Inside c := by simp [Inside]
  have slashes : Lexeme (.token .string) ('"' :: ['/', '/'] ++ ['"']) := .string inside
  have quote : ∀ c ∈ [' ', '"'], c ≠ '\n' := by simp
  have between : Gap ('\u00a0' :: '/' :: '/' :: ([' ', '"'] ++ ['\n'])) :=
    .space (by decide) (.comment quote .nil)
  have behind : Continues [] (['\t'] ++ '/' :: '/' :: [' ', '"']) :=
    .ending (.space (by decide) .nil) (.comment quote)
  have written : Written _ (String.toList "print\u00a0// \"\n\"//\"\t// \"") :=
    .lexeme .nil isPrint (.lexeme between slashes behind)
  exact layout_lost.1 _ _ written

end Lexical

end LoxFrontEnd
