import Mathlib.Data.List.Forall2
import LoxFrontEnd.Proofs.Parse.Calls
import LoxFrontEnd.Proofs.Parse.Relabelling
import LoxFrontEnd.Proofs.Tree.Labels

/-!
Parsing goes by kinds alone. On two lists of tokens of the same kinds every call of a session takes as
many tokens and gives an answer of the same shape, with each label and each error taken from tokens at
one index of both lists. For both lists are relabellings of a third one, in which the text and the
place of a token tell its index.
-/

namespace LoxFrontEnd

section Sessions

variable (ρ : Relabelling)

def Answer.relabel : Answer → Answer
  | .program result =>
    .program ((result.map (Program.relabel ρ)).mapError (List.map (ParseError.relabel ρ)))
  | .statement result => .statement ((result.map (Stmt.relabel ρ)).mapError (ParseError.relabel ρ))
  | .expression result => .expression ((result.map (Expr.relabel ρ)).mapError (ParseError.relabel ρ))

namespace Session

open Parse

/-- The same session with other labels on its tokens and its errors. -/
structure AlikeUnder (s s' : Session) : Prop where
  input : Parse.Relabelled ρ s.input s'.input
  queue : s'.queue = s.queue.map (ParseError.relabel ρ)

variable {ρ} {α : Type} {f : α → α} {p : Parse α} {s s' : Session}

theorem relabels_expectEnd : Relabels ρ id expectEnd expectEnd := by
  refine relabels_peek.then fun kind => ?_
  split
  · exact relabels_pure rfl
  · exact relabels_unexpected _

theorem relabels_whole (rule : Relabels ρ f p p) : Relabels ρ f (whole p) (whole p) :=
  rule.bind fun _ => relabels_expectEnd.then fun _ => relabels_pure rfl

/-- The errors that wait are the same with other labels. -/
theorem AlikeUnder.waiting (same : AlikeUnder ρ s s') (events : List Event) :
    s'.queue ++ (events.map (Event.relabel ρ)).filterMap Event.error? =
      (s.queue ++ events.filterMap Event.error?).map (ParseError.relabel ρ) := by
  rw [same.queue, recovered_relabel, List.map_append]

theorem relabelled_single (rule : Relabels ρ f p p) (same : AlikeUnder ρ s s') :
    (s'.single p).result = (((s.single p).result).map f).mapError (ParseError.relabel ρ) ∧
      AlikeUnder ρ (s.single p).session (s'.single p).session := by
  obtain ⟨result, rest, rest', events, left, run, run'⟩ := relabels_whole rule s.input s'.input same.input
  rw [single, single, run, run']
  simp only [Outcome.recovered, same.waiting]
  cases s.queue ++ events.filterMap Event.error? with
  | nil => exact ⟨rfl, left, rfl⟩
  | cons e queue => exact ⟨rfl, left, rfl⟩

theorem relabelled_program (same : AlikeUnder ρ s s') :
    Answer.program s'.program.result = (Answer.program s.program.result).relabel ρ ∧
      AlikeUnder ρ s.program.session s'.program.session := by
  obtain ⟨result, rest, rest', events, left, run, run'⟩ := relabels_declarations s.input s'.input same.input
  rw [program, program, run, run']
  simp only [Outcome.recovered, same.waiting]
  refine ⟨congrArg Answer.program ?_, left, rfl⟩
  cases s.queue ++ events.filterMap Event.error? with
  | nil => cases result <;> rfl
  | cons e queue => rfl

/-- A call does the same with other labels. -/
theorem relabelled_call (same : AlikeUnder ρ s s') (call : Call) :
    (s'.call call).result = (s.call call).result.relabel ρ ∧
      AlikeUnder ρ (s.call call).session (s'.call call).session := by
  cases call with
  | program => exact relabelled_program same
  | statement =>
    obtain ⟨result, session⟩ := relabelled_single (relabels_declaration maxNesting) same
    exact ⟨congrArg Answer.statement result, session⟩
  | expression =>
    obtain ⟨result, session⟩ := relabelled_single (relabels_expression maxNesting) same
    exact ⟨congrArg Answer.expression result, session⟩

theorem relabelled_run (same : AlikeUnder ρ s s') (calls : List Call) :
    (s'.run calls).result = (s.run calls).result.map (Answer.relabel ρ) ∧
      AlikeUnder ρ (s.run calls).session (s'.run calls).session := by
  induction calls generalizing s s' with
  | nil => exact ⟨rfl, same⟩
  | cons call calls ih =>
    obtain ⟨first, onward⟩ := relabelled_call same call
    obtain ⟨others, session⟩ := ih onward
    refine ⟨?_, session⟩
    show (s'.call call).result :: _ = _
    rw [first, others]
    rfl

end Session

end Sessions

/-- The tokens at one index of two lists. -/
def AtOneIndex (tokens tokens' : List Token) (token token' : Token) : Prop :=
  ∃ i : Nat, tokens[i]? = some token ∧ tokens'[i]? = some token'

section Corresponds

variable (tokens tokens' : List Token)

/-- Two labels that come from the text or the line of tokens at one index. -/
inductive Label.Corresponds : Label → Label → Prop
  | name {token token' : Token} : AtOneIndex tokens tokens' token token' →
      Corresponds (.name token.lexeme) (.name token'.lexeme)
  | content {token token' : Token} : AtOneIndex tokens tokens' token token' →
      Corresponds (.content (unquote token.lexeme)) (.content (unquote token'.lexeme))
  | line {token token' : Token} : AtOneIndex tokens tokens' token token' →
      Corresponds (.line token.position.line) (.line token'.position.line)

inductive Found.Corresponds : Found → Found → Prop
  | lexeme {token token' : Token} : AtOneIndex tokens tokens' token token' →
      Corresponds (.lexeme token.lexeme) (.lexeme token'.lexeme)
  | endOfInput : Corresponds .endOfInput .endOfInput

/-- Two errors of one sort that are placed at tokens at one index, and expect the same there. -/
inductive ParseError.Corresponds : ParseError → ParseError → Prop
  | unexpectedToken {expected : Expected} {found found' : Found} {token token' : Token} :
      found.Corresponds tokens tokens' found' → AtOneIndex tokens tokens' token token' →
      Corresponds (.unexpectedToken expected found token.position)
        (.unexpectedToken expected found' token'.position)
  | invalidAssignmentTarget {token token' : Token} : AtOneIndex tokens tokens' token token' →
      Corresponds (.invalidAssignmentTarget token.position) (.invalidAssignmentTarget token'.position)

/-- Two answers to one call: trees of one shape whose labels correspond one by one, or errors that do. -/
inductive Answer.Corresponds : Answer → Answer → Prop
  | program {p p' : Program} : p.shape = p'.shape →
      List.Forall₂ (Label.Corresponds tokens tokens') p.labels p'.labels →
      Corresponds (.program (.ok p)) (.program (.ok p'))
  | programErrors {errors errors' : List ParseError} :
      List.Forall₂ (ParseError.Corresponds tokens tokens') errors errors' →
      Corresponds (.program (.error errors)) (.program (.error errors'))
  | statement {s s' : Stmt} : s.shape = s'.shape →
      List.Forall₂ (Label.Corresponds tokens tokens') s.labels s'.labels →
      Corresponds (.statement (.ok s)) (.statement (.ok s'))
  | statementError {e e' : ParseError} : e.Corresponds tokens tokens' e' →
      Corresponds (.statement (.error e)) (.statement (.error e'))
  | expression {e e' : Expr} : e.shape = e'.shape →
      List.Forall₂ (Label.Corresponds tokens tokens') e.labels e'.labels →
      Corresponds (.expression (.ok e)) (.expression (.ok e'))
  | expressionError {e e' : ParseError} : e.Corresponds tokens tokens' e' →
      Corresponds (.expression (.error e)) (.expression (.error e'))

end Corresponds

section Numbering

/-- A text of so many strokes. -/
def strokes (count : Nat) : String := String.ofList (List.replicate count '|')

theorem length_unquote_strokes (count : Nat) : (unquote (strokes count)).length = count := by
  have same : unquote (strokes count) = strokes count := by
    rw [unquote, strokes, String.toList_ofList]
    cases count <;> rfl
  rw [same, strokes, String.length_ofList, List.length_replicate]

/-- Tokens of these kinds whose texts and places tell their index. -/
def numbered (kinds : List TokenKind) : List Token := kinds.mapIdx fun i kind => ⟨kind, strokes i, ⟨i, 0⟩⟩

/-- The token with this number. Numbers that no token has stand for the first one. -/
def tokenAt (first : Token) (tokens : List Token) (i : Nat) : Token := (first :: tokens)[i]?.getD first

variable {first first' : Token} {tokens tokens' : List Token}

/-- Text and place of the token with the number that a text and a place tell. -/
def Relabelling.ofTokens (first : Token) (tokens : List Token) : Relabelling where
  lexeme text := (tokenAt first tokens (unquote text).length).lexeme
  inner text := unquote (tokenAt first tokens text.length).lexeme
  place p := (tokenAt first tokens p.line).position
  line n := (tokenAt first tokens n).position.line
  unquote_lexeme _ := rfl
  place_line _ := rfl

theorem getElem?_tokenAt {i : Nat} (short : i < (first :: tokens).length) :
    (first :: tokens)[i]? = some (tokenAt first tokens i) := by
  rw [tokenAt, List.getElem?_eq_getElem short]
  rfl

theorem tokenAt_behind {i : Nat} (long : ¬ i < (first :: tokens).length) :
    tokenAt first tokens i = first := by
  rw [tokenAt, List.getElem?_eq_none (Nat.le_of_not_lt long)]
  rfl

/-- Whatever a number stands for, it stands for tokens at one index of two lists that are as long. -/
theorem atOneIndex_tokenAt (same : tokens.length = tokens'.length) (i : Nat) :
    AtOneIndex (first :: tokens) (first' :: tokens') (tokenAt first tokens i)
      (tokenAt first' tokens' i) := by
  have lengths : (first :: tokens).length = (first' :: tokens').length := congrArg Nat.succ same
  by_cases short : i < (first :: tokens).length
  · exact ⟨i, getElem?_tokenAt short, getElem?_tokenAt (lengths ▸ short)⟩
  · rw [tokenAt_behind short, tokenAt_behind (lengths ▸ short)]
    exact ⟨0, rfl, rfl⟩

theorem numbered_relabel (first : Token) (tokens : List Token) :
    (numbered ((first :: tokens).map Token.kind)).map (Token.relabel (.ofTokens first tokens)) =
      first :: tokens := by
  refine List.ext_getElem? fun i => ?_
  by_cases short : i < (first :: tokens).length
  · have kind : ((first :: tokens).map Token.kind)[i]? = some (tokenAt first tokens i).kind := by
      rw [List.getElem?_map, getElem?_tokenAt short]
      rfl
    have text : (Relabelling.ofTokens first tokens).lexeme (strokes i) = (tokenAt first tokens i).lexeme :=
      congrArg (fun count => (tokenAt first tokens count).lexeme) (length_unquote_strokes i)
    rw [numbered, List.getElem?_map, List.getElem?_mapIdx, kind, getElem?_tokenAt short]
    simp only [Option.map_some, Token.relabel, text]
    rfl
  · have long := Nat.le_of_not_lt short
    rw [List.getElem?_eq_none long, List.getElem?_eq_none (by simpa [numbered] using long)]

end Numbering

section Numbers

variable {first first' : Token} {tokens tokens' : List Token} (same : tokens.length = tokens'.length)
include same

theorem Label.relabel_corresponds (l : Label) :
    (l.relabel (.ofTokens first tokens)).Corresponds (first :: tokens) (first' :: tokens')
      (l.relabel (.ofTokens first' tokens')) := by
  cases l with
  | name text => exact .name (atOneIndex_tokenAt same _)
  | content text => exact .content (atOneIndex_tokenAt same _)
  | line n => exact .line (atOneIndex_tokenAt same _)

theorem ParseError.relabel_corresponds (e : ParseError) :
    (e.relabel (.ofTokens first tokens)).Corresponds (first :: tokens) (first' :: tokens')
      (e.relabel (.ofTokens first' tokens')) := by
  cases e with
  | unexpectedToken expected found position =>
    refine .unexpectedToken ?_ (atOneIndex_tokenAt same _)
    cases found with
    | lexeme text => exact .lexeme (atOneIndex_tokenAt same _)
    | endOfInput => exact .endOfInput
  | invalidAssignmentTarget position => exact .invalidAssignmentTarget (atOneIndex_tokenAt same _)

omit same in
theorem forall₂_map_map {α β : Type} {R : β → β → Prop} {f g : α → β} (related : ∀ a, R (f a) (g a))
    (as : List α) :
    List.Forall₂ R (as.map f) (as.map g) := by
  rw [List.forall₂_map_left_iff, List.forall₂_map_right_iff, List.forall₂_same]
  exact fun a _ => related a

theorem Answer.relabel_corresponds (answer : Answer) :
    (answer.relabel (.ofTokens first tokens)).Corresponds (first :: tokens) (first' :: tokens')
      (answer.relabel (.ofTokens first' tokens')) := by
  have labels (ls : List Label) : List.Forall₂ (Label.Corresponds (first :: tokens) (first' :: tokens'))
      (ls.map (Label.relabel (.ofTokens first tokens)))
      (ls.map (Label.relabel (.ofTokens first' tokens'))) :=
    forall₂_map_map (Label.relabel_corresponds same) ls
  match answer with
  | .program (.ok p) =>
    refine .program ((p.shape_relabel _).trans (p.shape_relabel _).symm) ?_
    rw [p.labels_relabel, p.labels_relabel]
    exact labels _
  | .program (.error errors) =>
    exact .programErrors (forall₂_map_map (ParseError.relabel_corresponds same) errors)
  | .statement (.ok s) =>
    refine .statement ((s.shape_relabel _).trans (s.shape_relabel _).symm) ?_
    rw [s.labels_relabel, s.labels_relabel]
    exact labels _
  | .statement (.error e) => exact .statementError (e.relabel_corresponds same)
  | .expression (.ok e) =>
    refine .expression ((e.shape_relabel _).trans (e.shape_relabel _).symm) ?_
    rw [e.labels_relabel, e.labels_relabel]
    exact labels _
  | .expression (.error e) => exact .expressionError (e.relabel_corresponds same)

end Numbers

namespace Session

/-- A session over a list of tokens is one over the numbered tokens of its kinds, with the labels put in. -/
theorem relabelled_numbered (first : Token) (tokens : List Token) :
    AlikeUnder (.ofTokens first tokens) (ofTokens (numbered ((first :: tokens).map Token.kind)))
      (ofTokens (first :: tokens)) where
  input := ⟨(numbered_relabel first tokens).symm, fun none => by simp [ofTokens, numbered] at none⟩
  queue := rfl

theorem run_drop (tokens : List Token) (calls : List Call) :
    ((ofTokens tokens).run calls).session.input.tokens =
      tokens.drop (tokens.length - ((ofTokens tokens).run calls).session.input.tokens.length) := by
  obtain ⟨taken, front, -⟩ := (ofTokens tokens).run_forward calls
  generalize ((ofTokens tokens).run calls).session.input.tokens = rest at front
  replace front : tokens = taken ++ rest := front
  rw [front, List.length_append, Nat.add_sub_cancel, List.drop_left]

/-- Parsing goes by kinds alone. On lists of tokens of the same kinds, in the same order and with the
same values, the answers to all calls correspond, and any number of calls takes as many tokens from
both. -/
theorem kinds_alone {tokens tokens' : List Token} (nonempty : tokens ≠ [])
    (kinds : tokens.map Token.kind = tokens'.map Token.kind) (calls : List Call) :
    List.Forall₂ (Answer.Corresponds tokens tokens') ((ofTokens tokens).run calls).result
      ((ofTokens tokens').run calls).result ∧
    ∀ i, ∃ count, ((ofTokens tokens).run (calls.take i)).session.input.tokens = tokens.drop count ∧
      ((ofTokens tokens').run (calls.take i)).session.input.tokens = tokens'.drop count := by
  have lengths : tokens.length = tokens'.length := by
    rw [← List.length_map Token.kind, kinds, List.length_map]
  obtain ⟨first, tokens, rfl⟩ := List.exists_cons_of_ne_nil nonempty
  obtain ⟨first', tokens', rfl⟩ : ∃ first' rest, tokens' = first' :: rest :=
    List.exists_cons_of_length_pos (lengths ▸ Nat.succ_pos _)
  -- Both lists are the numbered one with labels put in, so each run over them is the run over that one.
  have left := relabelled_numbered first tokens
  have right := relabelled_numbered first' tokens'
  rw [← kinds] at right
  constructor
  · rw [(relabelled_run left calls).1, (relabelled_run right calls).1]
    exact forall₂_map_map (Answer.relabel_corresponds (Nat.succ.inj lengths)) _
  · intro i
    have rests := (relabelled_run left (calls.take i)).2.input.length.trans
      (relabelled_run right (calls.take i)).2.input.length.symm
    refine ⟨_, run_drop _ (calls.take i), ?_⟩
    rw [rests, lengths]
    exact run_drop _ (calls.take i)

/-- An assignment that misses its semicolon, written on one line and on three. It is no statement, and
all of it is taken before the semicolon is missed; it is an expression. -/
theorem kinds_alone_on_three_lines :
    let tokens : List Token :=
      [⟨.identifier, "a", ⟨1, 1⟩⟩, ⟨.equal, "=", ⟨1, 3⟩⟩, ⟨.string, "\"b\"", ⟨1, 5⟩⟩,
        ⟨.eof, "", ⟨1, 8⟩⟩]
    let tokens' : List Token :=
      [⟨.identifier, "first", ⟨1, 1⟩⟩, ⟨.equal, "=", ⟨2, 1⟩⟩, ⟨.string, "\"\"", ⟨3, 1⟩⟩,
        ⟨.eof, "", ⟨3, 3⟩⟩]
    let refused (place : Position) : List Answer :=
      [.statement (.error (.unexpectedToken .semicolonAfterExpression .endOfInput place)),
        .program (.ok ⟨[]⟩)]
    let assigned (name text : String) : List Answer :=
      [.expression (.ok (.assign name (.literal (.string text))))]
    tokens ≠ [] ∧ tokens.map Token.kind = tokens'.map Token.kind ∧
      List.Forall₂ (Answer.Corresponds tokens tokens') ((ofTokens tokens).run [.statement, .program]).result
        ((ofTokens tokens').run [.statement, .program]).result ∧
      ((ofTokens tokens).run [.statement, .program]).result = refused ⟨1, 8⟩ ∧
      ((ofTokens tokens').run [.statement, .program]).result = refused ⟨3, 3⟩ ∧
      ((ofTokens tokens).run [.statement]).session.input.tokens = tokens.drop 3 ∧
      ((ofTokens tokens').run [.statement]).session.input.tokens = tokens'.drop 3 ∧
      List.Forall₂ (Answer.Corresponds tokens tokens') (assigned "a" "b") (assigned "first" "") := by
  intro tokens tokens' refused assigned
  have nonempty : tokens ≠ [] := List.cons_ne_nil _ _
  have kinds : tokens.map Token.kind = tokens'.map Token.kind := rfl
  have answers := (kinds_alone nonempty kinds [.statement, .program]).1
  have trees := (kinds_alone nonempty kinds [.expression]).1
  obtain ⟨⟨refuses, refuses'⟩, reads, reads'⟩ :
      (((ofTokens tokens).run [.statement, .program]).result = refused ⟨1, 8⟩ ∧
        ((ofTokens tokens').run [.statement, .program]).result = refused ⟨3, 3⟩) ∧
      ((ofTokens tokens).run [.expression]).result = assigned "a" "b" ∧
      ((ofTokens tokens').run [.expression]).result = assigned "first" "" := by
    cbv
    exact ⟨⟨rfl, rfl⟩, rfl, rfl⟩
  rw [reads, reads'] at trees
  exact ⟨nonempty, kinds, answers, refuses, refuses', by decide +kernel, by decide +kernel, trees⟩

end Session

end LoxFrontEnd
