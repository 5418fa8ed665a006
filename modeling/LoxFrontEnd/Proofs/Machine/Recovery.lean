import LoxFrontEnd.Proofs.Machine.Queue
import LoxFrontEnd.Proofs.Parse.ClosingBraces
import LoxFrontEnd.Proofs.Parse.Skipping

/-!
Recovery, step by step. The machine goes on token by token to the end of the statement that has gone
wrong. What it skips is determined by the tokens; nothing else changes. Since recovery keeps the brace
that closes a block, only the end of input is ever blamed for a closing brace that is missing.
-/

namespace LoxFrontEnd

namespace Machine

/-- Takes the next token, and tells its kind. Behind the last token nothing is taken. -/
def advance : Machine TokenKind := do
  let token ← takeSome some
  return (token.map Token.kind).getD .eof

/-- One turn of going on: it stops in front of a token that recovery keeps or behind a semicolon, or
takes a token. -/
def synchronizeTurn (again : Unit → Machine Unit) (_ : Unit) : Machine Unit := do
  let kind ← peek
  if kind = .eof then return ()
  if kind = .rightBrace ∧ 0 < (← counts).braces then return ()
  if kind = .semicolon then
    let _ ← advance
    return ()
  if kind.startsStatement then return ()
  let _ ← advance
  again ()

/-- Goes to the end of the statement or to the beginning of the next one. The token at fault is taken,
unless it closes an open block. -/
def synchronize : Machine Unit := do
  if (← peek) = .rightBrace ∧ 0 < (← counts).braces then return ()
  if (← advance) = .semicolon then return ()
  tie synchronizeTurn ()

section Synchronize

variable {limit : Nat} {tokens : List Token} {token : Token} {last : Position}
  {queue : List ParseError} {c : Counts}

theorem counts_eq (r : Registers) : counts limit r = some (.ok r.counts, r) := rfl

theorem advance_nil :
    advance limit ⟨⟨⟨[], last⟩, queue⟩, c⟩ = some (.ok .eof, ⟨⟨⟨[], last⟩, queue⟩, c⟩) := by
  have taken : takeSome some limit ⟨⟨⟨[], last⟩, queue⟩, c⟩ =
      some (.ok none, Registers.after ⟨⟨⟨[], last⟩, queue⟩, c⟩
        ⟨Except.ok (none : Option Token), ⟨[], last⟩, []⟩) := rfl
  rw [advance, bind_of_ok taken, Registers.after]
  simp only [Outcome.recovered, List.filterMap_nil, List.append_nil]
  rfl

theorem advance_cons : advance limit ⟨⟨⟨token :: tokens, last⟩, queue⟩, c⟩ =
    some (.ok token.kind, ⟨⟨⟨tokens, token.position⟩, queue⟩, c⟩) := by
  have taken : takeSome some limit ⟨⟨⟨token :: tokens, last⟩, queue⟩, c⟩ =
      some (.ok (some token), Registers.after ⟨⟨⟨token :: tokens, last⟩, queue⟩, c⟩
        ⟨Except.ok (some token), ⟨tokens, token.position⟩, []⟩) := rfl
  rw [advance, bind_of_ok taken, Registers.after]
  simp only [Outcome.recovered, List.filterMap_nil, List.append_nil]
  rfl

/-- Each turn but the last one takes a token, so there are turns enough where there are more of them
than tokens. -/
theorem synchronizeTurns_eq (turns : Nat) (enough : tokens.length < turns) :
    unrolled synchronizeTurn turns () limit ⟨⟨⟨tokens, last⟩, queue⟩, c⟩ =
      some (.ok (), ⟨⟨Input.skipOn (0 < c.braces) last tokens, queue⟩, c⟩) := by
  induction tokens generalizing turns last with
  | nil =>
    obtain ⟨turns, rfl⟩ := Nat.exists_eq_succ_of_ne_zero (Nat.ne_of_gt enough)
    rw [unrolled, synchronizeTurn, bind_of_ok peek_eq]
    rfl
  | cons token tokens ih =>
    obtain ⟨turns, rfl⟩ := Nat.exists_eq_succ_of_ne_zero (Nat.ne_of_gt (Nat.zero_lt_of_lt enough))
    have fewer : tokens.length < turns := Nat.lt_of_succ_lt_succ enough
    have isNext : Registers.input ⟨⟨⟨token :: tokens, last⟩, queue⟩, c⟩ = ⟨token :: tokens, last⟩ := rfl
    rw [unrolled, synchronizeTurn, bind_of_ok peek_eq, isNext, Input.kind_cons, Input.skipOn]
    by_cases isEnd : token.kind = .eof
    · rw [if_pos isEnd, if_pos (Or.inl isEnd)]
      rfl
    rw [if_neg isEnd, bind_of_ok (counts_eq _)]
    by_cases closes : token.kind = .rightBrace ∧ 0 < c.braces
    · have kept : token.kind = .rightBrace ∧ decide (0 < c.braces) = true :=
        ⟨closes.1, decide_eq_true closes.2⟩
      rw [if_pos closes, if_pos (Or.inr kept)]
      rfl
    have notKept : ¬ (token.kind = .eof ∨ token.kind = .rightBrace ∧ decide (0 < c.braces) = true) := by
      simpa [isEnd] using closes
    rw [if_neg closes, if_neg notKept]
    by_cases isSemicolon : token.kind = .semicolon
    · rw [if_pos isSemicolon, if_pos isSemicolon, bind_of_ok advance_cons]
      rfl
    rw [if_neg isSemicolon, if_neg isSemicolon]
    by_cases starts : token.kind.startsStatement = true
    · rw [if_pos starts, if_pos starts]
      rfl
    · rw [if_neg starts, if_neg starts, bind_of_ok advance_cons]
      exact ih turns fewer

theorem synchronize_eq (r : Registers) (within : r.input.tokens.length < limit) :
    synchronize limit r =
      some (.ok (), ⟨⟨r.input.skip (0 < r.counts.braces), r.session.queue⟩, r.counts⟩) := by
  obtain ⟨⟨⟨tokens, last⟩, queue⟩, c⟩ := r
  have isNext : Registers.input ⟨⟨⟨tokens, last⟩, queue⟩, c⟩ = ⟨tokens, last⟩ := rfl
  rw [synchronize, bind_of_ok peek_eq, bind_of_ok (counts_eq _), isNext]
  cases tokens with
  | nil =>
    have closes : ¬ (Input.kind ⟨[], last⟩ = .rightBrace ∧ 0 < c.braces) := nofun
    rw [if_neg closes, bind_of_ok advance_nil, if_neg (by decide)]
    exact synchronizeTurns_eq limit within
  | cons token tokens =>
    rw [Input.kind_cons, Input.skip_cons]
    by_cases closes : token.kind = .rightBrace ∧ 0 < c.braces
    · have kept : token.kind = .rightBrace ∧ decide (0 < c.braces) = true :=
        ⟨closes.1, decide_eq_true closes.2⟩
      rw [if_pos closes, if_pos kept]
      rfl
    have notKept : ¬ (token.kind = .rightBrace ∧ decide (0 < c.braces) = true) := by simpa using closes
    rw [if_neg closes, if_neg notKept, bind_of_ok advance_cons]
    by_cases isSemicolon : token.kind = .semicolon
    · rw [if_pos isSemicolon, if_pos isSemicolon]
      rfl
    · rw [if_neg isSemicolon, if_neg isSemicolon]
      exact synchronizeTurns_eq limit (Nat.lt_of_succ_lt within)

/-- Recovery puts the error into the queue, and goes on to the end of the statement. -/
theorem recovering_of_error {α : Type} {m : Machine α} {e : ParseError} {r r' : Registers}
    (run : m limit r = some (.error e, r')) (within : r'.input.tokens.length < limit) :
    recovering m limit r =
      (do synchronize; return none : Machine (Option α)) limit
        ⟨⟨r'.input, r'.session.queue ++ [e]⟩, r'.counts⟩ := by
  have goes := synchronize_eq ⟨⟨r'.input, r'.session.queue ++ [e]⟩, r'.counts⟩ within
  rw [recovering, run, bind_of_ok goes]
  rfl

end Synchronize

end Machine

namespace Session

open Parse

variable {α : Type} {s : Session}

/-- One tree is answered for with an error that waits, or with the error of the rule itself. -/
theorem TakesHead.closesAtEnd {own result : Except ParseError α} {waiting behind : List ParseError}
    (takes : TakesHead own waiting result behind) (rule : ∀ e, own = .error e → e.ClosesAtEnd)
    (waits : ∀ e ∈ waiting, e.ClosesAtEnd) :
    (∀ e, result = .error e → e.ClosesAtEnd) ∧ ∀ e ∈ behind, e.ClosesAtEnd := by
  cases takes with
  | own => exact ⟨rule, waits⟩
  | @head e queue =>
    refine ⟨fun e' same => ?_, fun e' member => waits e' (List.mem_cons_of_mem e member)⟩
    cases same
    exact waits e List.mem_cons_self

theorem Drains.closesAtEnd {result : Except (List ParseError) Program} {waiting behind : List ParseError}
    (drains : Drains waiting result behind) (waits : ∀ e ∈ waiting, e.ClosesAtEnd) :
    (∀ errors, result = .error errors → ∀ e ∈ errors, e.ClosesAtEnd) ∧ ∀ e ∈ behind, e.ClosesAtEnd := by
  cases drains with
  | tree => exact ⟨nofun, waits⟩
  | errors =>
    refine ⟨fun errors same => ?_, fun _ member => absurd member List.not_mem_nil⟩
    cases same
    exact waits

theorem single_closesAtEnd {p : Parse α} (closes : Parse.ClosesAtEnd p)
    (waits : ∀ e ∈ s.queue, e.ClosesAtEnd) :
    (∀ e ∈ (s.single p).caught, e.ClosesAtEnd) ∧ (∀ e, (s.single p).result = .error e → e.ClosesAtEnd) ∧
      ∀ e ∈ (s.single p).session.queue, e.ClosesAtEnd := by
  have caught : ∀ e ∈ (s.single p).caught, e.ClosesAtEnd := by
    rw [single_caught]
    exact closes.recovered s.input
  have waiting : ∀ e ∈ s.queue ++ (s.single p).caught, e.ClosesAtEnd :=
    List.forall_mem_append.mpr ⟨waits, caught⟩
  exact ⟨caught, (s.single_takesHead p).closesAtEnd (closes.whole.result s.input) waiting⟩

theorem program_closesAtEnd (waits : ∀ e ∈ s.queue, e.ClosesAtEnd) :
    (∀ e ∈ s.program.caught, e.ClosesAtEnd) ∧
      (∀ errors, s.program.result = .error errors → ∀ e ∈ errors, e.ClosesAtEnd) ∧
        ∀ e ∈ s.program.session.queue, e.ClosesAtEnd := by
  have caught : ∀ e ∈ s.program.caught, e.ClosesAtEnd := closesAtEnd_declarations.recovered s.input
  have waiting : ∀ e ∈ s.queue ++ s.program.caught, e.ClosesAtEnd :=
    List.forall_mem_append.mpr ⟨waits, caught⟩
  exact ⟨caught, s.program_drains.closesAtEnd waiting⟩

/-- Whatever a call catches, answers and leaves in the queue. -/
theorem call_closesAtEnd (call : Call) (waits : ∀ e ∈ s.queue, e.ClosesAtEnd) :
    (∀ e ∈ (s.call call).caught, e.ClosesAtEnd) ∧ (∀ e ∈ (s.call call).result.errors, e.ClosesAtEnd) ∧
      ∀ e ∈ (s.call call).session.queue, e.ClosesAtEnd := by
  cases call with
  | program =>
    obtain ⟨caught, answered, left⟩ := program_closesAtEnd waits
    refine ⟨caught, ?_, left⟩
    show ∀ e ∈ (Answer.program s.program.result).errors, e.ClosesAtEnd
    cases result : s.program.result with
    | ok p => exact fun _ member => absurd member List.not_mem_nil
    | error errors => exact answered errors result
  | statement =>
    obtain ⟨caught, answered, left⟩ := single_closesAtEnd (closesAtEnd_declaration maxNesting) waits
    refine ⟨caught, ?_, left⟩
    show ∀ e ∈ (Answer.statement s.statement.result).errors, e.ClosesAtEnd
    cases result : s.statement.result with
    | ok tree => exact fun _ member => absurd member List.not_mem_nil
    | error e => exact List.forall_mem_singleton.mpr (answered e result)
  | expression =>
    obtain ⟨caught, answered, left⟩ := single_closesAtEnd (closesAtEnd_expression maxNesting) waits
    refine ⟨caught, ?_, left⟩
    show ∀ e ∈ (Answer.expression s.expression.result).errors, e.ClosesAtEnd
    cases result : s.expression.result with
    | ok tree => exact fun _ member => absurd member List.not_mem_nil
    | error e => exact List.forall_mem_singleton.mpr (answered e result)

/-- Call after call, no closing brace is missed but at the end of input. -/
theorem run_closesAtEnd (calls : List Call) (waits : ∀ e ∈ s.queue, e.ClosesAtEnd) :
    (∀ e ∈ (s.run calls).caught, e.ClosesAtEnd) ∧
      ∀ answer ∈ (s.run calls).result, ∀ e ∈ answer.errors, e.ClosesAtEnd := by
  induction calls generalizing s with
  | nil =>
    exact ⟨fun _ member => absurd member List.not_mem_nil, fun _ member => absurd member List.not_mem_nil⟩
  | cons call calls ih =>
    obtain ⟨caught, answered, left⟩ := call_closesAtEnd call waits
    obtain ⟨caught', answered'⟩ := ih left
    refine ⟨fun e member => ?_, List.forall_mem_cons.mpr ⟨answered, answered'⟩⟩
    rw [run_caught] at member
    exact (List.mem_append.mp member).elim (caught e) (caught' e)

end Session

namespace Machine

/-- From any registers, recovery skips a part of the tokens that the tokens and the open braces
determine, takes note of the place of the last token skipped, and changes nothing else; this is what
every rule that recovers does behind its error. Over any calls on any tokens, the errors that are
caught or answered find the end of input where they ask for the brace that closes a block or a class
body. -/
theorem recovery_discards (r : Registers) (limit : Nat) (within : r.input.tokens.length < limit) :
    (∃ skipped left, r.input.tokens = skipped ++ left ∧ Skips (0 < r.counts.braces) skipped left ∧
      r.input.skip (0 < r.counts.braces) = ⟨left, placeAfter r.input.last skipped⟩ ∧
      synchronize limit r =
        some (.ok (), ⟨⟨⟨left, placeAfter r.input.last skipped⟩, r.session.queue⟩, r.counts⟩) ∧
      ∀ skipped' left', r.input.tokens = skipped' ++ left' → Skips (0 < r.counts.braces) skipped' left' →
        skipped' = skipped) ∧
    (∀ (α : Type) (m : Machine α) (e : ParseError) (r₀ : Registers), m limit r₀ = some (.error e, r) →
      recovering m limit r₀ =
        (do synchronize; return none : Machine (Option α)) limit
          ⟨⟨r.input, r.session.queue ++ [e]⟩, r.counts⟩) ∧
    ∀ (tokens : List Token) (calls : List Call), let reply := (Session.ofTokens tokens).run calls
      ∀ e, e ∈ reply.caught ∨ (∃ answer ∈ reply.result, e ∈ answer.errors) → ∀ expected found position,
        e = .unexpectedToken expected found position →
        expected = .braceAfterBlock ∨ expected = .braceAfterClassBody → found = .endOfInput := by
  refine ⟨?_, fun _ _ _ _ run => recovering_of_error run within, ?_⟩
  · obtain ⟨skipped, left, front, skips, run⟩ := r.input.skip_skips (0 < r.counts.braces)
    refine ⟨skipped, left, front, skips, run, ?_, fun skipped' left' front' skips' => ?_⟩
    · rw [synchronize_eq r within, run]
    · exact (skips'.unique skips (front'.symm.trans front)).1
  · rintro tokens calls reply e told expected found position rfl closes
    have none : ∀ e ∈ (Session.ofTokens tokens).queue, e.ClosesAtEnd :=
      fun _ member => absurd member List.not_mem_nil
    obtain ⟨caught, answered⟩ := Session.run_closesAtEnd calls none
    have atEnd : ParseError.ClosesAtEnd (.unexpectedToken expected found position) := by
      rcases told with isCaught | ⟨answer, among, isAnswered⟩
      · exact caught _ isCaught
      · exact answered answer among _ isAnswered
    rcases closes with rfl | rfl
    · exact atEnd rfl
    · exact atEnd rfl

/-- Behind an error within a block, an end mark and a name behind it are skipped. The brace behind
them is kept where it closes the block, and so is a keyword that begins a statement. -/
theorem recovery_discards_mark :
    let mark : Token := ⟨.eof, "", ⟨1, 1⟩⟩
    let name : Token := ⟨.identifier, "x", ⟨1, 3⟩⟩
    let brace : Token := ⟨.rightBrace, "\x7d", ⟨1, 5⟩⟩
    let keyword : Token := ⟨.kwPrint, "print", ⟨1, 5⟩⟩
    let r (left : List Token) : Registers := ⟨⟨⟨mark :: name :: left, ⟨1, 0⟩⟩, []⟩, ⟨1, 0⟩⟩
    ((r [brace]).input.tokens.length < 129 ∧ Skips true [mark, name] [brace] ∧
      synchronize 129 (r [brace]) = some (.ok (), ⟨⟨⟨[brace], ⟨1, 3⟩⟩, []⟩, ⟨1, 0⟩⟩)) ∧
    (r [keyword, brace]).input.tokens.length < 129 ∧ Skips true [mark, name] [keyword, brace] ∧
      synchronize 129 (r [keyword, brace]) = some (.ok (), ⟨⟨⟨[keyword, brace], ⟨1, 3⟩⟩, []⟩, ⟨1, 0⟩⟩) := by
  intro mark name brace keyword r
  have stops (stop : Token) (others : List Token) (within : (r (stop :: others)).input.tokens.length < 129)
      (halts : stop.kind.Halts true) : Skips true [mark, name] (stop :: others) ∧
        synchronize 129 (r (stop :: others)) = some (.ok (), ⟨⟨⟨stop :: others, ⟨1, 3⟩⟩, []⟩, ⟨1, 0⟩⟩) := by
    have ends : SkipsToEnd true [] (stop :: others) := .of_halts halts
    have skipsToEnd : SkipsToEnd true [mark, name] (stop :: others) :=
      (ends.cons (by decide)).cons (by decide)
    have skips : Skips true [mark, name] (stop :: others) :=
      .of_first (by decide) skipsToEnd (List.forall_mem_singleton.mpr (by decide))
    obtain ⟨⟨skipped, left, front, -, -, run, only⟩, -, -⟩ :=
      recovery_discards (r (stop :: others)) 129 within
    obtain rfl : skipped = [mark, name] := (only [mark, name] (stop :: others) rfl skips).symm
    have front' : [mark, name] ++ stop :: others = [mark, name] ++ left := front
    obtain rfl : stop :: others = left := List.append_cancel_left front'
    exact ⟨skips, run⟩
  have atBrace : (r [brace]).input.tokens.length < 129 := by decide
  have atKeyword : (r [keyword, brace]).input.tokens.length < 129 := by decide
  exact ⟨⟨atBrace, stops brace [] atBrace (by decide)⟩, atKeyword,
    stops keyword [brace] atKeyword (by decide)⟩

end Machine

end LoxFrontEnd
