import LoxFrontEnd.Proofs.Machine.Simulation
import LoxFrontEnd.Proofs.Parse.ErrorOrder

/-!
The queue loses nothing. Over the calls of a session the errors that recovery has caught come out of
the queue one by one, in the order in which they were caught; what has not come out is still in the
queue at the end.
-/

namespace LoxFrontEnd

/-- The errors that an answer consists of. -/
def Answer.errors : Answer → List ParseError
  | .program (.error errors) => errors
  | .statement (.error e) => [e]
  | .expression (.error e) => [e]
  | _ => []

namespace Session

/-- What a call answers from the queue. Where nothing waits, an error in the answer is the own one of
the rule. -/
def takes (s : Session) (call : Call) : List ParseError :=
  if s.queue ++ (s.call call).caught = [] then [] else (s.call call).result.errors

/-- What the calls answer from the queue, one call after another. -/
def fromQueue (s : Session) : List Call → List ParseError
  | [] => []
  | call :: calls => s.takes call ++ (s.call call).session.fromQueue calls

/-- All errors answer a call for a program, and the first one answers a call for one tree. The others
stay. -/
theorem Serves.accounts {input : Input} {waiting behind : List ParseError} {answer : Answer} {call : Call}
    (serves : Serves input waiting answer behind call) :
    (if waiting = [] then [] else answer.errors) ++ behind = waiting := by
  cases serves.answered with
  | program => rfl
  | errors some =>
    rw [if_neg some]
    exact List.append_nil _
  | statement => rfl
  | statementError =>
    rw [if_neg (List.cons_ne_nil _ _)]
    rfl
  | expression => rfl
  | expressionError =>
    rw [if_neg (List.cons_ne_nil _ _)]
    rfl

theorem takes_append_queue (s : Session) (call : Call) :
    s.takes call ++ (s.call call).session.queue = s.queue ++ (s.call call).caught :=
  (s.call_serves call).accounts

theorem run_caught (s : Session) (call : Call) (calls : List Call) :
    (s.run (call :: calls)).caught = (s.call call).caught ++ ((s.call call).session.run calls).caught :=
  List.filterMap_append

/-- The queue only goes through: what comes out, and then what is in it, is what was in it, and then
what was caught. -/
theorem fromQueue_append_queue (s : Session) (calls : List Call) :
    s.fromQueue calls ++ (s.run calls).session.queue = s.queue ++ (s.run calls).caught := by
  induction calls generalizing s with
  | nil => exact (List.append_nil s.queue).symm
  | cons call calls ih =>
    calc s.fromQueue (call :: calls) ++ (s.run (call :: calls)).session.queue
        = s.takes call ++ ((s.call call).session.fromQueue calls ++
            ((s.call call).session.run calls).session.queue) := List.append_assoc ..
      _ = s.takes call ++ ((s.call call).session.queue ++ ((s.call call).session.run calls).caught) := by
        rw [ih]
      _ = s.queue ++ (s.call call).caught ++ ((s.call call).session.run calls).caught := by
          rw [← List.append_assoc, takes_append_queue]
      _ = s.queue ++ (s.run (call :: calls)).caught := by rw [run_caught, List.append_assoc]

/-- Nothing is caught within an expression. -/
theorem expression_caught (s : Session) : (s.call .expression).caught = [] := by
  show (s.single (Parse.expression maxNesting)).caught = []
  rw [single_caught, Outcome.recovered, Parse.silent_expression]
  rfl

end Session

namespace Machine

/-- Over any calls the errors answered from the queue, and then those still in it, are the errors that
recovery has caught, in order. A call for a program empties the queue, and one for a single tree takes
the head of it. No call puts its own error there, and the one for an expression puts nothing there. -/
theorem queue_accounts (tokens : List Token) (calls : List Call) (limit : Nat)
    (within : tokens.length < limit) (deep : maxNesting < limit) :
    let s := Session.ofTokens tokens
    ∃ r, run limit (.ofTokens tokens) calls = some ((s.run calls).result, r) ∧
      s.fromQueue calls ++ r.session.queue = (s.run calls).caught ∧
      ∀ call, ∃ reply r', answer limit r call = some (reply, r') ∧
        Session.Serves r.input (r.session.queue ++ (r.session.call call).caught) reply
          r'.session.queue call ∧
        (call = .expression → (r.session.call call).caught = []) := by
  intro s
  have shorter : (s.run calls).session.input.tokens.length < limit :=
    Nat.lt_of_le_of_lt (s.run_length_le calls) within
  refine ⟨⟨(s.run calls).session, .zero⟩, run_eq calls within deep, s.fromQueue_append_queue calls,
    fun call => ?_⟩
  refine ⟨_, _, answer_eq shorter deep call, Session.call_serves _ call, ?_⟩
  rintro rfl
  exact Session.expression_caught _

/-- Two faults in one block. The first one answers the call for a statement, and the second one stays
in the queue. -/
theorem queue_accounts_faulty_block :
    let tokens : List Token :=
      [⟨.leftBrace, "\x7b", ⟨1, 1⟩⟩, ⟨.rightParen, ")", ⟨1, 3⟩⟩, ⟨.semicolon, ";", ⟨1, 4⟩⟩,
        ⟨.rightParen, ")", ⟨2, 3⟩⟩, ⟨.semicolon, ";", ⟨2, 4⟩⟩, ⟨.rightBrace, "\x7d", ⟨3, 1⟩⟩,
        ⟨.eof, "", ⟨3, 2⟩⟩]
    let first : ParseError := .unexpectedToken .expression (.lexeme ")") ⟨1, 3⟩
    let second : ParseError := .unexpectedToken .expression (.lexeme ")") ⟨2, 3⟩
    tokens.length < 129 ∧ maxNesting < 129 ∧
      ∃ r, run 129 (.ofTokens tokens) [.statement] =
          some (((Session.ofTokens tokens).run [.statement]).result, r) ∧
        first :: r.session.queue = [first, second] := by
  intro tokens first second
  have within : tokens.length < 129 := by decide
  have deep : maxNesting < 129 := by decide
  obtain ⟨r, runs, accounts, -⟩ := queue_accounts tokens [.statement] 129 within deep
  have out : (Session.ofTokens tokens).fromQueue [.statement] = [first] := by decide +kernel
  have caught : ((Session.ofTokens tokens).run [.statement]).caught = [first, second] := by decide +kernel
  rw [out, caught] at accounts
  exact ⟨within, deep, r, runs, accounts⟩

end Machine

end LoxFrontEnd
