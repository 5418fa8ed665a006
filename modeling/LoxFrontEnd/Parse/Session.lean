import LoxFrontEnd.Parse.Statement

/-!
Parsing sessions. One list of tokens is read by one call after another; each call goes on where
the last one stopped. Errors that were recovered from wait in a queue until a call answers them.
-/

namespace LoxFrontEnd

structure Session where
  input : Input
  queue : List ParseError
  deriving DecidableEq

/-- An answer, the session behind it, and what happened on the way. -/
structure Reply (ρ : Type) where
  result : ρ
  session : Session
  events : List Event

namespace Session

def ofTokens (tokens : List Token) : Session :=
  ⟨⟨tokens, .start⟩, []⟩

/-- A tree that has to be the last thing in the input. -/
def whole {α : Type} (rule : Parse α) : Parse α := do
  let tree ← rule
  Parse.expectEnd
  return tree

/-- Asks for one tree. An error in the queue is answered first, and the tree is dropped then. -/
def single {α : Type} (rule : Parse α) (s : Session) : Reply (Except ParseError α) :=
  let outcome := whole rule s.input
  match s.queue ++ outcome.recovered with
  | [] => ⟨outcome.result, ⟨outcome.rest, []⟩, outcome.events⟩
  | e :: queue => ⟨.error e, ⟨outcome.rest, queue⟩, outcome.events⟩

def expression (s : Session) : Reply (Except ParseError Expr) :=
  s.single (Parse.expression maxNesting)

/-- Asks for one declaration. -/
def statement (s : Session) : Reply (Except ParseError Stmt) :=
  s.single (Parse.declaration maxNesting)

/-- All declarations up to the end of input. -/
def declarations : Parse (List Stmt) :=
  Parse.many (· = .eof) (Parse.recovering .declaration false (Parse.declaration maxNesting))

/-- Asks for all that is left. If there are errors in the queue, they are the answer. -/
def program (s : Session) : Reply (Except (List ParseError) Program) :=
  let outcome := declarations s.input
  let result :=
    match s.queue ++ outcome.recovered with
    | [] => (outcome.result.map Program.mk).mapError ([·])
    | errors => .error errors
  ⟨result, ⟨outcome.rest, []⟩, outcome.events⟩

end Session

/-- What a session can be asked for. -/
inductive Call where
  | program | statement | expression
  deriving DecidableEq, Repr

inductive Answer where
  | program (result : Except (List ParseError) Program)
  | statement (result : Except ParseError Stmt)
  | expression (result : Except ParseError Expr)

namespace Reply

def map {ρ σ : Type} (f : ρ → σ) (reply : Reply ρ) : Reply σ :=
  ⟨f reply.result, reply.session, reply.events⟩

end Reply

namespace Session

def call (s : Session) : Call → Reply Answer
  | .program => s.program.map .program
  | .statement => s.statement.map .statement
  | .expression => s.expression.map .expression

/-- One call after another. -/
def run (s : Session) : List Call → Reply (List Answer)
  | [] => ⟨[], s, []⟩
  | call :: calls =>
    let first := s.call call
    let others := first.session.run calls
    ⟨first.result :: others.result, others.session, first.events ++ others.events⟩

end Session

end LoxFrontEnd
