import LoxFrontEnd.Proofs.Parse.Items

/-!
Calls of a session. Every call goes forward in the tokens, and the one for a program goes to the end
of input.
-/

namespace LoxFrontEnd

namespace Parse

variable {α : Type}

/-- Asking for the end takes no token and tells nothing. -/
theorem expectEnd_stays (a : α) (input : Input) :
    ∃ result, (do expectEnd; return a : Parse α) input = ⟨result, input, []⟩ := by
  have peeked : peek input = ⟨.ok input.kind, input, []⟩ := rfl
  rw [expectEnd, bind_assoc, bind_of_ok peeked]
  split
  · exact ⟨.ok a, rfl⟩
  · exact ⟨.error (input.unexpected .endOfInput), rfl⟩

theorem forward_declarations : Forward Session.declarations :=
  forward_sequential.many ((forward_declaration maxNesting).recovering .declaration false) _

/-- The declarations of a program are items, up to the end of input. -/
theorem items_declarations (input : Input) : ∃ ss rest events,
    Items (· = .eof) (recovering .declaration false (declaration maxNesting)) input ss rest events :=
  ends_input.items (takes_declaration _) (forward_declaration _) .declaration input

end Parse

/-- The errors that were recovered from on the way to an answer, in order. -/
def Reply.caught {ρ : Type} (reply : Reply ρ) : List ParseError := reply.events.filterMap Event.error?

namespace Session

open Parse

variable {α : Type}

theorem whole_of_error {p : Parse α} {input rest : Input} {e : ParseError} {events : List Event}
    (run : p input = ⟨.error e, rest, events⟩) : whole p input = ⟨.error e, rest, events⟩ :=
  bind_of_error run

theorem whole_of_ok {p : Parse α} {input rest : Input} {a : α} {events : List Event}
    (run : p input = ⟨.ok a, rest, events⟩) :
    whole p input = ((do expectEnd; return a : Parse α) rest).behind events := bind_of_ok run

theorem whole_rest (p : Parse α) (input : Input) : (whole p input).rest = (p input).rest := by
  rcases run : p input with ⟨e | a, rest, events⟩
  · rw [whole_of_error run]
  · obtain ⟨result, asked⟩ := expectEnd_stays a rest
    rw [whole_of_ok run, asked]
    rfl

theorem whole_recovered (p : Parse α) (input : Input) :
    (whole p input).recovered = (p input).recovered := by
  rcases run : p input with ⟨e | a, rest, events⟩
  · rw [whole_of_error run]
  · obtain ⟨result, asked⟩ := expectEnd_stays a rest
    rw [whole_of_ok run, asked, Outcome.recovered, Outcome.behind, List.append_nil]
    rfl

theorem single_of_nil {p : Parse α} {s : Session} (clean : s.queue ++ (p s.input).recovered = []) :
    s.single p = ⟨(whole p s.input).result, ⟨(p s.input).rest, []⟩, (whole p s.input).events⟩ := by
  rw [← whole_recovered] at clean
  rw [← whole_rest, single]
  simp only [clean]

/-- The head of the queue is the answer where there is one. -/
theorem single_of_cons {p : Parse α} {s : Session} {e : ParseError} {queue : List ParseError}
    (waits : s.queue ++ (p s.input).recovered = e :: queue) :
    s.single p = ⟨.error e, ⟨(p s.input).rest, queue⟩, (whole p s.input).events⟩ := by
  rw [← whole_recovered] at waits
  rw [← whole_rest, single]
  simp only [waits]

theorem single_input (p : Parse α) (s : Session) : (s.single p).session.input = (p s.input).rest := by
  cases queue : s.queue ++ (p s.input).recovered with
  | nil => rw [single_of_nil queue]
  | cons e errors => rw [single_of_cons queue]

/-- A new session answers with the tree of all declarations, or with all errors that they were
recovered from. -/
theorem program_ofTokens {tokens : List Token} {ss : List Stmt} {rest : Input} {events : List Event}
    (run : declarations ⟨tokens, .start⟩ = ⟨.ok ss, rest, events⟩) :
    (ofTokens tokens).program.result =
      if events.filterMap Event.error? = [] then .ok ⟨ss⟩ else .error (events.filterMap Event.error?) := by
  have read : declarations (ofTokens tokens).input = ⟨.ok ss, rest, events⟩ := run
  rw [program, read]
  have told : (ofTokens tokens).queue ++ (⟨.ok ss, rest, events⟩ : Outcome (List Stmt)).recovered =
    events.filterMap Event.error? := List.nil_append _
  simp only [told]
  split
  next clean => rw [if_pos clean]; rfl
  next waits => rw [if_neg waits]

/-- What a call reads. -/
theorem call_input (s : Session) (call : Call) : (s.call call).session.input = match call with
    | .program => (declarations s.input).rest
    | .statement => (declaration maxNesting s.input).rest
    | .expression => (Parse.expression maxNesting s.input).rest := by
  cases call with
  | program => rfl
  | statement => exact single_input _ s
  | expression => exact single_input _ s

theorem call_forward (s : Session) (call : Call) :
    ∃ taken, s.input.tokens = taken ++ (s.call call).session.input.tokens ∧
      (s.call call).session.input.last = placeAfter s.input.last taken := by
  rw [call_input]
  cases call with
  | program => exact forward_declarations s.input
  | statement => exact forward_declaration maxNesting s.input
  | expression => exact forward_expression maxNesting s.input

theorem call_length_le (s : Session) (call : Call) :
    (s.call call).session.input.tokens.length ≤ s.input.tokens.length := by
  obtain ⟨taken, front, -⟩ := s.call_forward call
  rw [front, List.length_append]
  omega

/-- How a call is answered where these errors wait, and what still waits behind the answer. All errors
answer the call for a program, the first one answers a call for one tree. -/
inductive Answered : List ParseError → Answer → List ParseError → Prop
  | program {p : Program} : Answered [] (.program (.ok p)) []
  | errors {queue : List ParseError} : queue ≠ [] → Answered queue (.program (.error queue)) []
  | statement {result : Except ParseError Stmt} : Answered [] (.statement result) []
  | statementError {e : ParseError} {queue : List ParseError} : Answered (e :: queue)
      (.statement (.error e)) queue
  | expression {result : Except ParseError Expr} : Answered [] (.expression result) []
  | expressionError {e : ParseError} {queue : List ParseError} : Answered (e :: queue)
      (.expression (.error e)) queue

/-- How a call for a program is answered where these errors wait, and what waits behind the answer. -/
inductive Drains : List ParseError → Except (List ParseError) Program → List ParseError → Prop
  | tree {p : Program} : Drains [] (.ok p) []
  | errors {waiting : List ParseError} : waiting ≠ [] → Drains waiting (.error waiting) []

/-- How a call for one tree is answered where these errors wait, and what waits behind the answer.
What the rule itself comes to is the answer only where none waits. -/
inductive TakesHead (own : Except ParseError α) :
    List ParseError → Except ParseError α → List ParseError → Prop
  | own : TakesHead own [] own []
  | head {e : ParseError} {queue : List ParseError} : TakesHead own (e :: queue) (.error e) queue

/-- How a call on an input is answered where these errors wait, and what waits behind the answer. -/
def Serves (input : Input) (waiting : List ParseError) (answer : Answer) (behind : List ParseError) :
    Call → Prop
  | .program => ∃ result, answer = .program result ∧ Drains waiting result behind
  | .statement =>
    ∃ result, answer = .statement result ∧
        TakesHead (whole (declaration maxNesting) input).result waiting result behind
  | .expression =>
    ∃ result, answer = .expression result ∧
      TakesHead (whole (Parse.expression maxNesting) input).result waiting result behind

theorem Serves.answered {input : Input} {waiting behind : List ParseError} {answer : Answer} {call : Call}
    (serves : Serves input waiting answer behind call) : Answered waiting answer behind := by
  cases call with
  | program =>
    obtain ⟨result, rfl, drains⟩ := serves
    cases drains with
    | tree => exact .program
    | errors some => exact .errors some
  | statement =>
    obtain ⟨result, rfl, takes⟩ := serves
    cases takes with
    | own => exact .statement
    | head => exact .statementError
  | expression =>
    obtain ⟨result, rfl, takes⟩ := serves
    cases takes with
    | own => exact .expression
    | head => exact .expressionError

theorem program_drains (s : Session) :
    Drains (s.queue ++ s.program.caught) s.program.result s.program.session.queue := by
  obtain ⟨ss, rest, events, items⟩ := items_declarations s.input
  have read : declarations s.input = ⟨.ok ss, rest, events⟩ := items.many_eq
  rw [program, read]
  simp only [Outcome.recovered, Reply.caught]
  split
  next clean =>
    rw [clean]
    exact .tree
  next waits => exact .errors waits

theorem single_caught (p : Parse α) (s : Session) : (s.single p).caught = (p s.input).recovered := by
  rw [← whole_recovered]
  cases queue : s.queue ++ (p s.input).recovered with
  | nil =>
    rw [single_of_nil queue]
    rfl
  | cons e errors =>
    rw [single_of_cons queue]
    rfl

theorem single_takesHead (p : Parse α) (s : Session) :
    TakesHead (whole p s.input).result (s.queue ++ (s.single p).caught) (s.single p).result
      (s.single p).session.queue := by
  rw [single_caught]
  cases queue : s.queue ++ (p s.input).recovered with
  | nil =>
    rw [single_of_nil queue]
    exact .own
  | cons e errors =>
    rw [single_of_cons queue]
    exact .head

theorem call_serves (s : Session) (call : Call) :
    Serves s.input (s.queue ++ (s.call call).caught)
      (s.call call).result (s.call call).session.queue call := by
  cases call with
  | program => exact ⟨_, rfl, s.program_drains⟩
  | statement => exact ⟨_, rfl, s.single_takesHead (declaration maxNesting)⟩
  | expression => exact ⟨_, rfl, s.single_takesHead (Parse.expression maxNesting)⟩

/-- Errors are only put behind the others, and then the answer is taken. -/
theorem call_answered (s : Session) (call : Call) :
    ∃ recovered, Answered (s.queue ++ recovered) (s.call call).result (s.call call).session.queue :=
  ⟨_, (s.call_serves call).answered⟩

/-- Call by call, a session goes on where it stopped. -/
theorem run_append (s : Session) (calls calls' : List Call) :
    (s.run (calls ++ calls')).session = ((s.run calls).session.run calls').session ∧
      (s.run (calls ++ calls')).result = (s.run calls).result ++
      ((s.run calls).session.run calls').result := by
  induction calls generalizing s with
  | nil => exact ⟨rfl, rfl⟩
  | cons call calls ih =>
    obtain ⟨session, result⟩ := ih (s.call call).session
    exact ⟨session, congrArg ((s.call call).result :: ·) result⟩

theorem run_forward (s : Session) (calls : List Call) :
    ∃ taken, s.input.tokens = taken ++ (s.run calls).session.input.tokens ∧
      (s.run calls).session.input.last = placeAfter s.input.last taken := by
  induction calls generalizing s with
  | nil => exact ⟨[], rfl, rfl⟩
  | cons call calls ih =>
    obtain ⟨taken, front, place⟩ := s.call_forward call
    obtain ⟨taken', front', place'⟩ := ih (s.call call).session
    refine ⟨taken ++ taken', ?_, ?_⟩
    · rw [front, front', List.append_assoc]
      rfl
    · rw [placeAfter_append, ← place]
      exact place'

theorem run_length_le (s : Session) (calls : List Call) :
    (s.run calls).session.input.tokens.length ≤ s.input.tokens.length := by
  obtain ⟨taken, front, -⟩ := s.run_forward calls
  rw [front, List.length_append]
  exact Nat.le_add_left _ _

end Session

end LoxFrontEnd
