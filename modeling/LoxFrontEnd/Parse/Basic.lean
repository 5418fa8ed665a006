import LoxFrontEnd.Token
import LoxFrontEnd.Parse.Error

/-!
Rules over a list of tokens. A rule reads an input and answers with a result or an error, with
the input that is left, and with the events on the way; the errors that were recovered from are
among the events. A rule is one action of a monad and looks at one token at most.
-/

namespace LoxFrontEnd

/-- The tokens that are left, and the place of the last one taken. -/
structure Input where
  tokens : List Token
  last : Position
  deriving DecidableEq

namespace Input

/-- The kind of the next token. Behind the last token there is only the end of input. -/
def kind (input : Input) : TokenKind :=
  match input.tokens with
  | [] => .eof
  | token :: _ => token.kind

/-- How the next token is named in errors. -/
def found (input : Input) : Found :=
  match input.tokens with
  | [] => .endOfInput
  | token :: _ => if token.kind = .eof then .endOfInput else .lexeme token.lexeme

/-- Where an error at the next token is placed. -/
def position (input : Input) : Position :=
  match input.tokens with
  | [] => input.last
  | token :: _ => token.position

def unexpected (input : Input) (expected : Expected) : ParseError :=
  .unexpectedToken expected input.found input.position

end Input

/-- Where recovery takes place. -/
inductive RecoverySite where
  | declaration | classBody
  deriving DecidableEq, Repr

/-- What happens on the way through the rules. -/
inductive Event where
  /-- A declaration begins with a token of this kind. -/
  | started (kind : TokenKind)
  /-- A rule failed, and parsing goes on behind it. -/
  | recovered (site : RecoverySite) (error : ParseError)
  deriving DecidableEq

def Event.error? : Event → Option ParseError
  | .started _ => none
  | .recovered _ error => some error

structure Outcome (α : Type) where
  result : Except ParseError α
  rest : Input
  events : List Event

/-- The errors that were recovered from, in order. -/
def Outcome.recovered {α : Type} (outcome : Outcome α) : List ParseError :=
  outcome.events.filterMap Event.error?

/-- The outcome of going on behind earlier events. -/
def Outcome.behind {α : Type} (earlier : List Event) (outcome : Outcome α) : Outcome α :=
  ⟨outcome.result, outcome.rest, earlier ++ outcome.events⟩

def Parse (α : Type) : Type := Input → Outcome α

namespace Parse

variable {α β : Type}

protected def pure (a : α) : Parse α := fun input => ⟨.ok a, input, []⟩

/-- An error ends the sequence; what was taken before stays taken. -/
protected def bind (p : Parse α) (f : α → Parse β) : Parse β := fun input =>
  match p input with
  | ⟨.error e, rest, events⟩ => ⟨.error e, rest, events⟩
  | ⟨.ok a, rest, events⟩ => (f a rest).behind events

instance : Monad Parse where
  pure := Parse.pure
  bind := Parse.bind

@[ext] theorem ext {p q : Parse α} (h : ∀ input, p input = q input) : p = q := funext h

theorem pure_apply (a : α) (input : Input) : (pure a : Parse α) input = ⟨.ok a, input, []⟩ := rfl

/-- A sequence goes on from where its first rule ends well. -/
theorem bind_of_ok {p : Parse α} {f : α → Parse β} {input rest : Input} {a : α}
    {events : List Event} (first : p input = ⟨.ok a, rest, events⟩) :
    (p >>= f) input = (f a rest).behind events := by
  show Parse.bind p f input = _
  rw [Parse.bind, first]

theorem bind_of_error {p : Parse α} {f : α → Parse β} {input rest : Input} {e : ParseError}
    {events : List Event} (first : p input = ⟨.error e, rest, events⟩) :
    (p >>= f) input = ⟨.error e, rest, events⟩ := by
  show Parse.bind p f input = _
  rw [Parse.bind, first]

theorem behind_nil (outcome : Outcome α) : outcome.behind [] = outcome := rfl

theorem behind_behind (outcome : Outcome α) (first second : List Event) :
    (outcome.behind second).behind first = outcome.behind (first ++ second) := by
  simp only [Outcome.behind, List.append_assoc]

protected theorem id_map (p : Parse α) : id <$> p = p := by
  ext input
  rcases run : p input with ⟨_ | a, rest, events⟩
  · exact bind_of_error run
  · exact (bind_of_ok run).trans (congrArg (Outcome.mk _ _) (List.append_nil events))

protected theorem pure_bind (a : α) (f : α → Parse β) : ((pure a : Parse α) >>= f) = f a := by
  ext input
  exact (bind_of_ok (pure_apply a input)).trans (behind_nil _)

protected theorem bind_assoc {γ : Type} (p : Parse α) (f : α → Parse β) (g : β → Parse γ) :
    p >>= f >>= g = p >>= fun a => f a >>= g := by
  ext input
  rcases run : p input with ⟨_ | a, rest, events⟩
  · rw [bind_of_error (bind_of_error run), bind_of_error run]
  · rw [bind_of_ok run]
    rcases next : f a rest with ⟨_ | b, rest', events'⟩
    · rw [bind_of_error ((bind_of_ok run).trans (congrArg _ next)), bind_of_error next]
      rfl
    · rw [bind_of_ok ((bind_of_ok run).trans (congrArg _ next)), bind_of_ok next, behind_behind]

instance : LawfulMonad Parse := .mk' Parse Parse.id_map Parse.pure_bind Parse.bind_assoc

def fail (e : ParseError) : Parse α := fun input => ⟨.error e, input, []⟩

/-- Something else than the next token was expected. -/
def unexpected (expected : Expected) : Parse α := fun input =>
  ⟨.error (input.unexpected expected), input, []⟩

def record (event : Event) : Parse Unit := fun input => ⟨.ok (), input, [event]⟩

/-- The kind of the next token, which is not taken. -/
def peek : Parse TokenKind := fun input => ⟨.ok input.kind, input, []⟩

/-- Takes the next token if `choose` has a value for it. -/
def takeSome (choose : Token → Option α) : Parse (Option α) := fun input =>
  match input.tokens with
  | [] => ⟨.ok none, input, []⟩
  | token :: tokens =>
    match choose token with
    | none => ⟨.ok none, input, []⟩
    | some a => ⟨.ok (some a), ⟨tokens, token.position⟩, []⟩

/-- Takes the next token if it is of this kind. -/
def accept (kind : TokenKind) : Parse (Option Token) :=
  takeSome fun token => if token.kind = kind then some token else none

/-- Takes the next token, which has to be of this kind. -/
def expect (kind : TokenKind) (expected : Expected) : Parse Token := do
  match ← accept kind with
  | some token => return token
  | none => unexpected expected

/-- Nothing may follow. The end mark is left in place. -/
def expectEnd : Parse Unit := do
  if (← peek) = .eof then return () else unexpected .endOfInput

/-- Ties a rule to itself. The rule may call itself only behind a token that it took, so a call
on an input that is no shorter is refused. No rule of the grammar makes one (`Tied.guard_unmet`). -/
def recursive {ι : Type} (rule : (ι → Parse α) → ι → Parse α) (i : ι) (input : Input) : Outcome α :=
  rule
    (fun j later =>
      if later.tokens.length < input.tokens.length then recursive rule j later
      else unexpected .shallowNesting later)
    i input
termination_by input.tokens.length

/-- All items up to a token of a kind that `stop` holds of. -/
def many (stop : TokenKind → Bool) (item : Parse (Option α)) : Parse (List α) :=
  recursive
    (fun (again : Unit → Parse (List α)) _ => do
      if stop (← peek) then return []
      let first ← item
      let others ← again ()
      return first.toList ++ others)
    ()

/-- One item or more, with a comma between neighbours. -/
def separated (item : Parse α) : Parse (List α) :=
  recursive
    (fun (again : Unit → Parse (List α)) _ => do
      let first ← item
      if (← accept .comma).isSome then
        return first :: (← again ())
      return [first])
    ()

/-- Items with commas between them, none if `stop` comes first. -/
def separatedUnless (stop : TokenKind) (item : Parse α) : Parse (List α) := do
  if (← peek) = stop then return []
  separated item

/-- As many steps on from a value as the tokens allow. A step that has nothing to take answers
`none`. -/
def steps (step : α → Parse (Option α)) : α → Parse α :=
  recursive fun again a => do
    match ← step a with
    | none => return a
    | some b => again b

/-- A first item, and as many steps on from it as the tokens allow. -/
def extend (first : Parse α) (step : α → Parse (Option α)) : Parse α := do
  steps step (← first)

end Parse

end LoxFrontEnd
