import LoxFrontEnd.Parse.Session

/-!
A parser as a machine. All that changes while it works is in one set of registers: the tokens that are
left, the queue of errors, the number of open braces and the depth of nesting. Rules raise and lower
the two counts by hand, and a rule that is tied to itself may call itself on any input. Nothing but a
limit on the turns of each such rule keeps it from going on for ever; a machine that comes to the
limit has no outcome.
-/

namespace LoxFrontEnd

/-- What a parser counts. -/
structure Counts where
  /-- The braces that are open. Recovery does not skip the brace that closes one. -/
  braces : Nat
  /-- The statements and expressions that are being read inside one another. -/
  nesting : Nat
  deriving DecidableEq

namespace Counts

/-- Nothing is open at the beginning. -/
def zero : Counts := ⟨0, 0⟩

def openBrace (c : Counts) : Counts := { c with braces := c.braces + 1 }

def close (c : Counts) : Counts := { c with braces := c.braces - 1 }

def enter (c : Counts) : Counts := { c with nesting := c.nesting + 1 }

def leave (c : Counts) : Counts := { c with nesting := c.nesting - 1 }

end Counts

structure Registers where
  session : Session
  counts : Counts
  deriving DecidableEq

namespace Registers

/-- A new parser over a list of tokens. -/
def ofTokens (tokens : List Token) : Registers := ⟨.ofTokens tokens, .zero⟩

def input (r : Registers) : Input := r.session.input

/-- What a rule leaves behind that has only taken tokens and recovered from errors. -/
def after {α : Type} (r : Registers) (outcome : Outcome α) : Registers :=
  ⟨⟨outcome.rest, r.session.queue ++ outcome.recovered⟩, r.counts⟩

end Registers

/-- A rule of the machine. It gets the limit on turns and the registers. -/
def Machine (α : Type) : Type := Nat → Registers → Option (Except ParseError α × Registers)

namespace Machine

variable {α β ι : Type}

protected def pure (a : α) : Machine α := fun _ r => some (.ok a, r)

/-- An error ends the sequence, and leaves the registers as they are. -/
protected def bind (m : Machine α) (f : α → Machine β) : Machine β := fun limit r =>
  match m limit r with
  | none => none
  | some (.error e, r') => some (.error e, r')
  | some (.ok a, r') => f a limit r'

instance : Monad Machine where
  pure := Machine.pure
  bind := Machine.bind

/-- A rule that looks at the tokens only, and ties nothing. -/
def lift (p : Parse α) : Machine α := fun _ r => some ((p r.input).result, r.after (p r.input))

def counts : Machine Counts := fun _ r => some (.ok r.counts, r)

def count (f : Counts → Counts) : Machine Unit := fun _ r => some (.ok (), ⟨r.session, f r.counts⟩)

def unexpected (expected : Expected) : Machine α := lift (Parse.unexpected expected)

def peek : Machine TokenKind := lift Parse.peek

def takeSome (choose : Token → Option α) : Machine (Option α) := lift (Parse.takeSome choose)

def accept (kind : TokenKind) : Machine (Option Token) := lift (Parse.accept kind)

def expect (kind : TokenKind) (expected : Expected) : Machine Token := lift (Parse.expect kind expected)

/-- A rule that calls itself, with so many turns to go. -/
def unrolled (rule : (ι → Machine α) → ι → Machine α) : Nat → ι → Machine α
  | 0 => fun _ _ _ => none
  | turns + 1 => rule (unrolled rule turns)

/-- Ties a rule to itself. -/
def tie (rule : (ι → Machine α) → ι → Machine α) (i : ι) : Machine α :=
  fun limit => unrolled rule limit i limit

/-- One item, and all items behind it, unless `stop` holds of the next token. -/
def manyTurn (stop : TokenKind → Bool) (item : Machine (Option α))
    (again : Unit → Machine (List α)) (_ : Unit) :
    Machine (List α) := do
  if stop (← peek) then return []
  let first ← item
  let others ← again ()
  return first.toList ++ others

/-- All items up to a token of a kind that `stop` holds of. -/
def many (stop : TokenKind → Bool) (item : Machine (Option α)) : Machine (List α) :=
  tie (manyTurn stop item) ()

/-- One item, and all items behind the comma that follows it, if there is one. -/
def separatedTurn (item : Machine α) (again : Unit → Machine (List α)) (_ : Unit) : Machine (List α) := do
  let first ← item
  if (← accept .comma).isSome then
    return first :: (← again ())
  return [first]

/-- One item or more, with a comma between neighbours. -/
def separated (item : Machine α) : Machine (List α) := tie (separatedTurn item) ()

def separatedUnless (stop : TokenKind) (item : Machine α) : Machine (List α) := do
  if (← peek) = stop then return []
  separated item

/-- One step on from a value, and all steps behind it. -/
def stepsTurn (step : α → Machine (Option α)) (again : α → Machine α) (a : α) : Machine α := do
  match ← step a with
  | none => return a
  | some b => again b

/-- Steps on from a value, up to the one that answers `none`. -/
def steps (step : α → Machine (Option α)) : α → Machine α := tie (stepsTurn step)

/-- Runs a rule behind an opening brace. The brace stays open where the rule fails. -/
def opened (m : Machine α) : Machine α := do
  count .openBrace
  let a ← m
  count .close
  return a

/-- Runs a rule one level deeper, and comes back to the level in any case. -/
def nested (m : Machine α) : Machine α := fun limit r =>
  if maxNesting ≤ r.counts.nesting then unexpected .shallowNesting limit r
  else
    match m limit ⟨r.session, r.counts.enter⟩ with
    | none => none
    | some (result, r') => some (result, ⟨r'.session, r'.counts.leave⟩)

/-- Runs a rule. If it fails, the error goes into the queue and the rest of the statement is skipped. -/
def recovering (m : Machine α) : Machine (Option α) := fun limit r =>
  match m limit r with
  | none => none
  | some (.ok a, r') => some (.ok (some a), r')
  | some (.error e, r') =>
    some (.ok none, ⟨⟨r'.input.skip (0 < r'.counts.braces), r'.session.queue ++ [e]⟩, r'.counts⟩)

end Machine

end LoxFrontEnd
