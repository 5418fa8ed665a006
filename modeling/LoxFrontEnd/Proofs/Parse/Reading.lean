import LoxFrontEnd.Parse.Session

/-!
Clean readings. A rule reads a value cleanly where it ends well and has recovered from nothing on
the way. What a sequence of rules reads is what its parts read one behind the other.
-/

namespace LoxFrontEnd

/-- The place of the last token taken, where `taken` was taken behind a token at `last`. -/
def placeAfter (last : Position) (taken : List Token) : Position :=
  taken.foldl (fun _ token => token.position) last

@[simp] theorem placeAfter_append (last : Position) (first second : List Token) :
    placeAfter last (first ++ second) = placeAfter (placeAfter last first) second :=
  List.foldl_append ..

@[simp] theorem Input.kind_cons (token : Token) (tokens : List Token) (last : Position) :
    Input.kind ⟨token :: tokens, last⟩ = token.kind := rfl

namespace Parse

section Lookahead

variable {α : Type} {input : Input} {kind : TokenKind} {expected : Expected} {token : Token}
  {tokens : List Token} {last : Position}

theorem takeSome_of_nil {choose : Token → Option α} :
    takeSome choose ⟨[], last⟩ = ⟨.ok none, ⟨[], last⟩, []⟩ := rfl

theorem takeSome_of_some {choose : Token → Option α} {a : α} (chosen : choose token = some a) :
    takeSome choose ⟨token :: tokens, last⟩ = ⟨.ok (some a), ⟨tokens, token.position⟩, []⟩ := by
  simp only [takeSome, chosen]

theorem takeSome_of_none {choose : Token → Option α} (refused : choose token = none) :
    takeSome choose ⟨token :: tokens, last⟩ = ⟨.ok none, ⟨token :: tokens, last⟩, []⟩ := by
  simp only [takeSome, refused]

theorem takeSome_passed {choose : TokenKind → Option α} (refused : choose input.kind = none) :
    takeSome (fun token => choose token.kind) input = ⟨.ok none, input, []⟩ := by
  obtain ⟨tokens, last⟩ := input
  cases tokens with
  | nil => rfl
  | cons token tokens => exact takeSome_of_none refused

theorem accept_taken (ofKind : token.kind = kind) :
    accept kind ⟨token :: tokens, last⟩ = ⟨.ok (some token), ⟨tokens, token.position⟩, []⟩ :=
  takeSome_of_some (if_pos ofKind)

theorem accept_passed (other : input.kind ≠ kind) : accept kind input = ⟨.ok none, input, []⟩ := by
  obtain ⟨tokens, last⟩ := input
  cases tokens with
  | nil => rfl
  | cons => exact takeSome_of_none (if_neg other)

theorem expect_taken (ofKind : token.kind = kind) :
    expect kind expected ⟨token :: tokens, last⟩ = ⟨.ok token, ⟨tokens, token.position⟩, []⟩ :=
  bind_of_ok (accept_taken ofKind)

theorem expect_refused (other : input.kind ≠ kind) :
    expect kind expected input = ⟨.error (input.unexpected expected), input, []⟩ :=
  bind_of_ok (accept_passed other)

/-- Without an operator in front of it an operand is a call, whatever the levels. -/
theorem unary_plain {e : Parse Expr} (other : input.kind.unaryOp? = none) (levels : Nat) :
    unary e levels input = call e input := by
  cases levels with
  | zero =>
    have peeked : peek input = ⟨.ok input.kind, input, []⟩ := rfl
    rw [unary, bind_of_ok peeked, other]
    rfl
  | succ levels =>
    rw [unary, bind_of_ok (takeSome_passed other)]
    rfl

/-- An operator that there is no level for is refused. -/
theorem unary_spent {e : Parse Expr} {op : UnaryOp} (isSign : input.kind.unaryOp? = some op) :
    unary e 0 input = ⟨.error (input.unexpected .shallowNesting), input, []⟩ := by
  have peeked : peek input = ⟨.ok input.kind, input, []⟩ := rfl
  rw [unary, bind_of_ok peeked, isSign]
  rfl

end Lookahead

variable {α β : Type} {input rest : Input}

/-- The rule reads this value and leaves the rest, and there is no error on the way, not even one that
is recovered from. -/
def Reads (p : Parse α) (input : Input) (a : α) (rest : Input) : Prop :=
  ∃ events, p input = ⟨.ok a, rest, events⟩ ∧ events.filterMap Event.error? = []

theorem Reads.unique {p : Parse α} {rest' : Input} {a a' : α}
    (first : Reads p input a rest) (second : Reads p input a' rest') : a = a' ∧ rest = rest' := by
  obtain ⟨events, run, _⟩ := first
  obtain ⟨events', run', _⟩ := second
  rw [run] at run'
  cases run'
  exact ⟨rfl, rfl⟩

theorem reads_of_ok {p : Parse α} {later : Input} {a b : α} {events : List Event}
    (run : p input = ⟨.ok a, later, events⟩) (clean : events.filterMap Event.error? = []) :
    Reads p input b rest ↔ b = a ∧ rest = later := by
  constructor
  · intro read
    exact read.unique ⟨events, run, clean⟩
  · rintro ⟨rfl, rfl⟩
    exact ⟨events, run, clean⟩

theorem not_reads_of_error {p : Parse α} {later : Input} {a : α} {e : ParseError} {events : List Event}
    (run : p input = ⟨.error e, later, events⟩) : ¬ Reads p input a rest := by
  rintro ⟨events', run', _⟩
  rw [run] at run'
  cases run'

/-- Somewhere a value is read cleanly where it is the result and nothing was recovered from. -/
theorem exists_reads_iff {p : Parse α} {a : α} :
    (∃ rest, Reads p input a rest) ↔ (p input).result = .ok a ∧ (p input).recovered = [] := by
  rcases run : p input with ⟨result, later, events⟩
  constructor
  · rintro ⟨rest, events', run', clean⟩
    rw [run] at run'
    cases run'
    exact ⟨rfl, clean⟩
  · rintro ⟨rfl, clean⟩
    exact ⟨later, events, run, clean⟩

theorem reads_bind {p : Parse α} {f : α → Parse β} {b : β} :
    Reads (p >>= f) input b rest ↔ ∃ a later, Reads p input a later ∧ Reads (f a) later b rest := by
  constructor
  · rintro ⟨events, run, clean⟩
    rcases first : p input with ⟨e | a, later, before⟩
    · rw [bind_of_error first] at run
      cases run
    · rw [bind_of_ok first] at run
      rcases second : f a later with ⟨result, behind, after⟩
      rw [second] at run
      cases run
      rw [List.filterMap_append, List.append_eq_nil_iff] at clean
      exact ⟨a, later, ⟨before, first, clean.1⟩, ⟨after, second, clean.2⟩⟩
  · rintro ⟨a, later, ⟨before, first, clean⟩, ⟨after, second, clean'⟩⟩
    refine ⟨before ++ after, ?_, ?_⟩
    · rw [bind_of_ok first, second]
      rfl
    · rw [List.filterMap_append, clean, clean', List.append_nil]

theorem Reads.bind {p : Parse α} {f : α → Parse β} {later : Input} {a : α} {b : β}
    (first : Reads p input a later) (next : Reads (f a) later b rest) :
    Reads (p >>= f) input b rest :=
  reads_bind.mpr ⟨a, later, first, next⟩

theorem reads_pure {a b : α} : Reads (pure a : Parse α) input b rest ↔ b = a ∧ rest = input :=
  reads_of_ok (pure_apply a input) rfl

theorem Reads.pure {a : α} : Reads (pure a : Parse α) input a input :=
  reads_pure.mpr ⟨rfl, rfl⟩

theorem reads_map {p : Parse α} {f : α → β} {b : β} :
    Reads (f <$> p) input b rest ↔ ∃ a, Reads p input a rest ∧ b = f a := by
  rw [map_eq_pure_bind, reads_bind]
  constructor
  · rintro ⟨a, later, read, next⟩
    obtain ⟨rfl, rfl⟩ := reads_pure.mp next
    exact ⟨a, read, rfl⟩
  · rintro ⟨a, read, rfl⟩
    exact ⟨a, rest, read, .pure⟩

theorem not_reads_fail {e : ParseError} {a : α} : ¬ Reads (fail e) input a rest :=
  not_reads_of_error rfl

theorem not_reads_unexpected {expected : Expected} {a : α} :
    ¬ Reads (unexpected expected) input a rest :=
  not_reads_of_error rfl

/-- A rule whose outcome is known hands over to what follows it. -/
theorem reads_bind_of_ok {p : Parse α} {f : α → Parse β} {later : Input} {a : α} {b : β}
    {events : List Event} (run : p input = ⟨.ok a, later, events⟩)
    (clean : events.filterMap Event.error? = []) :
    Reads (p >>= f) input b rest ↔ Reads (f a) later b rest := by
  rw [reads_bind]
  constructor
  · rintro ⟨a', later', first, next⟩
    obtain ⟨rfl, rfl⟩ := (reads_of_ok run clean).mp first
    exact next
  · intro next
    exact ⟨a, later, ⟨events, run, clean⟩, next⟩

theorem reads_peek_bind {f : TokenKind → Parse β} {b : β} :
    Reads (peek >>= f) input b rest ↔ Reads (f input.kind) input b rest :=
  reads_bind_of_ok rfl rfl

/-- The beginning of a declaration is told, and nothing is taken. -/
theorem reads_started_bind {kind : TokenKind} {f : Unit → Parse β} {b : β} :
    Reads (record (.started kind) >>= f) input b rest ↔ Reads (f ()) input b rest :=
  reads_bind_of_ok rfl rfl

/-- A token is taken where there is a value for it. -/
theorem reads_takeSome_bind {choose : Token → Option α} {f : Option α → Parse β} {b : β} :
    Reads (takeSome choose >>= f) input b rest ↔
      (∃ token tokens a, input.tokens = token :: tokens ∧ choose token = some a ∧
        Reads (f (some a)) ⟨tokens, token.position⟩ b rest) ∨
      ((∀ token ∈ input.tokens.head?, choose token = none) ∧ Reads (f none) input b rest) := by
  obtain ⟨tokens, last⟩ := input
  cases tokens with
  | nil =>
    rw [reads_bind_of_ok takeSome_of_nil rfl]
    simp
  | cons token tokens =>
    cases chosen : choose token with
    | none =>
      rw [reads_bind_of_ok (takeSome_of_none chosen) rfl]
      simp [chosen]
    | some a =>
      rw [reads_bind_of_ok (takeSome_of_some chosen) rfl]
      constructor
      · intro next
        exact Or.inl ⟨token, tokens, a, rfl, chosen, next⟩
      · rintro (⟨_, _, _, front, chosen', next⟩ | ⟨refused, _⟩)
        · cases front
          cases chosen.symm.trans chosen'
          exact next
        · cases chosen.symm.trans (refused token rfl)

/-- A token is taken where it is of the kind that is asked for. -/
theorem reads_accept_bind {kind : TokenKind} {f : Option Token → Parse β} {b : β} :
    Reads (accept kind >>= f) input b rest ↔
      (∃ token tokens, input.tokens = token :: tokens ∧ token.kind = kind ∧
        Reads (f (some token)) ⟨tokens, token.position⟩ b rest) ∨
      ((∀ token ∈ input.tokens.head?, token.kind ≠ kind) ∧ Reads (f none) input b rest) := by
  rw [accept, reads_takeSome_bind]
  simp only [Option.ite_none_right_eq_some, Option.some.injEq, ite_eq_right_iff, reduceCtorEq,
    imp_false]
  refine or_congr_left ⟨?_, ?_⟩
  · rintro ⟨token, tokens, _, front, ⟨ofKind, rfl⟩, next⟩
    exact ⟨token, tokens, front, ofKind, next⟩
  · rintro ⟨token, tokens, front, ofKind, next⟩
    exact ⟨token, tokens, token, front, ⟨ofKind, rfl⟩, next⟩

/-- Where only the kind of the next token decides, the branch behind a token that is taken starts in
front of the others. -/
theorem reads_accept_ite {kind : TokenKind} {p q : Parse β} {b : β} :
    Reads (accept kind >>= fun o => if o.isSome then p else q) input b rest ↔
      (∃ token tokens, input.tokens = token :: tokens ∧ token.kind = kind ∧
        Reads p ⟨tokens, token.position⟩ b rest) ∨
      ((∀ token ∈ input.tokens.head?, token.kind ≠ kind) ∧ Reads q input b rest) := by
  simp only [reads_accept_bind, Option.isSome_some, Option.isSome_none, if_true, Bool.false_eq_true,
    if_false]

theorem Reads.accepted {kind : TokenKind} {f : Option Token → Parse β} {token : Token}
    {tokens : List Token} {last : Position} {b : β} (ofKind : token.kind = kind)
    (next : Reads (f (some token)) ⟨tokens, token.position⟩ b rest) :
    Reads (accept kind >>= f) ⟨token :: tokens, last⟩ b rest :=
  reads_accept_bind.mpr (Or.inl ⟨token, tokens, rfl, ofKind, next⟩)

theorem Reads.passed {kind : TokenKind} {f : Option Token → Parse β} {b : β} (other : input.kind ≠ kind)
    (next : Reads (f none) input b rest) : Reads (accept kind >>= f) input b rest := by
  refine reads_accept_bind.mpr (Or.inr ⟨?_, next⟩)
  rintro token front rfl
  obtain ⟨tokens, last⟩ := input
  cases tokens with
  | nil => cases front
  | cons => cases front; exact other rfl

theorem reads_expect {kind : TokenKind} {expected : Expected} {token : Token} :
    Reads (expect kind expected) input token rest ↔
      token.kind = kind ∧ input.tokens = token :: rest.tokens ∧ rest.last = token.position := by
  rw [expect, reads_accept_bind]
  simp only [reads_pure, not_reads_unexpected, and_false, or_false]
  obtain ⟨tokens, last⟩ := rest
  constructor
  · rintro ⟨token, tokens, front, ofKind, rfl, same⟩
    cases same
    exact ⟨ofKind, front, rfl⟩
  · rintro ⟨ofKind, front, rfl⟩
    exact ⟨token, tokens, front, ofKind, rfl, rfl⟩

theorem reads_expect_bind {kind : TokenKind} {expected : Expected} {f : Token → Parse β} {b : β} :
    Reads (expect kind expected >>= f) input b rest ↔
      ∃ token tokens, input.tokens = token :: tokens ∧ token.kind = kind ∧
        Reads (f token) ⟨tokens, token.position⟩ b rest := by
  rw [reads_bind]
  constructor
  · rintro ⟨token, ⟨tokens, last⟩, taken, next⟩
    obtain ⟨ofKind, front, rfl⟩ := reads_expect.mp taken
    exact ⟨token, tokens, front, ofKind, next⟩
  · rintro ⟨token, tokens, front, ofKind, next⟩
    exact ⟨token, _, reads_expect.mpr ⟨ofKind, front, rfl⟩, next⟩

theorem Reads.expected {kind : TokenKind} {expected : Expected} {f : Token → Parse β} {token : Token}
    {tokens : List Token} {last : Position} {b : β} (ofKind : token.kind = kind)
    (next : Reads (f token) ⟨tokens, token.position⟩ b rest) :
    Reads (expect kind expected >>= f) ⟨token :: tokens, last⟩ b rest :=
  reads_expect_bind.mpr ⟨token, tokens, rfl, ofKind, next⟩

/-- What is recovered from is no clean reading. -/
theorem reads_recovering {site : RecoverySite} {enclosed : Bool} {p : Parse α} {o : Option α} :
    Reads (recovering site enclosed p) input o rest ↔ ∃ a, o = some a ∧ Reads p input a rest := by
  constructor
  · rintro ⟨events, run, clean⟩
    rcases inner : p input with ⟨e | a, later, before⟩
    · simp only [recovering, inner] at run
      cases run
      simp [Event.error?] at clean
    · simp only [recovering, inner] at run
      cases run
      exact ⟨a, rfl, events, inner, clean⟩
  · rintro ⟨a, rfl, events, run, clean⟩
    exact ⟨events, by simp only [recovering, run], clean⟩

/-- The rule takes just these tokens, which stand in front of the rest, and reads this value from them. -/
def Spans (p : Parse α) (last : Position) (taken : List Token) (a : α) (rest : List Token) : Prop :=
  Reads p ⟨taken ++ rest, last⟩ a ⟨rest, placeAfter last taken⟩

namespace Spans

variable {p : Parse α} {f : α → Parse β} {a : α} {b : β} {taken others rest : List Token} {last : Position}

theorem pure : Spans (pure a) last [] a rest :=
  Reads.pure

/-- The rule tells where the tokens that it takes end. -/
theorem unique {taken' rest' : List Token} {a' : α} (read : Spans p last taken a rest)
    (read' : Spans p last taken' a' rest') (same : taken ++ rest = taken' ++ rest') :
    taken = taken' ∧ rest = rest' := by
  rw [Spans, same] at read
  obtain rfl : rest = rest' := congrArg Input.tokens (Reads.unique read read').2
  exact ⟨List.append_cancel_right same, rfl⟩

/-- What two rules take stands one behind the other. -/
theorem bind (read : Spans p last taken a (others ++ rest))
    (next : Spans (f a) (placeAfter last taken) others b rest) :
    Spans (p >>= f) last (taken ++ others) b rest := by
  rw [Spans, List.append_assoc, placeAfter_append]
  exact Reads.bind read next

/-- What follows takes nothing more. -/
theorem ends (read : Spans p last taken a rest) (next : Spans (f a) (placeAfter last taken) [] b rest) :
    Spans (p >>= f) last taken b rest :=
  Reads.bind read next

theorem map {g : α → β} (read : Spans p last taken a rest) : Spans (g <$> p) last taken (g a) rest :=
  reads_map.mpr ⟨a, read, rfl⟩

section Marks

variable {kind : TokenKind} {token : Token}

theorem accepted {f : Option Token → Parse β} (ofKind : token.kind = kind)
    (next : Spans (f (some token)) token.position taken b rest) :
    Spans (accept kind >>= f) last (token :: taken) b rest :=
  Reads.accepted ofKind next

theorem passed {f : Option Token → Parse β} (other : Input.kind ⟨taken ++ rest, last⟩ ≠ kind)
    (next : Spans (f none) last taken b rest) : Spans (accept kind >>= f) last taken b rest :=
  Reads.passed other next

theorem expected {expected : Expected} {f : Token → Parse β} (ofKind : token.kind = kind)
    (next : Spans (f token) token.position taken b rest) :
    Spans (expect kind expected >>= f) last (token :: taken) b rest :=
  Reads.expected ofKind next

end Marks

end Spans

end Parse

end LoxFrontEnd
