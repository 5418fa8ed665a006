import LoxFrontEnd.Proofs.Parse.Calls
import LoxFrontEnd.Proofs.Parse.StatementLevels

/-!
Closing braces that are missing. Items in braces recover from their errors, so they are read up to a
closing brace or up to the end of input. An error that asks for the closing brace of a block or of a
class body therefore finds the end of input in its place.
-/

namespace LoxFrontEnd

/-- If the error asks for the brace that closes a block or a class body, it finds the end of input. -/
def ParseError.ClosesAtEnd : ParseError → Prop
  | .unexpectedToken expected found _ => expected.closesBody = true → found = .endOfInput
  | .invalidAssignmentTarget _ => True

theorem Input.found_of_kind_eof {input : Input} (atEnd : input.kind = .eof) :
    input.found = .endOfInput := by
  obtain ⟨tokens, last⟩ := input
  cases tokens with
  | nil => rfl
  | cons token tokens =>
    have isEnd : token.kind = .eof := atEnd
    exact if_pos isEnd

namespace Parse

variable {α β ι : Type}

/-- All errors of a sequence are errors of its first rule, or of the others where the first one ends
well. -/
theorem mem_errors_bind {p : Parse α} {f : α → Parse β} {input : Input} {e : ParseError}
    (told : e ∈ ((p >>= f) input).errors) :
    e ∈ (p input).errors ∨ ∃ a later events, p input = ⟨.ok a, later, events⟩ ∧ e ∈ (f a later).errors := by
  rcases run : p input with ⟨error | a, later, events⟩
  · rw [bind_of_error run] at told
    exact Or.inl told
  · rw [bind_of_ok run] at told
    rcases next : f a later with ⟨result, rest, events'⟩
    have all :
        ((f a later).behind events).errors = events.filterMap Event.error? ++ (f a later).errors := by
      rw [next, Outcome.behind, Outcome.errors, Outcome.errors, Outcome.recovered, Outcome.recovered,
        List.filterMap_append, List.append_assoc]
    rw [all] at told
    rcases List.mem_append.mp told with before | behind
    · exact Or.inl (List.mem_append_left _ before)
    · exact Or.inr ⟨a, later, events, rfl, next ▸ behind⟩

/-- Of the errors of the rule, those that ask for a closing brace find the end of input. -/
def ClosesAtEnd (p : Parse α) : Prop := ∀ input, ∀ e ∈ (p input).errors, e.ClosesAtEnd

theorem closesAtEnd_of_errors_nil {p : Parse α} (none : ∀ input, (p input).errors = []) :
    ClosesAtEnd p := by
  intro input e told
  rw [none] at told
  exact absurd told List.not_mem_nil

theorem closesAtEnd_fail {e : ParseError} (closes : e.ClosesAtEnd) : ClosesAtEnd (fail e : Parse α) := by
  intro input e' told
  obtain rfl : e' = e := List.mem_singleton.mp told
  exact closes

theorem closesAtEnd_unexpected (expected : Expected) (other : expected.closesBody = false) :
    ClosesAtEnd (unexpected expected : Parse α) := by
  intro input e told
  obtain rfl : e = input.unexpected expected := List.mem_singleton.mp told
  intro closes
  rw [other] at closes
  cases closes

theorem closesAtEnd_takeSome (choose : Token → Option α) : ClosesAtEnd (takeSome choose) := by
  refine closesAtEnd_of_errors_nil fun input => ?_
  obtain ⟨tokens, last⟩ := input
  cases tokens with
  | nil => rfl
  | cons token tokens =>
    cases chosen : choose token with
    | none => rw [takeSome_of_none chosen]; rfl
    | some a => rw [takeSome_of_some chosen]; rfl

theorem ClosesAtEnd.bind {p : Parse α} {f : α → Parse β} (first : ClosesAtEnd p)
    (next : ∀ a, ClosesAtEnd (f a)) :
    ClosesAtEnd (p >>= f) := by
  intro input e told
  rcases mem_errors_bind told with before | ⟨a, later, _, _, behind⟩
  · exact first input e before
  · exact next a later e behind

theorem closesAtEnd_recursive {rule : (ι → Parse α) → ι → Parse α}
    (turn : ∀ again : ι → Parse α, (∀ i, ClosesAtEnd (again i)) → ∀ i, ClosesAtEnd (rule again i)) (i : ι) :
    ClosesAtEnd (recursive rule i) := by
  intro input
  refine recursive_induction (P := fun _ _ outcome => ∀ e ∈ outcome.errors, ParseError.ClosesAtEnd e)
    (fun _ input => closesAtEnd_unexpected .shallowNesting rfl input) turn i input

theorem closesAtEnd_sequential : Sequential @ClosesAtEnd where
  pure _ := closesAtEnd_of_errors_nil fun _ => rfl
  unexpected := closesAtEnd_unexpected
  peek := closesAtEnd_of_errors_nil fun _ => rfl
  takeSome := closesAtEnd_takeSome
  bind := ClosesAtEnd.bind
  recursive := closesAtEnd_recursive

theorem ClosesAtEnd.recovering {p : Parse α} (closes : ClosesAtEnd p) (site : RecoverySite)
    (enclosed : Bool) :
    ClosesAtEnd (recovering site enclosed p) := by
  intro input e told
  obtain ⟨o, isOk⟩ := recovering_ok site enclosed p input
  have all : (Parse.recovering site enclosed p input).errors = (p input).errors := by
    rw [Outcome.errors, recovered_recovering, isOk]
    exact List.append_nil _
  rw [all] at told
  exact closes input e told

/-- A list of items that ends well ends where it has to, whatever its items are. -/
theorem many_ends {stop : TokenKind → Bool} {item : Parse (Option α)} {input rest : Input} {as : List α}
    {events : List Event} (run : many stop item input = ⟨.ok as, rest, events⟩) :
    stop rest.kind = true := by
  refine recursive_induction (P := fun _ _ outcome => ∀ as rest events, outcome = ⟨.ok as, rest, events⟩ →
    stop rest.kind = true) nofun (fun again ih _ input as rest events run => ?_) () input as rest events run
  obtain ⟨kind, later, before, after, peeked, run, -⟩ := bind_eq_ok run
  obtain ⟨rfl, rfl, -⟩ : input.kind = kind ∧ input = later ∧ [] = before := by
    simpa [peek] using peeked
  split at run
  · next ends =>
    obtain ⟨-, rfl, -⟩ : [] = as ∧ input = rest ∧ [] = after := by
      simpa [pure_apply] using run
    exact ends
  · obtain ⟨o, later, _, _, _, more, -⟩ := bind_eq_ok run
    obtain ⟨others, later', _, _, called, last, -⟩ := bind_eq_ok more
    obtain ⟨-, rfl, -⟩ : o.toList ++ others = as ∧ later' = rest ∧ [] = _ := by
      simpa [pure_apply] using last
    exact ih () later others later' _ called

/-- Behind the items there is the closing brace, or else the end of input. -/
theorem closesAtEnd_braced (site : RecoverySite) (expected : Expected) {item : Parse α}
    (closes : ClosesAtEnd item) :
    ClosesAtEnd (braced site expected item) := by
  intro input e told
  rcases mem_errors_bind told with inner | ⟨as, rest, events, run, last⟩
  · exact closesAtEnd_sequential.many (closes.recovering site true) endsBody input e inner
  have ends : rest.kind = .rightBrace ∨ rest.kind = .eof := of_decide_eq_true (many_ends run)
  rcases mem_errors_bind last with asked | ⟨_, _, _, _, none⟩
  · rcases ends with isBrace | atEnd
    · obtain ⟨tokens, place⟩ := rest
      cases tokens with
      | nil => cases isBrace
      | cons token tokens =>
        rw [expect_taken isBrace] at asked
        exact absurd asked List.not_mem_nil
    · have other : rest.kind ≠ .rightBrace := by rw [atEnd]; decide
      rw [expect_refused other] at asked
      obtain rfl : e = rest.unexpected expected := List.mem_singleton.mp asked
      exact fun _ => Input.found_of_kind_eof atEnd
  · exact absurd none List.not_mem_nil

theorem closesAtEnd_closed : Closed @ClosesAtEnd where
  toSequential := closesAtEnd_sequential
  started _ := closesAtEnd_of_errors_nil fun _ => rfl
  braced := closesAtEnd_braced

theorem closesAtEnd_expression (levels : Nat) : ClosesAtEnd (expression levels) :=
  closesAtEnd_sequential.expression
    (fun levels inner => closesAtEnd_sequential.assignment (fun _ => closesAtEnd_fail trivial)
      inner levels) levels

theorem closesAtEnd_declaration (levels : Nat) : ClosesAtEnd (declaration levels) :=
  closesAtEnd_closed.declaration closesAtEnd_expression levels

theorem closesAtEnd_declarations : ClosesAtEnd Session.declarations :=
  closesAtEnd_sequential.many ((closesAtEnd_declaration maxNesting).recovering .declaration false) _

variable {p : Parse α}

theorem ClosesAtEnd.recovered (closes : ClosesAtEnd p) (input : Input) :
    ∀ e ∈ (p input).recovered, e.ClosesAtEnd :=
  fun e told => closes input e (List.mem_append_left _ told)

theorem ClosesAtEnd.result (closes : ClosesAtEnd p) (input : Input) (e : ParseError)
    (fails : (p input).result = .error e) : e.ClosesAtEnd := by
  refine closes input e ?_
  rw [Outcome.errors, fails]
  exact List.mem_append_right _ (List.mem_singleton_self e)

/-- That nothing may follow is no matter of braces. -/
theorem ClosesAtEnd.whole (closes : ClosesAtEnd p) : ClosesAtEnd (Session.whole p) := by
  have go := closesAtEnd_sequential
  refine closes.bind fun tree => (go.bind go.peek fun kind => ?_).bind fun _ => go.pure tree
  split
  · exact go.pure ()
  · exact go.unexpected .endOfInput rfl

end Parse

end LoxFrontEnd
