import LoxFrontEnd.Proofs.Parse.Progress

/-!
Lists of items that recover, one item at a time. Such a list never fails, and it stops at a token that
ends it, since each item takes a token or more, well-formed or not.
-/

namespace LoxFrontEnd.Parse

variable {α : Type} {stop : TokenKind → Bool} {input later rest : Input}

section Many

variable {item : Parse (Option α)} {o : Option α} {as : List α} {events events' : List Event}

theorem many_of_stop (ends : stop input.kind = true) : many stop item input = ⟨.ok [], input, []⟩ := by
  have peeked : peek input = ⟨.ok input.kind, input, []⟩ := rfl
  rw [many, recursive_apply, bind_of_ok peeked, if_pos ends]
  rfl

theorem many_of_item (goes : stop input.kind = false) (first : item input = ⟨.ok o, later, events⟩)
    (shorter : later.tokens.length < input.tokens.length) :
    many stop item input =
      ((do return o.toList ++ (← many stop item) : Parse (List α)) later).behind events := by
  have peeked : peek input = ⟨.ok input.kind, input, []⟩ := rfl
  have more : ¬ stop input.kind = true := by
    rw [goes]
    exact Bool.false_ne_true
  rw [many, recursive_apply, bind_of_ok peeked, if_neg more, behind_nil, bind_of_ok first]
  exact congrArg (Outcome.behind events) (bind_of_eq (guarded_of_lt shorter))

/-- The guard of the recursion refuses to go on behind an item that took nothing. -/
theorem many_refused (goes : stop input.kind = false) (first : item input = ⟨.ok o, later, events⟩)
    (longer : ¬ later.tokens.length < input.tokens.length) :
    many stop item input = ⟨.error (later.unexpected .shallowNesting), later, events⟩ := by
  have peeked : peek input = ⟨.ok input.kind, input, []⟩ := rfl
  have more : ¬ stop input.kind = true := by
    rw [goes]
    exact Bool.false_ne_true
  rw [many, recursive_apply, bind_of_ok peeked, if_neg more, behind_nil, bind_of_ok first]
  have refused : (unexpected .shallowNesting : Parse (List α)) later =
    ⟨.error (later.unexpected .shallowNesting), later, []⟩ := rfl
  rw [bind_of_error ((if_neg longer).trans refused)]
  exact congrArg (Outcome.mk _ later) (List.append_nil events)

/-- Item by item, from an input up to a token that ends the list. -/
inductive Items (stop : TokenKind → Bool) (item : Parse (Option α)) :
    Input → List α → Input → List Event → Prop
  | stop {input : Input} : stop input.kind = true → Items stop item input [] input []
  | item {input later rest : Input} {o : Option α} {as : List α} {events events' : List Event} :
      stop input.kind = false → item input = ⟨.ok o, later, events⟩ →
      later.tokens.length < input.tokens.length → Items stop item later as rest events' →
      Items stop item input (o.toList ++ as) rest (events ++ events')

namespace Items

theorem many_eq (items : Items stop item input as rest events) :
    many stop item input = ⟨.ok as, rest, events⟩ := by
  induction items with
  | stop ends => exact many_of_stop ends
  | @item input later rest o as events events' goes first shorter _ ih =>
    rw [many_of_item goes first shorter, bind_of_ok ih]
    exact congrArg (fun after => (⟨_, rest, events ++ after⟩ : Outcome (List α))) (List.append_nil events')

/-- A list stops only where it has to. -/
theorem ends (items : Items stop item input as rest events) : stop rest.kind = true := by
  induction items with
  | stop ends => exact ends
  | item _ _ _ _ ih => exact ih

end Items

end Many

/-- A list ends where recovery would keep a token at least, so no item begins there. -/
def Ends (stop : TokenKind → Bool) (enclosed : Bool) : Prop :=
  ∀ kind, stop kind = false → kind ≠ .eof ∧ ¬ (kind = .rightBrace ∧ enclosed = true)

theorem Ends.stops {enclosed : Bool} (ends : Ends stop enclosed) {kind : TokenKind}
    (isBrace : kind = .rightBrace) (isEnclosed : enclosed = true) : stop kind = true := by
  cases goes : stop kind with
  | true => rfl
  | false => exact absurd ⟨isBrace, isEnclosed⟩ (ends kind goes).2

theorem ends_body (enclosed : Bool) : Ends endsBody enclosed := by
  intro kind goes
  rw [endsBody, decide_eq_false_iff_not, not_or] at goes
  exact ⟨goes.2, fun kept => goes.1 kept.1⟩

theorem ends_input : Ends (· = .eof) false := fun _ goes => ⟨of_decide_eq_false goes, nofun⟩

theorem recovering_ok (site : RecoverySite) (enclosed : Bool) (p : Parse α) (input : Input) :
    ∃ o, (recovering site enclosed p input).result = .ok o := by
  rw [recovering]
  rcases p input with ⟨e | a, rest, events⟩
  · exact ⟨none, rfl⟩
  · exact ⟨some a, rfl⟩

section Recovering

variable {p : Parse α} (takes : Takes p) (forward : Forward p) {enclosed : Bool} (ends : Ends stop enclosed)
include takes forward ends

theorem Ends.shorter (site : RecoverySite) (input : Input) (goes : stop input.kind = false) :
    (recovering site enclosed p input).rest.tokens.length < input.tokens.length :=
  takes.recovering forward site (ends _ goes).1 (ends _ goes).2

/-- A list of items that recover goes through all its items. -/
theorem Ends.items (site : RecoverySite) (input : Input) :
    ∃ as rest events, Items stop (recovering site enclosed p) input as rest events := by
  induction size : input.tokens.length using Nat.strongRecOn generalizing input with
  | _ size ih =>
    subst size
    cases goes : stop input.kind with
    | true => exact ⟨[], input, [], .stop goes⟩
    | false =>
      have shorter := ends.shorter takes forward site input goes
      obtain ⟨o, isOk⟩ := recovering_ok site enclosed p input
      rcases run : recovering site enclosed p input with ⟨result, later, events⟩
      rw [run] at shorter isOk
      obtain rfl : result = .ok o := isOk
      obtain ⟨as, rest, events', others⟩ := ih _ shorter later rfl
      exact ⟨_, _, _, .item goes run shorter others⟩

end Recovering

end LoxFrontEnd.Parse
