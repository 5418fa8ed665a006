import LoxFrontEnd.Proofs.Machine.Basic
import LoxFrontEnd.Proofs.Parse.Items

/-!
What the machine does where it comes to an end: the same as a rule that needs no limit. The machine
has the result of the rule, its tokens are the ones that the rule leaves, the errors that the rule
recovers from stand at the end of the queue, and the counts are what they were.
-/

namespace LoxFrontEnd

namespace Registers

@[simp] theorem input_after {α : Type} (r : Registers) (outcome : Outcome α) :
    (r.after outcome).input = outcome.rest := rfl

/-- Where nothing happens, the registers stay as they are. -/
theorem after_input {α : Type} (r : Registers) (result : Except ParseError α) :
    r.after ⟨result, r.input, []⟩ = r := by
  rw [after, Outcome.recovered]
  simp only [List.filterMap_nil, List.append_nil]
  rfl

theorem after_after {α β : Type} (r : Registers) (result : Except ParseError α) (later : Input)
    (events : List Event) (outcome : Outcome β) :
    (r.after ⟨result, later, events⟩).after outcome = r.after (outcome.behind events) := by
  simp only [after, Outcome.recovered, Outcome.behind, List.filterMap_append, List.append_assoc]

end Registers

namespace Machine

variable {α β ι : Type} {limit bound : Nat} {r : Registers}

theorem bind_of_ok {m : Machine α} {f : α → Machine β} {r' : Registers} {a : α}
    (first : m limit r = some (.ok a, r')) : (m >>= f) limit r = f a limit r' := by
  show Machine.bind m f limit r = _
  rw [Machine.bind, first]

theorem bind_of_error {m : Machine α} {f : α → Machine β} {r' : Registers} {e : ParseError}
    (first : m limit r = some (.error e, r')) : (m >>= f) limit r = some (.error e, r') := by
  show Machine.bind m f limit r = _
  rw [Machine.bind, first]

protected theorem bind_assoc {γ : Type} (m : Machine α) (f : α → Machine β) (g : β → Machine γ) :
    m >>= f >>= g = m >>= fun a => f a >>= g := by
  funext limit r
  show Machine.bind (Machine.bind m f) g limit r = Machine.bind m (fun a => Machine.bind (f a) g) limit r
  unfold Machine.bind
  rcases m limit r with _ | ⟨_ | a, r'⟩ <;> rfl

/-- From these registers the machine does what the rule does. -/
def Meets (limit : Nat) (r : Registers) (m : Machine α) (p : Parse α) : Prop :=
  m limit r = some ((p r.input).result, r.after (p r.input))

section Meets

variable {m : Machine α} {p q : Parse α} {f : α → Machine β} {g : α → Parse β}

theorem meets_pure (a : α) : Meets limit r (pure a) (pure a) :=
  congrArg (fun r' => some (Except.ok a, r')) (r.after_input (.ok a)).symm

theorem meets_lift (p : Parse α) : Meets limit r (lift p) p := rfl

theorem peek_eq : peek limit r = some (.ok r.input.kind, r) :=
  congrArg (fun r' => some (Except.ok r.input.kind, r')) (r.after_input (.ok r.input.kind))

theorem Meets.congr (meets : Meets limit r m p) (same : p r.input = q r.input) : Meets limit r m q := by
  rw [Meets, ← same]
  exact meets

/-- What stands behind the first rule has to meet its counterpart only where the first rule leads. -/
theorem Meets.bind (first : Meets limit r m p)
    (next : ∀ a later events, p r.input = ⟨.ok a, later, events⟩ →
      Meets limit (r.after (p r.input)) (f a) (g a)) : Meets limit r (m >>= f) (p >>= g) := by
  rcases run : p r.input with ⟨e | a, later, events⟩
  · rw [Meets, run] at first
    rw [Meets, bind_of_error first, Parse.bind_of_error run]
    rfl
  · have goes := next a later events run
    rw [Meets, run] at first
    rw [Meets, run, Registers.input_after, Registers.after_after] at goes
    rw [Meets, bind_of_ok first, goes, Parse.bind_of_ok run]
    rfl

/-- The value is all that changes. -/
theorem Meets.value (first : Meets limit r m p) (f : α → β) :
    Meets limit r (m >>= fun a => pure (f a)) (p >>= fun a => pure (f a)) :=
  first.bind fun a _ _ _ => meets_pure (f a)

end Meets

/-- The machine does what the rule does, on all inputs of fewer tokens than `bound` and with any
counts that are allowed. -/
def Realizes (limit bound : Nat) (allowed : Counts → Prop) (m : Machine α) (p : Parse α) : Prop :=
  ∀ r : Registers, r.input.tokens.length < bound → allowed r.counts → Meets limit r m p

variable {allowed : Counts → Prop}

section Sequence

variable {m : Machine α} {p : Parse α} {f : α → Machine β} {g : α → Parse β}

theorem Realizes.mono {bound' : Nat} (realizes : Realizes limit bound' allowed m p) (le : bound ≤ bound') :
    Realizes limit bound allowed m p :=
  fun r short counted => realizes r (Nat.lt_of_lt_of_le short le) counted

theorem Realizes.weaken {allowed' : Counts → Prop} (realizes : Realizes limit bound allowed m p)
    (fewer : ∀ c, allowed' c → allowed c) : Realizes limit bound allowed' m p :=
  fun r short counted => realizes r short (fewer _ counted)

theorem realizes_pure (a : α) : Realizes limit bound allowed (pure a) (pure a) := fun _ _ _ => meets_pure a

theorem realizes_lift (p : Parse α) : Realizes limit bound allowed (lift p) p := fun _ _ _ => meets_lift p

theorem Realizes.bind (first : Realizes limit bound allowed m p) (forward : Parse.Forward p)
    (next : ∀ a, Realizes limit bound allowed (f a) (g a)) :
    Realizes limit bound allowed (m >>= f) (p >>= g) := by
  intro r short counted
  refine (first r short counted).bind fun a _ _ _ => next a _ ?_ counted
  exact Nat.lt_of_le_of_lt (forward.length_le r.input) short

theorem Realizes.value (first : Realizes limit bound allowed m p) (f : α → β) :
    Realizes limit bound allowed (m >>= fun a => pure (f a)) (p >>= fun a => pure (f a)) :=
  fun r short counted => (first r short counted).value f

theorem Realizes.map (first : Realizes limit bound allowed m p) (f : α → β) :
    Realizes limit bound allowed (f <$> m) (f <$> p) := by
  have same : f <$> p = p >>= fun a => pure (f a) := map_eq_pure_bind f p
  rw [same]
  exact first.value f

theorem realizes_lift_bind (forward : Parse.Forward p)
    (next : ∀ a, Realizes limit bound allowed (f a) (g a)) :
    Realizes limit bound allowed (lift p >>= f) (p >>= g) :=
  (realizes_lift p).bind forward next

/-- Behind a turn that has taken a token there are fewer tokens. -/
theorem Realizes.shortens_bind {m : Machine (Option α)} {p : Parse (Option α)} {f : Option α → Machine β}
    {g : Option α → Parse β} (first : Realizes limit (bound + 1) allowed m p) (forward : Parse.Forward p)
    (shortens : Parse.Shortens p) (goes : ∀ a, Realizes limit bound allowed (f (some a)) (g (some a)))
    (ends : Realizes limit (bound + 1) allowed (f none) (g none)) :
    Realizes limit (bound + 1) allowed (m >>= f) (p >>= g) := by
  intro r short counted
  refine (first r short counted).bind fun o later events run => ?_
  cases o with
  | none => exact ends _ (Nat.lt_of_le_of_lt (forward.length_le r.input) short) counted
  | some a =>
    refine goes a _ ?_ counted
    have fewer := shortens r.input a later events run
    rw [Registers.input_after, run]
    exact Nat.lt_of_lt_of_le fewer (Nat.le_of_lt_succ short)

theorem realizes_takeSome_bind {choose : Token → Option α} {f : Option α → Machine β}
    {g : Option α → Parse β} (taken : ∀ a, Realizes limit bound allowed (f (some a)) (g (some a)))
    (passed : Realizes limit (bound + 1) allowed (f none) (g none)) :
    Realizes limit (bound + 1) allowed (takeSome choose >>= f) (Parse.takeSome choose >>= g) :=
  (realizes_lift _).shortens_bind (Parse.forward_takeSome choose)
    (Parse.shortens_takeSome choose) taken passed

end Sequence

/-- That a declaration begins is no error, so it leaves nothing in the registers. -/
theorem Realizes.started {m : Machine α} {p : Parse α} (realizes : Realizes limit bound allowed m p) :
    Realizes limit bound allowed m (do Parse.record (.started (← Parse.peek)); p) :=
  realizes

section Loop

/-- A rule that calls itself only behind a token that it took needs no more turns than there are tokens. -/
theorem realizes_tie {mrule : (ι → Machine α) → ι → Machine α} {prule : (ι → Parse α) → ι → Parse α}
    (within : bound ≤ limit) (turn : ∀ fewer, fewer < bound →
      ∀ again again', (∀ i, Realizes limit fewer allowed (again i) (again' i)) →
      ∀ i, Realizes limit (fewer + 1) allowed (mrule again i) (prule again' i)) (i : ι) :
    Realizes limit bound allowed (tie mrule i) (Parse.recursive prule i) := by
  have turns (turns : Nat) :
      ∀ j, ∀ r : Registers, r.input.tokens.length < turns → r.input.tokens.length < bound →
      allowed r.counts → Meets limit r (unrolled mrule turns j) (Parse.recursive prule j) := by
    induction turns with
    | zero => exact fun _ _ short => absurd short (Nat.not_lt_zero _)
    | succ turns ih =>
      intro j r short inside counted
      refine Meets.congr ?_ (Parse.recursive_apply prule j r.input).symm
      refine turn _ inside _ _ (fun j r' short' counted' => ?_) j r (Nat.lt_succ_self _) counted
      refine (ih j r' ?_ (Nat.lt_trans short' inside) counted').congr (Parse.guarded_of_lt short').symm
      exact Nat.lt_of_lt_of_le short' (Nat.le_of_lt_succ short)
  intro r short counted
  exact turns limit i r (Nat.lt_of_lt_of_le short within) short counted

variable (within : bound ≤ limit)
include within

theorem Realizes.steps {step : α → Machine (Option α)} {step' : α → Parse (Option α)}
    (one : ∀ a, Realizes limit bound allowed (step a) (step' a)) (forward : ∀ a, Parse.Forward (step' a))
    (shortens : ∀ a, Parse.Shortens (step' a)) (a : α) :
    Realizes limit bound allowed (steps step a) (Parse.steps step' a) :=
  realizes_tie within (fun _ inside _ _ calls a =>
    ((one a).mono inside).shortens_bind (forward a) (shortens a) calls (realizes_pure a)) a

theorem Realizes.separated {item : Machine α} {item' : Parse α}
    (one : Realizes limit bound allowed item item') (forward : Parse.Forward item') :
    Realizes limit bound allowed (separated item) (Parse.separated item') := by
  refine realizes_tie within (fun fewer inside _ _ calls _ => ?_) ()
  refine (one.mono inside).bind forward fun a => realizes_takeSome_bind (fun _ => ?_) (realizes_pure [a])
  exact (calls ()).value (a :: ·)

theorem Realizes.separatedUnless {item : Machine α} {item' : Parse α}
    (one : Realizes limit bound allowed item item') (forward : Parse.Forward item') (stop : TokenKind) :
    Realizes limit bound allowed (separatedUnless stop item) (Parse.separatedUnless stop item') := by
  refine realizes_lift_bind Parse.forward_peek fun kind => ?_
  split
  · exact realizes_pure []
  · exact one.separated within forward

/-- An item has to take a token only where the loop goes on. -/
theorem Realizes.many {stop : TokenKind → Bool} {item : Machine (Option α)} {item' : Parse (Option α)}
    (one : Realizes limit bound allowed item item')
    (shorter : ∀ input, stop input.kind = false → (item' input).rest.tokens.length < input.tokens.length) :
    Realizes limit bound allowed (many stop item) (Parse.many stop item') := by
  refine realizes_tie within (fun fewer inside _ _ calls _ r short counted => ?_) ()
  refine (meets_lift Parse.peek).bind fun kind later events peeked => ?_
  cases peeked
  split
  · exact meets_pure []
  next goes =>
    have same : r.after (Parse.peek r.input) = r := r.after_input _
    rw [same]
    refine (one r (Nat.lt_of_lt_of_le short inside) counted).bind fun first _ _ _ => ?_
    have less := shorter r.input (Bool.not_eq_true _ ▸ goes)
    exact (calls ()).value (first.toList ++ ·) _ (Nat.lt_of_lt_of_le less (Nat.le_of_lt_succ short)) counted

end Loop

/-- Recovery keeps a closing brace where one is open. -/
theorem Meets.recovering {m : Machine α} {p : Parse α} (meets : Meets limit r m p) (site : RecoverySite) :
    Meets limit r (recovering m) (Parse.recovering site (0 < r.counts.braces) p) := by
  rcases outcome : p r.input with ⟨e | a, later, events⟩
  · rw [Meets, outcome] at meets
    rw [Meets, Machine.recovering, meets, Parse.recovering, outcome]
    simp only [Registers.after, Outcome.recovered, List.filterMap_append, List.append_assoc]
    rfl
  · rw [Meets, outcome] at meets
    rw [Meets, Machine.recovering, meets, Parse.recovering, outcome]
    rfl

theorem Realizes.recovering {m : Machine α} {p : Parse α} (realizes : Realizes limit bound allowed m p)
    (site : RecoverySite) {enclosed : Bool} (open' : ∀ c, allowed c → decide (0 < c.braces) = enclosed) :
    Realizes limit bound allowed (recovering m) (Parse.recovering site enclosed p) := by
  intro r short counted
  rw [← open' _ counted]
  exact (realizes r short counted).recovering site

/-- A brace is closed again behind a rule that does not fail. -/
theorem Meets.opened {m : Machine α} {p : Parse α} {s : Session} {c : Counts} {a : α}
    (inner : Meets limit ⟨s, c.openBrace⟩ m p) (isOk : (p s.input).result = .ok a) :
    Meets limit ⟨s, c⟩ (opened m) p := by
  have raised : count .openBrace limit ⟨s, c⟩ = some (.ok (), ⟨s, c.openBrace⟩) := rfl
  rcases run : p s.input with ⟨result, rest, events⟩
  have read : p (Registers.input ⟨s, c.openBrace⟩) = ⟨result, rest, events⟩ := run
  rw [run] at isOk
  obtain rfl : result = .ok a := isOk
  rw [Meets, read] at inner
  have read' : p (Registers.input ⟨s, c⟩) = ⟨.ok a, rest, events⟩ := run
  rw [Meets, read', Machine.opened, bind_of_ok raised, bind_of_ok inner]
  rfl

/-- So many levels of nesting are left. -/
def OnLevel (levels : Nat) (c : Counts) : Prop := maxNesting - c.nesting = levels

theorem realizes_nested_zero (m : Machine α) :
    Realizes limit bound (OnLevel 0) (nested m) (Parse.unexpected .shallowNesting) := by
  intro r _ counted
  have spent : maxNesting ≤ r.counts.nesting := Nat.le_of_sub_eq_zero counted
  rw [Meets, nested, if_pos spent]
  rfl

/-- One level deeper there is one level less. -/
theorem Realizes.nested {levels : Nat} {m : Machine α} {p : Parse α}
    (inner : Realizes limit bound (OnLevel levels) m p) :
    Realizes limit bound (OnLevel (levels + 1)) (nested m) p := by
  intro r short counted
  unfold OnLevel at counted
  have left : ¬ maxNesting ≤ r.counts.nesting := by omega
  have deeper : OnLevel levels r.counts.enter := by
    show maxNesting - (r.counts.nesting + 1) = levels
    omega
  have run := inner ⟨r.session, r.counts.enter⟩ short deeper
  rw [Meets, Machine.nested, if_neg left, run]
  rfl

end Machine

end LoxFrontEnd
