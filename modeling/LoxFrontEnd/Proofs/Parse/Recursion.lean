import LoxFrontEnd.Proofs.Parse.Reading

/-!
Rules that are tied to themselves. A property that a rule hands on from its calls to itself holds of
every reading. Where a call stands behind a token that was taken, the guard of `recursive` lets it pass.
-/

namespace LoxFrontEnd.Parse

variable {α β ι : Type} {input later rest : Input}

/-- The calls that a rule tied to itself may make from an input with so many tokens. -/
def guarded (rule : (ι → Parse α) → ι → Parse α) (bound : Nat) (i : ι) : Parse α := fun later =>
  if later.tokens.length < bound then recursive rule i later else unexpected .shallowNesting later

theorem recursive_apply (rule : (ι → Parse α) → ι → Parse α) (i : ι) (input : Input) :
    recursive rule i input = rule (guarded rule input.tokens.length) i input := by
  rw [recursive]
  rfl

theorem guarded_of_lt {rule : (ι → Parse α) → ι → Parse α} {bound : Nat} {i : ι}
    (shorter : later.tokens.length < bound) : guarded rule bound i later = recursive rule i later :=
  if_pos shorter

/-- What one turn of a rule hands on from its calls to itself, and what a refused call has, every
outcome of the recursion has. The induction is on the number of tokens, since the guard lets only
calls on shorter inputs pass. -/
theorem recursive_induction {rule : (ι → Parse α) → ι → Parse α} {P : ι → Input → Outcome α → Prop}
    (refused : ∀ i input, P i input (unexpected .shallowNesting input))
    (turn : ∀ again : ι → Parse α, (∀ i input, P i input (again i input)) →
      ∀ i input, P i input (rule again i input))
    (i : ι) (input : Input) : P i input (recursive rule i input) := by
  induction size : input.tokens.length using Nat.strongRecOn generalizing i input with
  | _ size ih =>
    subst size
    rw [recursive_apply]
    refine turn _ (fun j later => ?_) i input
    by_cases shorter : later.tokens.length < input.tokens.length
    · rw [guarded_of_lt shorter]
      exact ih _ shorter j later rfl
    · rw [guarded, if_neg shorter]
      exact refused j later

theorem Reads.congr {p q : Parse α} {a : α} (same : p input = q input) (read : Reads p input a rest) :
    Reads q input a rest := by
  obtain ⟨events, run, clean⟩ := read
  exact ⟨events, same ▸ run, clean⟩

/-- What one turn of a rule hands on, every reading of the recursion has. -/
theorem reads_recursive {rule : (ι → Parse α) → ι → Parse α} {P : ι → Input → α → Input → Prop}
    (turn : ∀ again : ι → Parse α,
      (∀ i input a rest, Reads (again i) input a rest → P i input a rest) →
      ∀ i input a rest, Reads (rule again i) input a rest → P i input a rest)
    {i : ι} {a : α} (read : Reads (recursive rule i) input a rest) : P i input a rest := by
  refine recursive_induction (P := fun i input outcome => ∀ events a rest, outcome = ⟨.ok a, rest, events⟩ →
    events.filterMap Event.error? = [] → P i input a rest) nofun
    (fun again ih i input events a rest run clean => ?_)
    i input read.choose a rest read.choose_spec.1 read.choose_spec.2
  refine turn again (fun i input a rest called => ?_) i input a rest ⟨events, run, clean⟩
  obtain ⟨events', run', clean'⟩ := called
  exact ih i input events' a rest run' clean'

section Steps

variable {step : α → Parse (Option α)} {a b c : α}

theorem Reads.steps_stop (last : Reads (step a) input none rest) : Reads (steps step a) input a rest := by
  refine Reads.congr (recursive_apply _ a input).symm (last.bind ?_)
  exact .pure

theorem Reads.steps_next (first : Reads (step a) input (some b) later)
    (shorter : later.tokens.length < input.tokens.length) (next : Reads (steps step b) later c rest) :
    Reads (steps step a) input c rest := by
  refine Reads.congr (recursive_apply _ a input).symm (first.bind ?_)
  exact Reads.congr (guarded_of_lt shorter).symm next

/-- A step that takes a token or more. -/
theorem Spans.steps_next {token : Token} {tokens behind : List Token} {last : Position}
    (first : Spans (step a) last (token :: tokens) (some b) behind)
    (next : Reads (steps step b) ⟨behind, placeAfter last (token :: tokens)⟩ c rest) :
    Reads (steps step a) ⟨token :: tokens ++ behind, last⟩ c rest := by
  refine Reads.steps_next first ?_ next
  simp only [List.length_append, List.length_cons]
  omega

/-- Steps that each add to a phrase make a longer phrase in the end. -/
theorem steps_phrase {Q : α → List Token → Prop}
    (grows : ∀ a input b later, Reads (step a) input (some b) later →
      ∃ taken, input.tokens = taken ++ later.tokens ∧
        ∀ before, Q a before → Q b (before ++ taken))
    (stays : ∀ a input later, Reads (step a) input none later → later = input)
    (read : Reads (steps step a) input b rest) :
    ∃ taken, input.tokens = taken ++ rest.tokens ∧
      ∀ before, Q a before → Q b (before ++ taken) := by
  refine reads_recursive (P := fun a input b rest => ∃ taken, input.tokens = taken ++ rest.tokens ∧
    ∀ before, Q a before → Q b (before ++ taken)) ?_ read
  intro again ih a input b rest read
  obtain ⟨o, later, first, next⟩ := reads_bind.mp read
  cases o with
  | none =>
    obtain ⟨rfl, rfl⟩ := reads_pure.mp next
    refine ⟨[], by rw [stays _ _ _ first]; rfl, fun before known => ?_⟩
    rwa [List.append_nil]
  | some b' =>
    obtain ⟨taken, front, longer⟩ := grows _ _ _ _ first
    obtain ⟨taken', front', longer'⟩ := ih _ _ _ _ next
    refine ⟨taken ++ taken', by rw [front, front', List.append_assoc], fun before known => ?_⟩
    rw [← List.append_assoc]
    exact longer' _ (longer _ known)

end Steps

section Separated

variable {item : Parse α} {a : α} {as : List α}

theorem Reads.separated_last (only : Reads item input a rest) (other : rest.kind ≠ .comma) :
    Reads (separated item) input [a] rest := by
  refine Reads.congr (recursive_apply _ () input).symm (only.bind (.passed other ?_))
  exact .pure

theorem Reads.separated_more {comma : Token} {tokens : List Token} {last : Position}
    (first : Reads item input a ⟨comma :: tokens, last⟩) (isComma : comma.kind = .comma)
    (shorter : tokens.length < input.tokens.length)
    (next : Reads (separated item) ⟨tokens, comma.position⟩ as rest) :
    Reads (separated item) input (a :: as) rest := by
  refine Reads.congr (recursive_apply _ () input).symm (first.bind (.accepted isComma ?_))
  exact Reads.bind (Reads.congr (guarded_of_lt shorter).symm next) .pure

theorem Spans.separated_more {comma : Token} {first others rest : List Token} {last : Position}
    (read : Spans item last first a (comma :: (others ++ rest))) (isComma : comma.kind = .comma)
    (next : Spans (separated item) comma.position others as rest) :
    Spans (separated item) last (first ++ comma :: others) (a :: as) rest := by
  rw [Spans, List.append_assoc, placeAfter_append]
  refine Reads.separated_more read isComma ?_ next
  simp only [List.length_append, List.length_cons]
  omega

/-- Where the list is not empty, the mark behind it plays no part. -/
theorem reads_separatedUnless {stop : TokenKind} (other : input.kind ≠ stop) :
    Reads (separatedUnless stop item) input as rest ↔ Reads (separated item) input as rest := by
  rw [separatedUnless, reads_peek_bind, if_neg other]

theorem Reads.separatedUnless_nil {stop : TokenKind} (ends : input.kind = stop) :
    Reads (separatedUnless stop item) input [] input := by
  rw [separatedUnless, reads_peek_bind, if_pos ends]
  exact .pure

end Separated

section Many

variable {stop : TokenKind → Bool} {item : Parse (Option α)} {a : α} {as : List α}

theorem Reads.many_stop (ends : stop input.kind = true) : Reads (many stop item) input [] input := by
  refine Reads.congr (recursive_apply _ () input).symm (reads_peek_bind.mpr ?_)
  rw [if_pos ends]
  exact .pure

theorem Reads.many_next (goes : stop input.kind = false) (first : Reads item input (some a) later)
    (shorter : later.tokens.length < input.tokens.length)
    (next : Reads (many stop item) later as rest) : Reads (many stop item) input (a :: as) rest := by
  refine Reads.congr (recursive_apply _ () input).symm (reads_peek_bind.mpr ?_)
  rw [if_neg (by rw [goes]; exact Bool.false_ne_true)]
  exact first.bind (Reads.bind (Reads.congr (guarded_of_lt shorter).symm next) .pure)

theorem Spans.many_next {token : Token} {tokens others rest : List Token} {last : Position}
    (goes : stop token.kind = false) (first : Spans item last (token :: tokens) (some a) (others ++ rest))
    (next : Spans (many stop item) (placeAfter last (token :: tokens)) others as rest) :
    Spans (many stop item) last (token :: tokens ++ others) (a :: as) rest := by
  rw [Spans, List.append_assoc, placeAfter_append]
  refine Reads.many_next goes first ?_ next
  simp only [List.length_append, List.length_cons]
  omega

/-- Items are read up to a token that ends them. -/
theorem Reads.many_ends (read : Reads (many stop item) input as rest) : stop rest.kind = true := by
  refine reads_recursive (P := fun (_ : Unit) _ (_ : List α) rest => stop rest.kind = true) ?_ read
  intro again ih _ input as rest read
  rw [reads_peek_bind] at read
  split at read
  next ends =>
    obtain ⟨rfl, rfl⟩ := reads_pure.mp read
    exact ends
  next =>
    obtain ⟨o, later, _, next⟩ := reads_bind.mp read
    obtain ⟨others, later', more, last⟩ := reads_bind.mp next
    obtain ⟨rfl, rfl⟩ := reads_pure.mp last
    exact ih _ _ _ _ more

/-- The first of the items is read in front of the others. -/
theorem Reads.many_cons {p : Parse α} {site : RecoverySite} {enclosed : Bool}
    (read : Reads (many stop (recovering site enclosed p)) input (a :: as) rest) :
    ∃ later, Reads p input a later ∧ Reads (many stop (recovering site enclosed p)) later as rest := by
  have turn := read.congr (recursive_apply _ () input)
  rw [reads_peek_bind] at turn
  split at turn
  · cases (reads_pure.mp turn).1
  · obtain ⟨o, later, first, next⟩ := reads_bind.mp turn
    obtain ⟨b, rfl, one⟩ := reads_recovering.mp first
    obtain ⟨others, later', again, last⟩ := reads_bind.mp next
    obtain ⟨same, rfl⟩ := reads_pure.mp last
    cases same
    refine ⟨later, one, ?_⟩
    by_cases shorter : later.tokens.length < input.tokens.length
    · exact again.congr (guarded_of_lt shorter)
    · exact absurd (again.congr (if_neg shorter)) not_reads_unexpected

theorem Reads.many_nil {p : Parse α} {site : RecoverySite} {enclosed : Bool}
    (read : Reads (many stop (recovering site enclosed p)) input [] rest) : rest = input := by
  have turn := read.congr (recursive_apply _ () input)
  rw [reads_peek_bind] at turn
  split at turn
  · exact (reads_pure.mp turn).2
  · obtain ⟨o, later, first, next⟩ := reads_bind.mp turn
    obtain ⟨b, rfl, -⟩ := reads_recovering.mp first
    obtain ⟨others, later', again, last⟩ := reads_bind.mp next
    cases (reads_pure.mp last).1

end Many

end LoxFrontEnd.Parse
