import LoxFrontEnd.Proofs.Grammar.Productions
import LoxFrontEnd.Proofs.Parse.Recursion

/-!
Rules as a predictive parser. While a rule goes on, a list of symbols stands for what is still to
come. A rule tracks such a list: what it takes and what the list says then is all that the list said
before, as far as the next token shows; and where the rule complains about a token first, no sentence
of the list begins so.
-/

namespace LoxFrontEnd

open Grammar

/-- All errors, in order: those that were recovered from, and the one that ended it. -/
def Outcome.errors {α : Type} (outcome : Outcome α) : List ParseError :=
  outcome.recovered ++ match outcome.result with
    | .ok _ => []
    | .error e => [e]

theorem Input.kind_eq_headKind (input : Input) : input.kind = headKind input.tokens := by
  obtain ⟨tokens, last⟩ := input
  cases tokens <;> rfl

namespace Parse

variable {α β ι : Type} {stack stack' stack'' : List Symbol} {input rest rest' : Input}

/-- From one input to a later one, what is still to come has changed from one list of symbols to another. -/
def Follows (stack : List Symbol) (input : Input) (stack' : List Symbol) (rest : Input) : Prop :=
  ∃ taken, input.tokens = taken ++ rest.tokens ∧
    (∀ tokens, Spells stack' tokens → Spells stack (taken ++ tokens)) ∧
    ∀ tokens, headKind tokens = rest.kind → Spells stack (taken ++ tokens) → Spells stack' tokens

theorem Follows.refl : Follows stack input stack input :=
  ⟨[], rfl, fun _ spells => spells, fun _ _ spells => spells⟩

theorem Follows.trans (first : Follows stack input stack' rest)
    (second : Follows stack' rest stack'' rest') :
    Follows stack input stack'' rest' := by
  obtain ⟨taken, front, back, forth⟩ := first
  obtain ⟨taken', front', back', forth'⟩ := second
  refine ⟨taken ++ taken',
    by rw [front, front', List.append_assoc], fun tokens spells => ?_, fun tokens next spells => ?_⟩
  · rw [List.append_assoc]
    exact back _ (back' _ spells)
  · rw [List.append_assoc] at spells
    refine forth' tokens next (forth _ ?_ spells)
    -- the next token is the first one taken, or else the one behind both
    rw [Input.kind_eq_headKind, front']
    cases taken' with
    | nil => rwa [Input.kind_eq_headKind] at next
    | cons => rfl

theorem Follows.of_predicts (predicts : Predicts input.kind stack stack') :
    Follows stack input stack' input :=
  ⟨[], rfl, predicts.back, predicts.forth⟩

theorem follows_token {s : Symbol} {token : Token} {tokens : List Token} {last : Position}
    (ofKind : s.Matches token.kind) :
    Follows (s :: stack) ⟨token :: tokens, last⟩ stack ⟨tokens, token.position⟩ := by
  refine ⟨[token], rfl, fun _ spells => .token ofKind spells, fun _ _ spells => ?_⟩
  cases spells with
  | token _ spells => exact spells
  | expand => exact ofKind.elim

/-- What comes of a rule, where these symbols were still to come. -/
structure Judged (stack : List Symbol) (input : Input) (outcome : Outcome α)
    (after : α → List Symbol) : Prop where
  clean : ∀ a, outcome.result = .ok a → outcome.recovered = [] → Follows stack input (after a) outcome.rest
  /-- The first error names a token that nothing still to come begins with. -/
  blamed : ∀ expected found position,
    outcome.errors.head? = some (.unexpectedToken expected found position) → expected ≠ .shallowNesting →
      ∃ stack' rest, Follows stack input stack' rest ∧ ¬ Begins stack' rest.kind ∧
        rest.unexpected expected = .unexpectedToken expected found position

/-- A rule goes on from these symbols, in front of a token of a kind that `K` holds of, to those
`after` it. -/
def Tracks (K : TokenKind → Prop) (stack : List Symbol) (p : Parse α) (after : α → List Symbol) : Prop :=
  ∀ input, K input.kind → Judged stack input (p input) after

/-- Any token may come next. -/
def AnyKind : TokenKind → Prop := fun _ => True

section

variable {K : TokenKind → Prop} {p : Parse α} {f : α → Parse β} {after : α → List Symbol}
  {after' : β → List Symbol}

theorem Judged.of_follows {outcome : Outcome α} (follows : Follows stack input stack' rest)
    (judged : Judged stack' rest outcome after) : Judged stack input outcome after where
  clean a ends clean := follows.trans (judged.clean a ends clean)
  blamed expected found position first deep := by
    obtain ⟨stack'', rest', follows', none, same⟩ := judged.blamed expected found position first deep
    exact ⟨stack'', rest', follows.trans follows', none, same⟩

theorem Tracks.any (tracks : Tracks AnyKind stack p after) : Tracks K stack p after :=
  fun input _ => tracks input trivial

/-- A rule may go on with what the next token predicts. -/
theorem Tracks.predict (predicts : ∀ k, K k → Predicts k stack stack') (tracks : Tracks K stack' p after) :
    Tracks K stack p after :=
  fun input known => .of_follows (.of_predicts (predicts _ known)) (tracks input known)

theorem Tracks.bind (first : Tracks K stack p after) (next : ∀ a, Tracks AnyKind (after a) (f a) after') :
    Tracks K stack (p >>= f) after' := by
  intro input known
  have judged := first input known
  rcases run : p input with ⟨e | a, rest, events⟩
  · rw [run] at judged
    rw [bind_of_error run]
    exact ⟨nofun, judged.blamed⟩
  · rw [run] at judged
    rw [bind_of_ok run]
    have judged' := next a rest trivial
    have recovered :
        ((f a rest).behind events).recovered = events.filterMap Event.error? ++ (f a rest).recovered :=
      List.filterMap_append
    cases told : events.filterMap Event.error? with
    | nil =>
      rw [told, List.nil_append] at recovered
      have judged'' := Judged.of_follows (judged.clean a rfl told) judged'
      refine ⟨fun b ends clean => judged''.clean b ends (recovered.symm.trans clean), ?_⟩
      intro expected found position head deep
      refine judged''.blamed expected found position ?_ deep
      rw [← head, Outcome.errors, Outcome.errors, recovered]
      rfl
    | cons e errors =>
      rw [told] at recovered
      refine ⟨fun b _ clean => absurd (recovered.symm.trans clean) (List.cons_ne_nil _ _), ?_⟩
      intro expected found position head deep
      refine judged.blamed expected found position ?_ deep
      rw [Outcome.errors, recovered] at head
      rw [Outcome.errors, Outcome.recovered, told]
      exact head

theorem tracks_pure_to {a : α} (same : after a = stack) : Tracks K stack (pure a) after := by
  intro input _
  refine ⟨fun b ends _ => ?_, nofun⟩
  cases ends
  rw [same]
  exact .refl

theorem tracks_pure {a : α} : Tracks K stack (pure a) fun _ => stack :=
  tracks_pure_to rfl

theorem Tracks.map (tracks : Tracks K stack p fun _ => stack') (g : α → β) :
    Tracks K stack (g <$> p) fun _ => stack' := by
  rw [map_eq_pure_bind]
  exact tracks.bind fun a => tracks_pure

/-- Other errors than that of an unexpected token are not looked into. -/
theorem tracks_shallowNesting : Tracks K stack (unexpected .shallowNesting) after := by
  refine fun input _ => ⟨nofun, ?_⟩
  intro expected found position head deep
  cases Option.some.inj head
  exact absurd rfl deep

theorem tracks_invalidTarget {position : Position} :
    Tracks K stack (fail (.invalidAssignmentTarget position)) after :=
  fun _ _ => ⟨nofun, nofun⟩

theorem tracks_unexpected {expected : Expected} (none : ∀ k, K k → ¬ Begins stack k) :
    Tracks K stack (unexpected expected) after := by
  refine fun input known => ⟨nofun, ?_⟩
  intro expected found position head _
  cases Option.some.inj head
  exact ⟨stack, input, .refl, none _ known, rfl⟩

theorem tracks_peek {f : TokenKind → Parse β} (next : ∀ k, K k → Tracks (· = k) stack (f k) after') :
    Tracks K stack (peek >>= f) after' := by
  intro input known
  rw [bind_of_ok (rfl : peek input = ⟨.ok input.kind, input, []⟩), behind_nil]
  exact next _ known input rfl

theorem tracks_started (kind : TokenKind) : Tracks K stack (record (.started kind)) fun _ => stack :=
  fun _ _ => ⟨fun _ _ _ => .refl, nofun⟩

/-- A token is taken where the symbol for it is predicted. -/
theorem tracks_takeSome {s : Symbol} {choose : Token → Option α} {f : Option α → Parse β}
    (fits : ∀ token, (choose token).isSome = true ↔ s.Matches token.kind) (notEnd : ¬ s.Matches .eof)
    (predicts : ∀ k, K k → s.Matches k → Predicts k stack (s :: stack'))
    (taken : ∀ a, Tracks AnyKind stack' (f (some a)) after')
    (passed : Tracks (fun k => K k ∧ ¬ s.Matches k) stack (f none) after') :
    Tracks K stack (takeSome choose >>= f) after' := by
  rintro ⟨tokens, last⟩ known
  cases tokens with
  | nil =>
    rw [bind_of_ok takeSome_of_nil, behind_nil]
    exact passed _ ⟨known, notEnd⟩
  | cons token tokens =>
    cases chosen : choose token with
    | none =>
      rw [bind_of_ok (takeSome_of_none chosen), behind_nil]
      refine passed _ ⟨known, fun ofKind => ?_⟩
      rw [Input.kind_cons, ← fits, chosen] at ofKind
      exact Bool.false_ne_true ofKind
    | some a =>
      have ofKind : s.Matches token.kind := (fits token).mp (by rw [chosen]; rfl)
      rw [bind_of_ok (takeSome_of_some chosen), behind_nil]
      exact .of_follows (.of_predicts (predicts _ known ofKind))
        (.of_follows (follows_token ofKind) (taken a _ trivial))

theorem tracks_accept {kind : TokenKind} {f : Option Token → Parse β} (notEnd : kind ≠ .eof)
    (predicts : K kind → Predicts kind stack (.mark kind :: stack'))
    (taken : ∀ token, Tracks AnyKind stack' (f (some token)) after')
    (passed : Tracks (fun k => K k ∧ k ≠ kind) stack (f none) after') :
    Tracks K stack (accept kind >>= f) after' := by
  refine tracks_takeSome (s := .mark kind) (fun token => ?_) (fun isEnd => notEnd isEnd.symm)
    ?_ taken passed
  · by_cases ofKind : token.kind = kind <;> simp [ofKind, Symbol.Matches]
  · rintro k known rfl
    exact predicts known

theorem tracks_expect {kind : TokenKind} {expected : Expected} (notEnd : kind ≠ .eof) :
    Tracks K (.mark kind :: stack) (expect kind expected) fun _ => stack := by
  refine tracks_accept notEnd (fun _ => ⟨fun _ spells => spells, fun _ _ spells => spells⟩)
    (fun _ => tracks_pure) (tracks_unexpected fun k other => ?_)
  exact other.2

theorem Tracks.recovering (tracks : Tracks K stack p fun _ => stack') (site : RecoverySite)
    (enclosed : Bool) :
    Tracks K stack (recovering site enclosed p) fun _ => stack' := by
  intro input known
  have judged := tracks input known
  rcases run : p input with ⟨e | a, rest, events⟩
  · rw [run] at judged
    have told : (events ++ [Event.recovered site e]).filterMap Event.error? =
        events.filterMap Event.error? ++ [e] :=
      List.filterMap_append
    simp only [Parse.recovering, run]
    refine ⟨fun _ _ clean => ?_, fun expected found position head deep => ?_⟩
    · rw [Outcome.recovered, told] at clean
      simp at clean
    · refine judged.blamed expected found position ?_ deep
      rw [← head, Outcome.errors, Outcome.errors, Outcome.recovered, Outcome.recovered, told,
        List.append_nil]
  · rw [run] at judged
    simp only [Parse.recovering, run]
    exact ⟨fun _ _ clean => judged.clean a rfl clean, judged.blamed⟩

/-- A rule that is tied to itself tracks what one turn of it does. A call that the guard refuses is
not looked into. -/
theorem tracks_recursive {rule : (ι → Parse α) → ι → Parse α} {C : List Symbol → Prop}
    {S : List Symbol → List Symbol}
    (turn : ∀ again : ι → Parse α,
      (∀ i stack, C stack → Tracks AnyKind (S stack) (again i) fun _ => stack) →
      ∀ i stack, C stack → Tracks AnyKind (S stack) (rule again i) fun _ => stack)
    (i : ι) (holds : C stack) : Tracks AnyKind (S stack) (recursive rule i) fun _ => stack := by
  refine fun input _ => recursive_induction
    (P := fun _ input outcome => ∀ stack, C stack → Judged (S stack) input outcome fun _ => stack)
    (fun _ input stack _ => tracks_shallowNesting (K := AnyKind) input trivial)
    (fun again ih i input stack holds => ?_) i input stack holds
  exact turn again (fun i stack holds input _ => ih i input stack holds) i stack holds input trivial

end

/-- A phrase with one production goes on with it. -/
theorem predicts_only {n : Nonterminal} {k : TokenKind} (production : List Symbol)
    (shape : productions n = [production]) : Predicts k (.phrase n :: stack) (production ++ stack) :=
  predicts_production production (by simp [shape]) (by simp [shape])

/-- A phrase that may be empty is so, where it does not begin with the next token. -/
theorem predicts_skip {n : Nonterminal} {k : TokenKind} (empty : [] ∈ productions n) (other : ¬ n.Opens k) :
    Predicts k (.phrase n :: stack) stack := by
  refine predicts_production [] empty fun production member begins => ?_
  by_cases some : production = []
  · exact some
  · exact absurd (opens_of_begins production member some begins) other

/-- A phrase that may be empty is not, where nothing behind it begins with the next token. -/
theorem predicts_next {n : Nonterminal} {k : TokenKind} (production : List Symbol)
    (shape : productions n = [[], production]) (none : ¬ Begins stack k) :
    Predicts k (.phrase n :: stack) (production ++ stack) := by
  refine predicts_production production (by simp [shape]) fun production' member begins => ?_
  simp only [shape, List.mem_cons, List.not_mem_nil, or_false] at member
  rcases member with rfl | same
  · exact absurd begins none
  · exact same

/-- One production of a phrase begins with this mark, and no other one can. -/
theorem tracks_alternative {n : Nonterminal} {K : TokenKind → Prop} {kind : TokenKind}
    {f : Option Token → Parse β} {after : β → List Symbol} (others : List Symbol)
    (member : .mark kind :: others ∈ productions n)
    (only : ∀ production ∈ productions n, Begins (production ++ stack) kind →
      production = .mark kind :: others)
    (taken : ∀ token, Tracks AnyKind (others ++ stack) (f (some token)) after)
    (passed : Tracks (fun k => K k ∧ k ≠ kind) (.phrase n :: stack) (f none) after) :
    Tracks K (.phrase n :: stack) (accept kind >>= f) after := by
  refine tracks_accept ?_ (fun _ => predicts_production _ member only) taken passed
  rintro rfl
  exact end_not_mem _ member List.mem_cons_self

section Lists

variable {n : Nonterminal} {item : Parse α}

/-- A step goes on with a phrase of further ones, or ends it. -/
def afterStep (n : Nonterminal) (stack : List Symbol) : Option β → List Symbol
  | none => stack
  | some _ => .phrase n :: stack

theorem tracks_steps {step : α → Parse (Option α)}
    (one : ∀ a, Tracks AnyKind (.phrase n :: stack) (step a) (afterStep n stack)) (a : α) :
    Tracks AnyKind (.phrase n :: stack) (steps step a) fun _ => stack := by
  refine tracks_recursive (C := (· = stack)) (S := (.phrase n :: ·))
    (fun again calls a stack' same => ?_) a rfl
  subst same
  refine (one a).bind fun o => ?_
  cases o with
  | none => exact tracks_pure
  | some b => exact calls b _ rfl

theorem tracks_separated {element : Element}
    (one : Tracks AnyKind (element.symbol :: .phrase (.more element) :: stack) item
      fun _ => .phrase (.more element) :: stack)
    (none : ¬ Begins stack .comma) :
    Tracks AnyKind (element.symbol :: .phrase (.more element) :: stack)
      (separated item) fun _ => stack := by
  refine tracks_recursive (C := (· = stack)) (S := (element.symbol :: .phrase (.more element) :: ·))
    (fun again calls _ stack' same => ?_) () rfl
  subst same
  have further : Predicts .comma (.phrase (.more element) :: stack')
      (.mark .comma :: element.symbol :: .phrase (.more element) :: stack') :=
    predicts_next [.mark .comma, element.symbol, .phrase (.more element)] rfl none
  refine one.bind fun a => ?_
  refine tracks_accept (by decide) (fun _ => further) (fun _ => ?_) ?_
  · exact (calls () stack' rfl).bind fun _ => tracks_pure
  · exact .predict (fun k other => predicts_skip (by simp [productions]) other.2) tracks_pure

theorem tracks_list {element : Element} {stop : TokenKind}
    (one : Tracks AnyKind (element.symbol :: .phrase (.more element) :: .mark stop :: stack) item
      fun _ => .phrase (.more element) :: .mark stop :: stack)
    (notOpens : ¬ (Nonterminal.list element).Opens stop) (notComma : stop ≠ .comma) :
    Tracks AnyKind (.phrase (.list element) :: .mark stop :: stack) (separatedUnless stop item)
      fun _ => .mark stop :: stack := by
  refine tracks_peek fun k _ => ?_
  split
  next ends =>
    refine .predict (fun _ same => predicts_skip (by simp [productions]) ?_) tracks_pure
    rw [same, ends]
    exact notOpens
  next goes =>
    refine .predict (fun _ same => predicts_next [element.symbol, .phrase (.more element)] rfl ?_)
      (tracks_separated one ?_).any
    · rw [same]
      exact goes
    · exact fun comma => notComma comma.symm

end Lists

end Parse

end LoxFrontEnd
