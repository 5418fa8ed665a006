import LoxFrontEnd.Proofs.Parse.Calls

/-!
The order of errors. Where a list of tokens ends with a mark, each error blames one token, errors
blame tokens in the order in which these stand, and no token but the mark is blamed twice. Recovery
takes the token at fault, unless it closes a body; then the body ends there and its own brace is
taken, so this token is not blamed again either.
-/

namespace LoxFrontEnd

/-- What an error in front of these tokens is placed at: the next token, or the mark where none is left. -/
def Blames (mark : Token) : List Token → ParseError → Prop
  | [], e => ∃ expected, e = .unexpectedToken expected .endOfInput mark.position
  | token :: _, e => e.position = token.position

/-- On the way from these tokens to those, the errors blame one token after another. -/
inductive Passes (mark : Token) : List Token → List Token → List ParseError → Prop
  | refl {left : List Token} : Passes mark left left []
  | take {token : Token} {left left' : List Token} {errors : List ParseError} :
      Passes mark left left' errors → Passes mark (token :: left) left' errors
  | blame {left left' : List Token} {e : ParseError} {errors : List ParseError} :
      Blames mark left e → Passes mark left.tail left' errors → Passes mark left left' (e :: errors)

/-- The input in front of the mark, or behind it, with no other end mark in it. -/
inductive Ahead (mark : Token) : List Token → Input → Prop
  | front {left : List Token} {last : Position} : (∀ token ∈ left, token.kind ≠ .eof) →
      Ahead mark left ⟨left ++ [mark], last⟩
  | behind : Ahead mark [] ⟨[], mark.position⟩

namespace Passes

variable {mark : Token} {left left' left'' : List Token} {errors errors' : List ParseError} {e : ParseError}

theorem trans (first : Passes mark left left' errors) (second : Passes mark left' left'' errors') :
    Passes mark left left'' (errors ++ errors') := by
  induction first with
  | refl => exact second
  | take _ ih => exact .take (ih second)
  | blame blames _ ih => exact .blame blames (ih second)

/-- The next token is blamed, and passed. -/
theorem blame_next (first : Passes mark left left' errors) (blames : Blames mark left' e)
    (second : Passes mark left'.tail left'' errors') : Passes mark left left'' (errors ++ e :: errors') :=
  first.trans (.blame blames second)

theorem tail : Passes mark left left.tail [] := by
  cases left with
  | nil => exact .refl
  | cons token left => exact .take .refl

theorem suffix (passes : Passes mark left left' errors) : left' <:+ left := by
  induction passes with
  | refl => exact List.suffix_rfl
  | take _ ih => exact ih.trans (List.suffix_cons _ _)
  | blame _ _ ih => exact ih.trans (List.tail_suffix _)

end Passes

namespace Ahead

variable {mark : Token} (isMark : mark.kind = .eof) {left : List Token} {input : Input}
include isMark

/-- An error at the next token blames it. -/
theorem blames (ahead : Ahead mark left input) (expected : Expected) :
    Blames mark left (input.unexpected expected) := by
  cases ahead with
  | behind => exact ⟨expected, rfl⟩
  | front inner =>
    cases left with
    | cons token left => exact rfl
    | nil =>
      refine ⟨expected, ?_⟩
      show ParseError.unexpectedToken expected (if mark.kind = .eof then _ else _) mark.position = _
      rw [if_pos isMark]

/-- Only the mark is an end of input. -/
theorem kind_eq_eof (ahead : Ahead mark left input) : input.kind = .eof ↔ left = [] := by
  cases ahead with
  | behind => exact ⟨fun _ => rfl, fun _ => rfl⟩
  | front inner =>
    cases left with
    | nil => exact ⟨fun _ => rfl, fun _ => isMark⟩
    | cons token left => exact ⟨fun ends => absurd ends (inner token (List.mem_cons_self ..)), nofun⟩

/-- Where no token is taken, the next token is the same. -/
theorem kind_eq {left' : List Token} {later : Input} {errors : List ParseError}
    (ahead : Ahead mark left input) (ahead' : Ahead mark left' later)
    (passes : Passes mark left left' errors) (longer : ¬ later.tokens.length < input.tokens.length)
    (some : later.kind ≠ .eof) : later.kind = input.kind := by
  have left'_some : left' ≠ [] := fun none => some ((ahead'.kind_eq_eof isMark).mpr none)
  cases ahead' with
  | behind => exact absurd rfl left'_some
  | front =>
    cases ahead with
    | behind => exact absurd (List.suffix_nil.mp passes.suffix) left'_some
    | front =>
      simp only [List.length_append, List.length_singleton, Nat.add_lt_add_iff_right, Nat.not_lt] at longer
      obtain rfl := passes.suffix.eq_of_length_le longer
      cases left' <;> rfl

omit isMark in
theorem takeSome {α : Type} (ahead : Ahead mark left input) (choose : Token → Option α) :
    ∃ o left' rest, Parse.takeSome choose input = ⟨.ok o, rest, []⟩ ∧ Ahead mark left' rest ∧
      Passes mark left left' [] := by
  cases ahead with
  | behind => exact ⟨none, [], _, rfl, .behind, .refl⟩
  | @front _ last inner =>
    cases left with
    | nil =>
      cases chosen : choose mark with
      | none => exact ⟨none, [], _, Parse.takeSome_of_none chosen, .front inner, .refl⟩
      | some a => exact ⟨some a, [], _, Parse.takeSome_of_some chosen, .behind, .refl⟩
    | cons token left =>
      cases chosen : choose token with
      | none => exact ⟨none, token :: left, _, Parse.takeSome_of_none chosen, .front inner, .refl⟩
      | some a =>
        exact ⟨some a, left, _, Parse.takeSome_of_some chosen,
          .front (List.forall_mem_cons.mp inner).2, .take .refl⟩

/-- No token but the mark is of its kind, so what is taken stands in front of the mark. -/
theorem accept (ahead : Ahead mark left input) {kind : TokenKind} (notEnd : kind ≠ .eof) :
    (input.kind ≠ kind ∧ Parse.accept kind input = ⟨.ok none, input, []⟩) ∨
      ∃ token left' rest, left = token :: left' ∧ Parse.accept kind input = ⟨.ok (some token), rest, []⟩ ∧
        Ahead mark left' rest := by
  by_cases other : input.kind = kind
  · cases ahead with
    | behind => exact absurd other.symm notEnd
    | front inner =>
      cases left with
      | nil => exact absurd (other.symm.trans isMark) notEnd
      | cons token left =>
        exact Or.inr ⟨token, left, _, rfl, Parse.accept_taken other,
          .front (List.forall_mem_cons.mp inner).2⟩
  · exact Or.inl ⟨other, Parse.accept_passed other⟩

theorem skipOn (enclosed : Bool) (last : Position) (inner : ∀ token ∈ left, token.kind ≠ .eof) :
    ∃ left', Ahead mark left' (Input.skipOn enclosed last (left ++ [mark])) ∧
      Passes mark left left' [] := by
  induction left generalizing last with
  | nil =>
    rw [List.nil_append, Input.skipOn, if_pos (Or.inl isMark)]
    exact ⟨[], .front inner, .refl⟩
  | cons token left ih =>
    rw [List.cons_append, Input.skipOn]
    have inner' := (List.forall_mem_cons.mp inner).2
    split
    · exact ⟨token :: left, .front inner, .refl⟩
    split
    · exact ⟨left, .front inner', .take .refl⟩
    split
    · exact ⟨token :: left, .front inner, .refl⟩
    · obtain ⟨left', ahead, passes⟩ := ih token.position inner'
      exact ⟨left', ahead, .take passes⟩

/-- Recovery stays at a brace that closes a body, and passes any other token. -/
theorem skip (ahead : Ahead mark left input) (enclosed : Bool) :
    (input.kind = .rightBrace ∧ enclosed = true ∧ input.skip enclosed = input) ∨
      ∃ left', Ahead mark left' (input.skip enclosed) ∧ Passes mark left.tail left' [] := by
  have notBrace : mark.kind ≠ .rightBrace := by
    rw [isMark]
    exact nofun
  have notSemicolon : mark.kind ≠ .semicolon := by
    rw [isMark]
    exact nofun
  cases ahead with
  | behind => exact Or.inr ⟨[], .behind, .refl⟩
  | @front _ last inner =>
    cases left with
    | nil =>
      refine Or.inr ⟨[], ?_, .refl⟩
      rw [List.nil_append, Input.skip_cons, if_neg (fun kept => notBrace kept.1), if_neg notSemicolon]
      exact .behind
    | cons token left =>
      have inner' := (List.forall_mem_cons.mp inner).2
      rw [List.cons_append, Input.skip_cons]
      split
      next kept => exact Or.inl ⟨kept.1, kept.2, rfl⟩
      split
      · exact Or.inr ⟨left, .front inner', .refl⟩
      · obtain ⟨left', ahead, passes⟩ := skipOn isMark enclosed token.position inner'
        exact Or.inr ⟨left', ahead, passes⟩

end Ahead

namespace Parse

variable {α β : Type} {mark : Token}

/-- An outcome behind these tokens. Its errors blame the ones that it has passed; one that it fails
with may blame the next token as well. -/
inductive Orderly (mark : Token) (left : List Token) : Outcome α → Prop
  | ok {a : α} {left' : List Token} {rest : Input} {events : List Event} : Ahead mark left' rest →
      Passes mark left left' (events.filterMap Event.error?) → Orderly mark left ⟨.ok a, rest, events⟩
  | passed {e : ParseError} {left' : List Token} {rest : Input} {events : List Event} :
      Ahead mark left' rest → Passes mark left left' (events.filterMap Event.error? ++ [e]) →
      Orderly mark left ⟨.error e, rest, events⟩
  | next {e : ParseError} {left' : List Token} {rest : Input} {events : List Event} :
      Ahead mark left' rest →
      Passes mark left left' (events.filterMap Event.error?) → Blames mark left' e →
      Orderly mark left ⟨.error e, rest, events⟩

theorem Orderly.behind {left left' : List Token} {outcome : Outcome α} {events : List Event}
    (orderly : Orderly mark left' outcome)
    (first : Passes mark left left' (events.filterMap Event.error?)) :
    Orderly mark left (outcome.behind events) := by
  cases orderly with
  | ok ahead second =>
    refine .ok ahead ?_
    rw [List.filterMap_append]
    exact first.trans second
  | passed ahead second =>
    refine .passed ahead ?_
    rw [List.filterMap_append, List.append_assoc]
    exact first.trans second
  | next ahead second blames =>
    refine .next ahead ?_ blames
    rw [List.filterMap_append]
    exact first.trans second

def InOrder (mark : Token) (p : Parse α) : Prop :=
  ∀ left input, Ahead mark left input → Orderly mark left (p input)

theorem InOrder.bind {p : Parse α} {f : α → Parse β} (first : InOrder mark p)
    (next : ∀ a, InOrder mark (f a)) :
    InOrder mark (p >>= f) := by
  intro left input ahead
  have begins := first left input ahead
  rcases run : p input with ⟨e | a, rest, events⟩
  · rw [run] at begins
    rw [bind_of_error run]
    cases begins with
    | passed ahead passes => exact .passed ahead passes
    | next ahead passes blames => exact .next ahead passes blames
  · rw [run] at begins
    rw [bind_of_ok run]
    cases begins with
    | @ok _ left' _ _ ahead passes => exact (next a left' rest ahead).behind passes

theorem inOrder_pure (a : α) : InOrder mark (pure a : Parse α) := fun _ _ ahead => .ok ahead .refl

theorem inOrder_takeSome (choose : Token → Option α) : InOrder mark (takeSome choose) := by
  intro left input ahead
  obtain ⟨o, left', rest, run, ahead', passes⟩ := ahead.takeSome choose
  rw [run]
  exact .ok ahead' passes

variable (isMark : mark.kind = .eof)
include isMark

theorem inOrder_unexpected (expected : Expected) : InOrder mark (unexpected expected : Parse α) :=
  fun _ _ ahead => .next ahead .refl (ahead.blames isMark expected)

theorem inOrder_recursive {ι : Type} {rule : (ι → Parse α) → ι → Parse α}
    (turn : ∀ again : ι → Parse α, (∀ i, InOrder mark (again i)) → ∀ i, InOrder mark (rule again i))
    (i : ι) :
    InOrder mark (recursive rule i) := by
  intro left input
  exact recursive_induction
    (P := fun _ input outcome => ∀ left, Ahead mark left input → Orderly mark left outcome)
    (fun i input left => inOrder_unexpected isMark .shallowNesting left input)
    (fun again ih i input left => turn again (fun i left input => ih i input left) i left input)
    i input left

theorem inOrder_sequential : Sequential fun _ p => InOrder mark p where
  pure := inOrder_pure
  unexpected expected _ := inOrder_unexpected isMark expected
  peek := fun _ _ ahead => .ok ahead .refl
  takeSome := inOrder_takeSome
  bind := InOrder.bind
  recursive := inOrder_recursive isMark

omit isMark

/-- A rule that tells nothing on its way. -/
def Silent (p : Parse α) : Prop := ∀ input, (p input).events = []

theorem silent_sequential : Sequential @Silent where
  pure _ _ := rfl
  unexpected _ _ _ := rfl
  peek _ := rfl
  takeSome choose input := by
    obtain ⟨tokens, last⟩ := input
    cases tokens with
    | nil => rfl
    | cons token tokens =>
      cases chosen : choose token with
      | none => rw [takeSome_of_none chosen]
      | some a => rw [takeSome_of_some chosen]
  bind {_ _ p f} first next input := by
    have silent := first input
    rcases run : p input with ⟨e | a, rest, events⟩
    · rw [run] at silent
      rw [bind_of_error run]
      exact silent
    · rw [run] at silent
      rw [bind_of_ok run, Outcome.behind, next a rest]
      exact (List.append_nil events).trans silent
  recursive {_ _ rule} turn i input :=
    recursive_induction (P := fun _ _ outcome => outcome.events = []) (fun _ _ => rfl)
      (fun again ih => turn again ih) i input

/-- Expressions recover from nothing. -/
theorem silent_expression (levels : Nat) : Silent (expression levels) :=
  silent_sequential.expression
    (fun levels inner => silent_sequential.assignment (fun _ _ => rfl) inner levels) levels

/-- Behind a sign that has been taken, a rule that fails where the value ends may blame the sign,
since nothing was told on the way. -/
theorem Silent.orderly_behind {e : Parse Expr} (silent : Silent e) (inner : InOrder mark e)
    {f : Expr → Parse Expr} {sign : Token}
    (last : ∀ value rest, ∃ result, f value rest = ⟨result, rest, []⟩ ∧
      ∀ error, result = .error error → error.position = sign.position)
    {left : List Token} {later : Input} (ahead : Ahead mark left later) :
    Orderly mark (sign :: left) ((e >>= f) later) := by
  have begins := inner left later ahead
  have told := silent later
  rcases run : e later with ⟨error | value, rest, events⟩
  · rw [run] at begins
    rw [bind_of_error run]
    cases begins with
    | passed ahead passes => exact .passed ahead (.take passes)
    | next ahead passes blames => exact .next ahead (.take passes) blames
  · rw [run] at begins told
    obtain rfl : events = [] := told
    obtain ⟨result, ends, blames⟩ := last value rest
    rw [bind_of_ok run, behind_nil, ends]
    cases begins with
    | ok ahead passes =>
      cases result with
      | ok => exact .ok ahead (.take passes)
      | error error => exact .passed ahead (.blame (blames error rfl) passes)

/-- The sign of an assignment without a target is blamed when it has been passed. -/
theorem inOrder_assignment (isMark : mark.kind = .eof) {e : Parse Expr} (inner : InOrder mark e)
    (silent : Silent e) (levels : Nat) : InOrder mark (assignment e levels) := by
  refine InOrder.bind ((inOrder_sequential isMark).logicOr inner levels) fun target left input ahead => ?_
  rcases ahead.accept isMark (by decide : TokenKind.equal ≠ .eof) with
    ⟨_, passed⟩ | ⟨sign, left', later, rfl, taken, ahead'⟩
  · rw [bind_of_ok passed]
    exact .ok ahead .refl
  · rw [bind_of_ok taken, behind_nil]
    refine silent.orderly_behind inner (fun value rest => ?_) ahead'
    cases target with
    | var => exact ⟨_, rfl, nofun⟩
    | getAttr => exact ⟨_, rfl, nofun⟩
    | literal | unary | binary | logical | grouping | assign | call | setAttr | thisRef | superRef =>
      refine ⟨_, rfl, fun error same => ?_⟩
      cases same
      rfl

theorem inOrder_expression (isMark : mark.kind = .eof) (levels : Nat) : InOrder mark (expression levels) :=
  (inOrder_sequential isMark).expression
    (fun levels inner => inOrder_assignment isMark inner (silent_expression levels) levels) levels

/-- The errors of a list of items blame what the list has passed. The last one may blame the brace
that comes next where recovery keeps it. -/
inductive Arrives (mark : Token) (enclosed : Bool) (left left' : List Token) (rest : Input) :
    List ParseError → Prop
  | clean {errors : List ParseError} : Passes mark left left' errors →
      Arrives mark enclosed left left' rest errors
  | held {errors : List ParseError} {e : ParseError} : Passes mark left left' errors → Blames mark left' e →
      rest.kind = .rightBrace → enclosed = true → Arrives mark enclosed left left' rest (errors ++ [e])

theorem recovering_arrives (isMark : mark.kind = .eof) {p : Parse α} (inner : InOrder mark p)
    (site : RecoverySite) (enclosed : Bool) {left : List Token} {input : Input}
    (ahead : Ahead mark left input) :
    ∃ o rest events left', recovering site enclosed p input = ⟨.ok o, rest, events⟩ ∧
      Ahead mark left' rest ∧
      Arrives mark enclosed left left' rest (events.filterMap Event.error?) := by
  have orderly := inner left input ahead
  rw [recovering]
  rcases run : p input with ⟨e | a, rest, events⟩
  · rw [run] at orderly
    have told : (events ++ [Event.recovered site e]).filterMap Event.error? =
        events.filterMap Event.error? ++ [e] :=
      List.filterMap_append
    cases orderly with
    | @passed _ left' _ _ ahead passes =>
      rcases ahead.skip isMark enclosed with ⟨_, _, stays⟩ | ⟨left'', ahead', passes'⟩
      · refine ⟨none, _, _, left', rfl, ?_, .clean ?_⟩
        · rw [stays]
          exact ahead
        · rw [told]
          exact passes
      · refine ⟨none, _, _, left'', rfl, ahead', .clean ?_⟩
        rw [told, ← List.append_nil (_ ++ [e])]
        exact passes.trans (Passes.tail.trans passes')
    | @next _ left' _ _ ahead passes blames =>
      rcases ahead.skip isMark enclosed with ⟨isBrace, isEnclosed, stays⟩ | ⟨left'', ahead', passes'⟩
      · refine ⟨none, _, _, left', rfl, ?_, ?_⟩
        · rw [stays]
          exact ahead
        · rw [told, stays]
          exact .held passes blames isBrace isEnclosed
      · refine ⟨none, _, _, left'', rfl, ahead', .clean ?_⟩
        rw [told]
        exact passes.blame_next blames passes'
  · rw [run] at orderly
    cases orderly with
    | @ok _ left' _ _ ahead passes => exact ⟨some a, rest, events, left', rfl, ahead, .clean passes⟩

/-- What a list of items comes to. Where the guard of the recursion refuses an item, the list fails. -/
inductive Listed (mark : Token) (enclosed : Bool) (left : List Token) : Outcome α → Prop
  | ok {a : α} {left' : List Token} {rest : Input} {events : List Event} : Ahead mark left' rest →
      Arrives mark enclosed left left' rest (events.filterMap Event.error?) →
      Listed mark enclosed left ⟨.ok a, rest, events⟩
  | error {e : ParseError} {rest : Input} {events : List Event} :
      Orderly mark left (⟨.error e, rest, events⟩ : Outcome α) →
        Listed mark enclosed left ⟨.error e, rest, events⟩

theorem Listed.behind {enclosed : Bool} {left left' : List Token} {outcome : Outcome α}
    {events : List Event} (listed : Listed mark enclosed left' outcome)
    (first : Passes mark left left' (events.filterMap Event.error?)) :
    Listed mark enclosed left (outcome.behind events) := by
  cases listed with
  | error orderly => exact .error (orderly.behind first)
  | @ok a _ rest events' ahead arrives =>
    refine .ok ahead ?_
    rw [List.filterMap_append]
    generalize events'.filterMap Event.error? = errors at arrives
    cases arrives with
    | clean second => exact .clean (first.trans second)
    | held second blames isBrace isEnclosed =>
      rw [← List.append_assoc]
      exact .held (first.trans second) blames isBrace isEnclosed

theorem Listed.value {enclosed : Bool} {left : List Token} {p : Parse α} {input : Input} (f : α → β)
    (listed : Listed mark enclosed left (p input)) :
    Listed mark enclosed left ((do return f (← p) : Parse β) input) := by
  rcases run : p input with ⟨e | a, rest, events⟩
  · rw [run] at listed
    rw [bind_of_error run]
    cases listed with
    | error orderly =>
      cases orderly with
      | passed ahead passes => exact .error (.passed ahead passes)
      | next ahead passes blames => exact .error (.next ahead passes blames)
  · rw [run] at listed
    rw [bind_of_ok run]
    cases listed with
    | ok ahead arrives =>
      rw [← List.append_nil events] at arrives
      exact .ok ahead arrives

/-- A list of items goes on behind an item that blames what it has passed, and ends at a brace that an
item blames. -/
theorem many_listed (isMark : mark.kind = .eof) {p : Parse α} (inner : InOrder mark p) (site : RecoverySite)
    {stop : TokenKind → Bool} {enclosed : Bool} (ends : Ends stop enclosed) {left : List Token}
    {input : Input} (ahead : Ahead mark left input) :
    Listed mark enclosed left (many stop (recovering site enclosed p) input) := by
  induction size : input.tokens.length using Nat.strongRecOn generalizing input left with
  | _ size ih =>
    subst size
    cases goes : stop input.kind with
    | true =>
      rw [many_of_stop goes]
      exact .ok ahead (.clean .refl)
    | false =>
      obtain ⟨o, later, events, left', first, ahead', arrives⟩ :=
        recovering_arrives isMark inner site enclosed ahead
      by_cases shorter : later.tokens.length < input.tokens.length
      · rw [many_of_item goes first shorter]
        generalize told : events.filterMap Event.error? = errors at arrives
        cases arrives with
        | clean passes =>
          rw [← told] at passes
          exact ((ih _ shorter ahead' rfl).value (o.toList ++ ·)).behind passes
        | held passes blames isBrace isEnclosed =>
          have stopped :
              (do return o.toList ++ (← many stop (recovering site enclosed p)) : Parse (List α)) later =
              ⟨.ok (o.toList ++ []), later, []⟩ := bind_of_ok (many_of_stop (ends.stops isBrace isEnclosed))
          rw [stopped, Outcome.behind, List.append_nil]
          refine .ok ahead' ?_
          rw [List.append_nil, told]
          exact .held passes blames isBrace isEnclosed
      · rw [many_refused goes first shorter]
        generalize told : events.filterMap Event.error? = errors at arrives
        cases arrives with
        | clean passes =>
          rw [← told] at passes
          exact .error (.next ahead' passes (ahead'.blames isMark _))
        | held passes _ isBrace isEnclosed =>
          have same := ahead.kind_eq isMark ahead' passes shorter (by rw [isBrace]; decide)
          exact absurd ⟨same.symm.trans isBrace, isEnclosed⟩ (ends _ goes).2

/-- The brace behind a list of items is taken, whether it has been blamed or not. -/
theorem inOrder_braced (isMark : mark.kind = .eof) (site : RecoverySite) (expected : Expected) {p : Parse α}
    (inner : InOrder mark p) : InOrder mark (braced site expected p) := by
  intro left input ahead
  have listed := many_listed isMark inner site (ends_body true) ahead
  rw [braced]
  rcases run : many endsBody (recovering site true p) input with ⟨e | as, rest, events⟩
  · rw [run] at listed
    rw [bind_of_error run]
    cases listed with
    | error orderly =>
      cases orderly with
      | passed ahead passes => exact .passed ahead passes
      | next ahead passes blames => exact .next ahead passes blames
  · rw [run] at listed
    rw [bind_of_ok run]
    cases listed with
    | @ok _ left' _ _ ahead' arrives =>
      have asks := (inOrder_sequential isMark).expect_of .rightBrace (inOrder_unexpected isMark expected)
      have close := asks.bind fun _ => inOrder_pure as
      generalize told : events.filterMap Event.error? = errors at arrives
      cases arrives with
      | clean passes =>
        rw [← told] at passes
        exact (close left' rest ahead').behind passes
      | held passes blames isBrace _ =>
        have isBrace' : TokenKind.rightBrace ≠ .eof := by decide
        rcases ahead'.accept isMark isBrace' with ⟨other, _⟩ | ⟨brace, left'', later, rfl, taken, ahead''⟩
        · exact absurd isBrace other
        · have braceTaken : expect .rightBrace expected rest = ⟨.ok brace, later, []⟩ := bind_of_ok taken
          have closed : (do let _ ← expect .rightBrace expected; return as : Parse (List α)) rest =
            ⟨.ok as, later, []⟩ := bind_of_ok braceTaken
          rw [closed, Outcome.behind, List.append_nil]
          refine .ok ahead'' ?_
          rw [told]
          exact passes.blame_next blames .refl

theorem inOrder_closed (isMark : mark.kind = .eof) : Closed fun _ p => InOrder mark p where
  toSequential := inOrder_sequential isMark
  started _ := fun _ _ ahead => .ok ahead .refl
  braced site expected _ inner := inOrder_braced isMark site expected inner

theorem inOrder_declaration (isMark : mark.kind = .eof) (levels : Nat) :
    InOrder mark (declaration levels) :=
  (inOrder_closed isMark).declaration (inOrder_expression isMark) levels

/-- The declarations of a program pass all tokens in front of the mark, and their errors blame what
they pass. -/
theorem declarations_pass (isMark : mark.kind = .eof) {tokens : List Token}
    (inner : ∀ token ∈ tokens, token.kind ≠ .eof) (last : Position) :
    Passes mark tokens [] (Session.declarations ⟨tokens ++ [mark], last⟩).recovered := by
  have listed := many_listed isMark (inOrder_declaration isMark maxNesting) .declaration ends_input
    (.front inner : Ahead mark tokens ⟨tokens ++ [mark], last⟩)
  obtain ⟨ss, rest, events, items⟩ := items_declarations ⟨tokens ++ [mark], last⟩
  rw [items.many_eq] at listed
  have read : Session.declarations ⟨tokens ++ [mark], last⟩ = ⟨.ok ss, rest, events⟩ := items.many_eq
  rw [read]
  cases listed with
  | @ok _ left' _ _ ahead arrives =>
    have atEnd : left' = [] := (ahead.kind_eq_eof isMark).mp (of_decide_eq_true items.ends)
    subst atEnd
    rw [Outcome.recovered]
    generalize events.filterMap Event.error? = errors at arrives
    cases arrives with
    | clean passes => exact passes
    | held _ _ _ isEnclosed => cases isEnclosed

end Parse

/-- Errors on the way to the end: first those at tokens, each at a token further on, and then those at
the mark. -/
theorem Passes.split {mark : Token} {left left' : List Token} {errors : List ParseError}
    (passes : Passes mark left left' errors) : ∃ inner ended, errors = inner ++ ended ∧
      (inner.map ParseError.position).Sublist (left.map Token.position) ∧
      ∀ e ∈ ended, ∃ expected, e = .unexpectedToken expected .endOfInput mark.position := by
  induction passes with
  | refl => exact ⟨[], [], rfl, List.nil_sublist _, nofun⟩
  | take _ ih =>
    obtain ⟨inner, ended, rfl, sublist, atEnd⟩ := ih
    exact ⟨inner, ended, rfl, sublist.cons _, atEnd⟩
  | @blame left _ e errors blames _ ih =>
    obtain ⟨inner, ended, rfl, sublist, atEnd⟩ := ih
    cases left with
    | nil =>
      have none : inner = [] := List.map_eq_nil_iff.mp (List.sublist_nil.mp sublist)
      subst none
      exact ⟨[], e :: ended, rfl, List.nil_sublist _, List.forall_mem_cons.mpr ⟨blames, atEnd⟩⟩
    | cons token left =>
      refine ⟨e :: inner, ended, rfl, ?_, atEnd⟩
      rw [List.map_cons, List.map_cons, show e.position = token.position from blames]
      exact sublist.cons_cons _

end LoxFrontEnd
