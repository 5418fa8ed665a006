import LoxFrontEnd.Proofs.Parse.Parallel
import LoxFrontEnd.Proofs.Parse.StatementComplete

/-!
Simple statements: those without braces, well-formed or not. A declaration that is asked for at one ends
with the mark behind it or fails in front of the mark, and does so whatever stands behind. So what it
does is what it does to the statement alone, and recovery skips the rest of the statement and no more.
-/

namespace LoxFrontEnd

open Grammar

namespace Parse

variable {α β : Type} {mark : Token} {rest rest' tokens : List Token}

/-- A rule fails in front of these tokens and has recovered from nothing on the way. -/
def Fails (p : Parse α) (input : Input) (e : ParseError) (tokens : List Token) : Prop :=
  ∃ place events, p input = ⟨.error e, ⟨tokens, place⟩, events⟩ ∧ events.filterMap Event.error? = []

/-- A rule ends at the mark, whatever stands behind it: it reads the same value up to a semicolon, or
fails with the same error somewhere in front of the mark. -/
def Settles (mark : Token) (rest rest' tokens : List Token) (p : Parse α) : Prop :=
  ∀ last last',
    (mark.kind = .semicolon ∧ ∃ a, Reads p ⟨tokens ++ mark :: rest, last⟩ a ⟨rest, mark.position⟩ ∧
      Reads p ⟨tokens ++ mark :: rest', last'⟩ a ⟨rest', mark.position⟩) ∨
    ∃ e left, left <:+ tokens ∧ Fails p ⟨tokens ++ mark :: rest, last⟩ e (left ++ mark :: rest) ∧
      Fails p ⟨tokens ++ mark :: rest', last'⟩ e (left ++ mark :: rest')

theorem Fails.behind {p : Parse α} {f : α → Parse β} {input later : Input} {a : α} {e : ParseError}
    {events : List Event} (run : p input = ⟨.ok a, later, events⟩)
    (clean : events.filterMap Event.error? = []) (fails : Fails (f a) later e tokens) :
    Fails (p >>= f) input e tokens := by
  obtain ⟨place, events', run', clean'⟩ := fails
  refine ⟨place, events ++ events', ?_, ?_⟩
  · rw [bind_of_ok run, run']
    rfl
  · rw [List.filterMap_append, clean, clean', List.append_nil]

/-- What stands behind the mark plays no part in where a rule goes on. -/
theorem Settles.behind {p : Parse α} {f : α → Parse β} {a : α} {left : List Token} {events : List Event}
    (within : left <:+ tokens)
    (run : ∀ rest last, ∃ place,
      p ⟨tokens ++ mark :: rest, last⟩ = ⟨.ok a, ⟨left ++ mark :: rest, place⟩, events⟩)
    (clean : events.filterMap Event.error? = []) (next : Settles mark rest rest' left (f a)) :
    Settles mark rest rest' tokens (p >>= f) := by
  intro last last'
  obtain ⟨place, first⟩ := run rest last
  obtain ⟨place', first'⟩ := run rest' last'
  rcases next place place' with ⟨ends, b, read, read'⟩ | ⟨e, left', within', fails, fails'⟩
  · exact Or.inl ⟨ends, b, (reads_bind_of_ok first clean).mpr read,
      (reads_bind_of_ok first' clean).mpr read'⟩
  · exact Or.inr ⟨e, left', within'.trans within, fails.behind first clean, fails'.behind first' clean⟩

theorem Parallel.settles_bind {p : Parse α} {f : α → Parse β} (first : Parallel mark rest rest' p p)
    (next : ∀ a left, left <:+ tokens → Settles mark rest rest' left (f a)) :
    Settles mark rest rest' tokens (p >>= f) := by
  intro last last'
  obtain ⟨result, left, place, place', within, run, run'⟩ := first tokens last last'
  cases result with
  | error e =>
    exact Or.inr ⟨e, left, within, ⟨place, [], bind_of_error run, rfl⟩,
      ⟨place', [], bind_of_error run', rfl⟩⟩
  | ok a =>
    rcases next a left within place place' with ⟨ends, b, read, read'⟩ | ⟨e, left', within', fails, fails'⟩
    · exact Or.inl ⟨ends, b, (reads_bind_of_ok run rfl).mpr read, (reads_bind_of_ok run' rfl).mpr read'⟩
    · exact Or.inr ⟨e, left', within'.trans within, fails.behind run rfl, fails'.behind run' rfl⟩

theorem settles_accept {kind : TokenKind} {f : Option Token → Parse β} (other : mark.kind ≠ kind)
    (taken : ∀ token others, tokens = token :: others → token.kind = kind →
      Settles mark rest rest' others (f (some token)))
    (passed : Settles mark rest rest' tokens (f none)) :
    Settles mark rest rest' tokens (accept kind >>= f) := by
  cases tokens with
  | nil => exact .behind List.suffix_rfl (fun rest last => ⟨last, accept_passed other⟩) rfl passed
  | cons token others =>
    by_cases ofKind : token.kind = kind
    · exact .behind (List.suffix_cons token others)
        (fun rest last => ⟨token.position, accept_taken ofKind⟩) rfl (taken token others rfl ofKind)
    · exact .behind List.suffix_rfl (fun rest last => ⟨last, accept_passed ofKind⟩) rfl passed

theorem settles_unexpected (expected : Expected) :
    Settles mark rest rest' tokens (unexpected expected : Parse α) := by
  intro last last'
  refine Or.inr ⟨_, tokens, List.suffix_rfl, ⟨last, [], rfl, rfl⟩, ⟨last', [], ?_, rfl⟩⟩
  rw [unexpected, unexpected_before_mark]

/-- The semicolon that ends a statement is the mark, or there is none. -/
theorem settles_semicolon (none : ∀ token ∈ tokens, token.kind ≠ .semicolon) (expected : Expected) (a : α) :
    Settles mark rest rest' tokens (do let _ ← expect .semicolon expected; return a) := by
  intro last last'
  by_cases ends : tokens = [] ∧ mark.kind = .semicolon
  · obtain ⟨rfl, isMark⟩ := ends
    exact Or.inl ⟨isMark, a, .expected isMark .pure, .expected isMark .pure⟩
  · have other (rest : List Token) (last : Position) :
        Input.kind ⟨tokens ++ mark :: rest, last⟩ ≠ .semicolon := by
      cases tokens with
      | nil => exact fun isMark => ends ⟨rfl, isMark⟩
      | cons token others => exact none token List.mem_cons_self
    refine Or.inr ⟨_, tokens, List.suffix_rfl,
      ⟨last, [], bind_of_error (expect_refused (other rest last)), rfl⟩, ⟨last', [], ?_, rfl⟩⟩
    rw [bind_of_error (expect_refused (other rest' last')), unexpected_before_mark]

end Parse

/-- The tokens of a statement without braces, up to its end. Only the first one may be of a kind that
statements begin with. -/
structure Plain (tokens : List Token) : Prop where
  noMark : ∀ token ∈ tokens, token.kind ∉ [.semicolon, .leftBrace, .rightBrace, .eof]
  opens : ∀ token ∈ tokens.head?, token.kind.startsStatement = true →
    token.kind ∈ [.kwVar, .kwPrint, .kwReturn]
  inner : ∀ token ∈ tokens.tail, token.kind.startsStatement = false

/-- A statement without braces at some depth, with the semicolon that ends it or the closing brace that
ends the block around it. -/
structure Simple where
  depth : Nat
  tokens : List Token
  mark : Token
  shallow : depth ≤ maxNesting
  plain : Plain tokens
  ends : Parse.EndsStatement mark.kind

namespace Simple

open Parse

/-- What becomes of the statement when nothing stands behind it. -/
def alone (s : Simple) : Outcome Stmt :=
  declaration (maxNesting - s.depth) ⟨s.tokens ++ [s.mark], .start⟩

def tree? (s : Simple) : Option Stmt :=
  match s.alone.result with
  | .ok tree => some tree
  | .error _ => none

def error? (s : Simple) : Option ParseError :=
  match s.alone.result with
  | .ok _ => none
  | .error e => some e

def WellFormed (s : Simple) : Prop :=
  ∃ tail tree, Derives maxNesting s.depth (.declaration tail tree) (s.tokens ++ [s.mark])

end Simple

theorem Plain.ne_semicolon {tokens : List Token} (plain : Plain tokens) :
    ∀ token ∈ tokens, token.kind ≠ .semicolon :=
  fun token member isMark => plain.noMark token member (by simp [isMark])

theorem Plain.behind {tokens left : List Token} (plain : Plain tokens) (within : left <:+ tokens) :
    ∀ token ∈ left, token.kind ≠ .semicolon :=
  fun token member => plain.ne_semicolon token (within.subset member)

/-- The first token is of no kind that only other statements begin with. -/
theorem Plain.settles_refused {α : Type} {mark : Token} {rest rest' tokens : List Token} {kind : TokenKind}
    {p : Token → Parse α} (plain : Plain tokens)
    (starts : kind = .leftBrace ∨ kind.startsStatement = true ∧ kind ∉ [.kwVar, .kwPrint, .kwReturn])
    (token : Token) (others : List Token) (front : tokens = token :: others) (ofKind : token.kind = kind) :
    Parse.Settles mark rest rest' others (p token) := by
  subst front ofKind
  rcases starts with isBrace | ⟨starts, other⟩
  · exact absurd isBrace fun isBrace => plain.noMark token List.mem_cons_self (by simp [isBrace])
  · exact absurd (plain.opens token rfl starts) other

namespace Parse

section Statement

variable {mark : Token} {rest rest' tokens : List Token} (ends : EndsStatement mark.kind)
include ends

section

variable (none : ∀ token ∈ tokens, token.kind ≠ .semicolon) (levels : Nat)
include none

theorem settles_varDeclaration : Settles mark rest rest' tokens (varDeclaration (expression levels)) := by
  refine (parallel_expect (ends.kind_ne (by decide)) _).settles_bind fun name left within => ?_
  refine (parallel_accept (ends.kind_ne (by decide))).settles_bind fun sign left' within' => ?_
  have initialized (o : Option Expr) (left : List Token) (inside : left <:+ tokens) :
      Settles mark rest rest' left (do
        let _ ← expect .semicolon .semicolonAfterVariable
        return Stmt.varDecl name.lexeme o name.position.line) :=
    settles_semicolon (fun token member => none token (inside.subset member)) _ _
  split
  · refine ((parallel_expression ends levels).map some).settles_bind fun o left'' within'' => ?_
    exact initialized o left'' (within''.trans (within'.trans within))
  · exact (parallel_pure _).settles_bind fun o left'' within'' =>
      initialized o left'' (within''.trans (within'.trans within))

theorem settles_expressionStatement :
    Settles mark rest rest' tokens (expressionStatement (expression levels)) :=
  (parallel_expression ends levels).settles_bind fun _ _ within =>
    settles_semicolon (fun token member => none token (within.subset member)) _ _

theorem settles_printStatement : Settles mark rest rest' tokens (printStatement (expression levels)) :=
  (parallel_expression ends levels).settles_bind fun _ _ within =>
    settles_semicolon (fun token member => none token (within.subset member)) _ _

theorem settles_returnStatement (keyword : Token) :
    Settles mark rest rest' tokens (returnStatement (expression levels) keyword) := by
  have value : Parallel mark rest rest' (expressionUnless (expression levels) .semicolon)
      (expressionUnless (expression levels) .semicolon) := by
    refine parallel_peek.bind fun kind => ?_
    split
    · exact parallel_pure Option.none
    · exact (parallel_expression ends levels).map some
  exact value.settles_bind fun _ _ within =>
    settles_semicolon (fun token member => none token (within.subset member)) _ _

end

variable (plain : Plain tokens) (levels : Nat)
include plain

theorem settles_statement : Settles mark rest rest' tokens (statement levels) := by
  cases levels with
  | zero => exact settles_unexpected .shallowNesting
  | succ levels =>
    refine settles_accept (ends.kind_ne (by decide)) (plain.settles_refused (by decide)) ?_
    refine settles_accept (ends.kind_ne (by decide)) (plain.settles_refused (by decide)) ?_
    refine settles_accept (ends.kind_ne (by decide)) (plain.settles_refused (by decide)) ?_
    refine settles_accept (ends.kind_ne (by decide)) ?_ ?_
    · rintro keyword others rfl _
      exact settles_returnStatement ends (plain.behind (List.suffix_cons keyword others)) levels keyword
    refine settles_accept (ends.kind_ne (by decide)) (plain.settles_refused (by decide)) ?_
    refine settles_accept (ends.kind_ne (by decide)) ?_ ?_
    · rintro keyword others rfl _
      exact settles_printStatement ends (plain.behind (List.suffix_cons keyword others)) levels
    exact settles_expressionStatement ends plain.ne_semicolon levels

theorem settles_declaration : Settles mark rest rest' tokens (declaration levels) := by
  have told (behind : List Token) (last : Position) : peek ⟨tokens ++ mark :: behind, last⟩ =
      ⟨.ok (Input.kind ⟨tokens ++ [mark], .start⟩), ⟨tokens ++ mark :: behind, last⟩, []⟩ := by
    rw [peek, kind_before_mark tokens last .start]
  rw [declaration_eq, declarationWith]
  refine Settles.behind List.suffix_rfl (fun behind last => ⟨last, told behind last⟩) rfl ?_
  refine Settles.behind List.suffix_rfl (fun behind last => ⟨last, rfl⟩) rfl ?_
  refine settles_accept (ends.kind_ne (by decide)) ?_ ?_
  · rintro keyword others rfl _
    exact settles_varDeclaration ends (plain.behind (List.suffix_cons keyword others)) levels
  refine settles_accept (ends.kind_ne (by decide)) (plain.settles_refused (by decide)) ?_
  refine settles_accept (ends.kind_ne (by decide)) (plain.settles_refused (by decide)) ?_
  exact settles_statement ends plain levels

end Statement

end Parse

namespace Simple

open Parse

variable (s : Simple) (rest : List Token) (last : Position)

/-- What becomes of the statement alone becomes of it in front of anything. -/
theorem read_or_fails :
    (s.mark.kind = .semicolon ∧ ∃ tree, s.tree? = some tree ∧ s.error? = none ∧
      Reads (declaration (maxNesting - s.depth)) ⟨s.tokens ++ s.mark :: rest, last⟩ tree
        ⟨rest, s.mark.position⟩) ∨
    ∃ e left, s.tree? = none ∧ s.error? = some e ∧ left <:+ s.tokens ∧
      Fails (declaration (maxNesting - s.depth)) ⟨s.tokens ++ s.mark :: rest, last⟩ e
        (left ++ s.mark :: rest) := by
  rcases settles_declaration s.ends s.plain (maxNesting - s.depth) .start last with
    ⟨ends, tree, ⟨events, run, _⟩, read⟩ | ⟨e, left, within, ⟨place, events, run, _⟩, fails⟩
  · exact Or.inl ⟨ends, tree, by rw [tree?, alone, run], by rw [error?, alone, run], read⟩
  · exact Or.inr ⟨e, left, by rw [tree?, alone, run], by rw [error?, alone, run], within, fails⟩

/-- A statement alone is refused exactly if the grammar does not derive it with its mark. -/
theorem error?_eq_none_iff : s.error? = none ↔ s.WellFormed := by
  have balance : s.depth + (maxNesting - s.depth) = maxNesting := Nat.add_sub_cancel' s.shallow
  constructor
  · intro accepted
    rcases s.read_or_fails [] .start with ⟨_, tree, _, _, read⟩ | ⟨e, _, _, refused, _⟩
    · obtain ⟨taken, tail, front, derives, _⟩ := declaration_yields balance _ _ _ read
      rw [List.append_nil] at front
      subst front
      exact ⟨tail, tree, derives⟩
    · cases accepted.symm.trans refused
  · rintro ⟨tail, tree, derives⟩
    have read := completeStmt_of_derives derives _ balance [] .start nofun
    rw [Spans, List.append_nil] at read
    obtain ⟨events, run, _⟩ := read
    rw [error?, alone, run]

/-- Where parsing goes on: a semicolon is part of the statement, a closing brace is not. -/
def onward : List Token :=
  if s.mark.kind = .semicolon then rest else s.mark :: rest

/-- A statement that is not empty does not begin with the end of what stands around it. -/
theorem first_kind (some : s.mark.kind = .semicolon ∨ s.tokens ≠ []) :
    Input.kind ⟨s.tokens ++ s.mark :: rest, last⟩ ≠ .eof ∧
      Input.kind ⟨s.tokens ++ s.mark :: rest, last⟩ ≠ .rightBrace := by
  cases front : s.tokens with
  | nil =>
    have isMark : s.mark.kind = .semicolon := some.resolve_right (fun more => more front)
    rw [List.nil_append, Input.kind_cons, isMark]
    exact ⟨nofun, nofun⟩
  | cons token others =>
    have kept := s.plain.noMark token (front ▸ List.mem_cons_self)
    simp only [List.mem_cons, List.not_mem_nil, or_false, not_or] at kept
    exact ⟨kept.2.2.2, kept.2.2.1⟩

theorem onward_length_lt (some : s.mark.kind = .semicolon ∨ s.tokens ≠ []) :
    (s.onward rest).length < (s.tokens ++ s.mark :: rest).length := by
  rw [onward, List.length_append, List.length_cons]
  split
  next => omega
  next other =>
    have pos := List.length_pos_iff.mpr (some.resolve_left other)
    rw [List.length_cons]
    omega

variable {s rest last} {enclosed : Bool} {left : List Token}

theorem skipOn_tokens (closes : s.mark.kind = .semicolon ∨ enclosed = true)
    (noMark : ∀ token ∈ left, token.kind ∉ [.semicolon, .leftBrace, .rightBrace, .eof])
    (inner : ∀ token ∈ left, token.kind.startsStatement = false) :
    (Input.skipOn enclosed last (left ++ s.mark :: rest)).tokens = s.onward rest := by
  induction left generalizing last with
  | nil =>
    rw [List.nil_append, Input.skipOn, onward]
    rcases s.ends with isMark | isMark
    · simp [isMark]
    · have block : enclosed = true := closes.resolve_left (by simp [isMark])
      simp [isMark, block]
  | cons token others ih =>
    have kept := noMark token List.mem_cons_self
    have plain := inner token List.mem_cons_self
    simp only [List.mem_cons, List.not_mem_nil, or_false, not_or] at kept
    rw [List.cons_append, Input.skipOn, if_neg (by simp [kept]), if_neg kept.1, if_neg (by simp [plain])]
    exact ih (fun other member => noMark other (List.mem_cons_of_mem _ member))
      fun other member => inner other (List.mem_cons_of_mem _ member)

/-- Behind an error in the statement, what is left of it is skipped, and nothing else. -/
theorem skip_tokens (closes : s.mark.kind = .semicolon ∨ enclosed = true) (within : left <:+ s.tokens) :
    (Input.skip enclosed ⟨left ++ s.mark :: rest, last⟩).tokens = s.onward rest := by
  obtain ⟨before, whole⟩ := within
  cases left with
  | nil =>
    rw [List.nil_append, Input.skip, onward]
    rcases s.ends with isMark | isMark
    · simp [isMark]
    · have block : enclosed = true := closes.resolve_left (by simp [isMark])
      simp [isMark, block]
  | cons token others =>
    have member (other : Token) (inside : other ∈ token :: others) : other ∈ s.tokens := by
      rw [← whole]
      exact List.mem_append_right before inside
    have behind (other : Token) (inside : other ∈ others) : other ∈ s.tokens.tail := by
      rw [← whole]
      cases before with
      | nil => exact inside
      | cons => exact List.mem_append_right _ (List.mem_cons_of_mem _ inside)
    have kept := s.plain.noMark token (member token List.mem_cons_self)
    simp only [List.mem_cons, List.not_mem_nil, or_false, not_or] at kept
    have goes : Input.skip enclosed ⟨token :: (others ++ s.mark :: rest), last⟩ =
        Input.skipOn enclosed token.position (others ++ s.mark :: rest) := by
      simp only [Input.skip, kept, false_and, if_false]
    rw [List.cons_append, goes]
    exact skipOn_tokens closes
      (fun other inside => s.plain.noMark other (member other (List.mem_cons_of_mem _ inside)))
      fun other inside => s.plain.inner other (behind other inside)

end Simple

end LoxFrontEnd
