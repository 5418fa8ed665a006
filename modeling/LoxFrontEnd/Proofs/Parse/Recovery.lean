import LoxFrontEnd.Proofs.Parse.Program
import LoxFrontEnd.Proofs.Parse.SimpleStatement

/-!
Recovery. A program is made of simple statements, well-formed or not, in blocks, functions and classes.
Each simple statement that is malformed costs the error that it gives alone, and nothing else: what
stands around it is parsed as if it were not there.
-/

namespace LoxFrontEnd

open Grammar

namespace Parse

variable {α β : Type}

/-- A rule reads a value, with these tokens left, and recovers from these errors on the way. -/
def Recovers (p : Parse α) (input : Input) (a : α) (left : List Token) (errors : List ParseError) : Prop :=
  ∃ place events, p input = ⟨.ok a, ⟨left, place⟩, events⟩ ∧ events.filterMap Event.error? = errors

section

variable {p : Parse α} {f : α → Parse β} {input later : Input} {a : α} {b : β} {left left' : List Token}
  {errors errors' : List ParseError}

theorem recovers_pure : Recovers (pure a : Parse α) input a input.tokens [] :=
  ⟨input.last, [], rfl, rfl⟩

theorem Recovers.bind (first : Recovers p input a left errors)
    (next : ∀ place, Recovers (f a) ⟨left, place⟩ b left' errors') :
    Recovers (p >>= f) input b left' (errors ++ errors') := by
  obtain ⟨place, events, run, rfl⟩ := first
  obtain ⟨place', events', run', rfl⟩ := next place
  refine ⟨place', events ++ events', ?_, List.filterMap_append⟩
  rw [bind_of_ok run, run']
  rfl

/-- A rule reads cleanly where there is nothing to recover from. -/
theorem Reads.recovers_bind (first : Reads p input a later) (next : Recovers (f a) later b left errors) :
    Recovers (p >>= f) input b left errors := by
  obtain ⟨events, run, clean⟩ := first
  obtain ⟨place, events', run', rfl⟩ := next
  refine ⟨place, events ++ events', ?_, ?_⟩
  · rw [bind_of_ok run, run']
    rfl
  · rw [List.filterMap_append, clean, List.nil_append]

theorem Recovers.then_pure (first : Recovers p input a left errors) (g : α → β) :
    Recovers (do let x ← p; return g x) input (g a) left errors := by
  rw [← List.append_nil errors]
  exact first.bind fun _ => recovers_pure

theorem Recovers.congr {q : Parse α} (same : p input = q input) (run : Recovers p input a left errors) :
    Recovers q input a left errors := by
  obtain ⟨place, events, run, told⟩ := run
  exact ⟨place, events, same ▸ run, told⟩

theorem Recovers.accepted {kind : TokenKind} {g : Option Token → Parse β} {token : Token}
    {tokens : List Token} {last : Position} (ofKind : token.kind = kind)
    (next : Recovers (g (some token)) ⟨tokens, token.position⟩ b left errors) :
    Recovers (accept kind >>= g) ⟨token :: tokens, last⟩ b left errors :=
  Reads.recovers_bind ⟨[], accept_taken ofKind, rfl⟩ next

theorem Recovers.passed {kind : TokenKind} {g : Option Token → Parse β} (other : input.kind ≠ kind)
    (next : Recovers (g none) input b left errors) : Recovers (accept kind >>= g) input b left errors :=
  Reads.recovers_bind ⟨[], accept_passed other, rfl⟩ next

theorem Recovers.expected {kind : TokenKind} {expected : Expected} {g : Token → Parse β} {token : Token}
    {tokens : List Token} {last : Position} (ofKind : token.kind = kind)
    (next : Recovers (g token) ⟨tokens, token.position⟩ b left errors) :
    Recovers (expect kind expected >>= g) ⟨token :: tokens, last⟩ b left errors :=
  Reads.recovers_bind ⟨[], expect_taken ofKind, rfl⟩ next

theorem Recovers.recovering (run : Recovers p input a left errors) (site : RecoverySite) (enclosed : Bool) :
    Recovers (recovering site enclosed p) input (some a) left errors := by
  obtain ⟨place, events, run, told⟩ := run
  exact ⟨place, events, by rw [Parse.recovering, run], told⟩

end

section Many

variable {stop : TokenKind → Bool} {item : Parse (Option α)} {input : Input} {o : Option α} {as : List α}
  {left left' : List Token} {errors errors' : List ParseError}

theorem Recovers.many_stop (ends : stop input.kind = true) :
    Recovers (many stop item) input [] input.tokens [] := by
  obtain ⟨events, run, told⟩ := Reads.many_stop ends
  exact ⟨input.last, events, run, told⟩

theorem Recovers.many_next (goes : stop input.kind = false) (first : Recovers item input o left errors)
    (shorter : left.length < input.tokens.length)
    (next : ∀ place, Recovers (many stop item) ⟨left, place⟩ as left' errors') :
    Recovers (many stop item) input (o.toList ++ as) left' (errors ++ errors') := by
  refine Recovers.congr (recursive_apply _ () input).symm (Reads.recovers_bind ⟨[], rfl, rfl⟩ ?_)
  rw [if_neg (by rw [goes]; exact Bool.false_ne_true)]
  refine first.bind fun place => Recovers.then_pure ?_ (o.toList ++ ·)
  exact (next place).congr (guarded_of_lt shorter).symm

end Many

end Parse

/-- The parts that an outline is made of. Their trees are without the malformed statements. -/
inductive OutlinePhrase where
  | body (ss : List Stmt)
  /-- A body with the brace that closes it. -/
  | enclosed (ss : List Stmt)
  | function (f : Function)
  | methods (fs : List Function)

/-- `Outline depth phrase tokens simples`: the tokens are a phrase at this depth, made of blocks, functions
and classes around these simple statements, which need not be well-formed. The last one in front of a
closing brace may lack its semicolon. -/
inductive Outline : Nat → OutlinePhrase → List Token → List Simple → Prop
  | empty {depth} : Outline depth (.body []) [] []
  | simple {s ss tokens simples} : s.mark.kind = .semicolon → Outline s.depth (.body ss) tokens simples →
      Outline s.depth (.body (s.tree?.toList ++ ss)) (s.tokens ++ s.mark :: tokens) (s :: simples)
  | block {depth opening inner first simples ss others simples'} : depth < maxNesting →
      opening.kind = .leftBrace → Outline (depth + 1) (.enclosed inner) first simples →
      Outline depth (.body ss) others simples' →
      Outline depth (.body (.block inner :: ss)) (opening :: (first ++ others)) (simples ++ simples')
  | funDeclaration {depth keyword f first simples ss others simples'} : keyword.kind = .kwFun →
      Outline depth (.function f) first simples → Outline depth (.body ss) others simples' →
      Outline depth (.body (.funDecl f :: ss)) (keyword :: (first ++ others)) (simples ++ simples')
  | classDeclaration {depth keyword name superclass above opening fs first simples closing ss
      others simples'} :
      keyword.kind = .kwClass → name.kind = .identifier → Superclass superclass above →
      opening.kind = .leftBrace → Outline depth (.methods fs) first simples → closing.kind = .rightBrace →
      Outline depth (.body ss) others simples' →
      Outline depth (.body (.classDecl name.lexeme superclass fs name.position.line :: ss))
        (keyword :: name :: (above ++ opening :: (first ++ closing :: others))) (simples ++ simples')
  | closed {depth ss tokens simples closing} : Outline depth (.body ss) tokens simples →
      closing.kind = .rightBrace → Outline depth (.enclosed ss) (tokens ++ [closing]) simples
  | unfinished {s ss tokens simples} : Outline s.depth (.body ss) tokens simples → s.tokens ≠ [] →
      s.mark.kind = .rightBrace →
      Outline s.depth (.enclosed ss) (tokens ++ (s.tokens ++ [s.mark])) (simples ++ [s])
  | function {depth name opening ps parameters closing brace ss tokens simples} : name.kind = .identifier →
      opening.kind = .leftParen → Parameters ps parameters → closing.kind = .rightParen →
      brace.kind = .leftBrace → Outline depth (.enclosed ss) tokens simples →
      Outline depth (.function ⟨name.lexeme, ps, ss, name.position.line⟩)
        (name :: opening :: (parameters ++ closing :: brace :: tokens)) simples
  | noMethods {depth} : Outline depth (.methods []) [] []
  | method {depth f first simples fs others simples'} : Outline depth (.function f) first simples →
      Outline depth (.methods fs) others simples' →
      Outline depth (.methods (f :: fs)) (first ++ others) (simples ++ simples')

/-- A function in an outline begins with its name. -/
theorem Outline.function_opens {depth : Nat} {f : Function} {tokens : List Token} {simples : List Simple}
    (outline : Outline depth (.function f) tokens simples) :
    ∃ name behind, tokens = name :: behind ∧ name.kind = .identifier := by
  cases outline with
  | function isName => exact ⟨_, _, rfl, isName⟩

namespace Parse

/-- A simple statement is read, or its error is recovered from, and what stands behind it is left. -/
theorem recovers_simple (s : Simple) (site : RecoverySite) {enclosed : Bool} (rest : List Token)
    (last : Position) (closes : s.mark.kind = .semicolon ∨ enclosed = true) :
    Recovers (recovering site enclosed (declaration (maxNesting - s.depth)))
      ⟨s.tokens ++ s.mark :: rest, last⟩ s.tree? (s.onward rest) s.error?.toList := by
  rcases s.read_or_fails rest last with ⟨ends, tree, isTree, accepted, events, run, clean⟩ |
    ⟨e, left, noTree, refused, within, place, events, run, clean⟩
  · rw [isTree, accepted, Simple.onward, if_pos ends]
    exact ⟨s.mark.position, events, by rw [recovering, run], clean⟩
  · refine ⟨(Input.skip enclosed ⟨left ++ s.mark :: rest, place⟩).last,
      events ++ [.recovered site e], ?_, ?_⟩
    · rw [recovering, run, noTree, ← Simple.skip_tokens closes within]
    · rw [List.filterMap_append, clean, refused]
      rfl

/-- A simple statement is an item of a body, and costs its own error at most. -/
theorem recovers_many_simple {s : Simple} {stop : TokenKind → Bool} {site : RecoverySite} {enclosed : Bool}
    {rest left : List Token} {last : Position} {ss : List Stmt} {errors : List ParseError}
    (some : s.mark.kind = .semicolon ∨ s.tokens ≠ []) (closes : s.mark.kind = .semicolon ∨ enclosed = true)
    (goes : ∀ kind, kind ≠ .eof → kind ≠ .rightBrace → stop kind = false)
    (next : ∀ place, Recovers (many stop (recovering site enclosed (declaration (maxNesting - s.depth))))
      ⟨s.onward rest, place⟩ ss left errors) :
    Recovers (many stop (recovering site enclosed (declaration (maxNesting - s.depth))))
      ⟨s.tokens ++ s.mark :: rest, last⟩ (s.tree?.toList ++ ss) left (s.error?.toList ++ errors) := by
  have first := recovers_simple s site rest last closes
  obtain ⟨notEnd, notBrace⟩ := s.first_kind rest last some
  exact .many_next (goes _ notEnd notBrace) first (s.onward_length_lt rest some) next

/-- How the rules go through the phrase of an outline, whatever stands behind it. A body is followed
by what the same rule does there. -/
def Recovered (levels : Nat) : OutlinePhrase → List Token → List ParseError → Prop
  | .body ss, tokens, errors => ∀ (stop : TokenKind → Bool) site enclosed rest last ss' left errors',
      (∀ kind, kind ≠ .eof → kind ≠ .rightBrace → stop kind = false) →
      (∀ place, Recovers (many stop (recovering site enclosed (declaration levels)))
        ⟨rest, place⟩ ss' left errors') →
      Recovers (many stop (recovering site enclosed (declaration levels)))
        ⟨tokens ++ rest, last⟩ (ss ++ ss') left (errors ++ errors')
  | .enclosed ss, tokens, errors => ∀ rest last,
      Recovers (block (declaration levels)) ⟨tokens ++ rest, last⟩ ss rest errors
  | .function f, tokens, errors => ∀ routine rest last,
      Recovers (function (declaration levels) routine) ⟨tokens ++ rest, last⟩ f rest errors
  | .methods fs, tokens, errors => ∀ rest last, Input.kind ⟨rest, last⟩ = .rightBrace →
      Recovers (many endsBody (recovering .classBody true (function (declaration levels) .method)))
        ⟨tokens ++ rest, last⟩ fs rest errors

theorem endsBody_eq_false {kind : TokenKind} (notEnd : kind ≠ .eof) (notBrace : kind ≠ .rightBrace) :
    endsBody kind = false :=
  decide_eq_false fun ends => ends.elim notBrace notEnd

section Items

variable {levels : Nat} {s : Stmt} {ss : List Stmt} {token : Token} {first tokens : List Token}
  {errors errors' : List ParseError}

theorem recovers_block {closing : Token} {rest : List Token} {last : Position}
    (items : Recovers (many endsBody (recovering .declaration true (declaration levels))) ⟨tokens, last⟩ ss
      (closing :: rest) errors)
    (closes : closing.kind = .rightBrace) :
    Recovers (block (declaration levels)) ⟨tokens, last⟩ ss rest errors := by
  rw [← List.append_nil errors]
  exact items.bind fun _ => .expected closes recovers_pure

/-- A declaration in front of a body makes a longer body. -/
theorem Recovered.item {others : List Token}
    (one : ∀ rest last, Recovers (declaration levels) ⟨token :: (first ++ rest), last⟩ s rest errors)
    (notEnd : token.kind ≠ .eof) (notBrace : token.kind ≠ .rightBrace)
    (more : Recovered levels (.body ss) others errors') :
    Recovered levels (.body (s :: ss)) (token :: (first ++ others)) (errors ++ errors') := by
  intro stop site enclosed rest last ss' left errors'' goes next
  have ahead := (one (others ++ rest) last).recovering site enclosed
  rw [List.cons_append, List.append_assoc, List.append_assoc]
  refine Recovers.many_next (goes token.kind notEnd notBrace) ahead ?_ fun place =>
    more stop site enclosed rest place ss' left errors'' goes next
  simp only [List.length_cons, List.length_append]
  omega

/-- A declaration that begins with neither `var` nor `fun` nor `class` is a statement. -/
theorem Recovers.of_statement {input : Input} {left : List Token} (notVar : input.kind ≠ .kwVar)
    (notFun : input.kind ≠ .kwFun) (notClass : input.kind ≠ .kwClass)
    (run : Recovers (statement levels) input s left errors) :
    Recovers (declaration levels) input s left errors := by
  rw [declaration_eq, declarationWith]
  refine Reads.recovers_bind ⟨[], rfl, rfl⟩ (Reads.recovers_bind ⟨[.started input.kind], rfl, rfl⟩ ?_)
  exact .passed notVar (.passed notFun (.passed notClass run))

theorem recovers_blockStatement {depth : Nat} {last : Position} {inner : List Stmt}
    (room : depth < maxNesting) (opens : token.kind = .leftBrace)
    (body : Recovered (maxNesting - (depth + 1)) (.enclosed inner) first errors) (rest : List Token) :
    Recovers (declaration (maxNesting - depth)) ⟨token :: (first ++ rest), last⟩
      (.block inner) rest errors := by
  obtain ⟨levels, fewer⟩ : ∃ levels, maxNesting - depth = levels + 1 := ⟨maxNesting - (depth + 1), by omega⟩
  have same : maxNesting - (depth + 1) = levels := by omega
  rw [same] at body
  rw [fewer]
  have read := (body rest token.position).then_pure Stmt.block
  refine .of_statement (kind_cons_ne opens (by decide)) (kind_cons_ne opens (by decide))
    (kind_cons_ne opens (by decide)) ?_
  rw [statement_succ, statementWith]
  iterate 4 refine .passed (kind_cons_ne opens (by decide)) ?_
  exact .accepted opens read

theorem recovers_funDeclaration {f : Function} {last : Position} (isFun : token.kind = .kwFun)
    (body : Recovered levels (.function f) first errors) (rest : List Token) :
    Recovers (declaration levels) ⟨token :: (first ++ rest), last⟩ (.funDecl f) rest errors := by
  have read := (body .function rest token.position).then_pure Stmt.funDecl
  rw [declaration_eq, declarationWith]
  refine Reads.recovers_bind ⟨[], rfl, rfl⟩ (Reads.recovers_bind ⟨[.started token.kind], rfl, rfl⟩ ?_)
  exact .passed (kind_cons_ne isFun (by decide)) (.accepted isFun read)

theorem recovers_classDeclaration {name opening closing : Token} {superclass : Option String}
    {above : List Token} {fs : List Function} {last : Position} (isClass : token.kind = .kwClass)
    (isName : name.kind = .identifier) (inherits : Superclass superclass above)
    (opens : opening.kind = .leftBrace) (closes : closing.kind = .rightBrace)
    (body : Recovered levels (.methods fs) first errors) (rest : List Token) :
    Recovers (declaration levels)
      ⟨token :: name :: (above ++ opening :: (first ++ closing :: rest)), last⟩
      (.classDecl name.lexeme superclass fs name.position.line) rest errors := by
  have methods := body (closing :: rest) opening.position closes
  have read (o : Option Token) : Recovers (do
      let methods ← many endsBody (recovering .classBody true (function (declaration levels) .method))
      let _ ← expect .rightBrace .braceAfterClassBody
      return Stmt.classDecl name.lexeme (o.map Token.lexeme) methods name.position.line)
      ⟨first ++ closing :: rest, opening.position⟩
      (.classDecl name.lexeme (o.map Token.lexeme) fs name.position.line) rest errors := by
    rw [← List.append_nil errors]
    exact methods.bind fun _ => .expected closes recovers_pure
  rw [declaration_eq, declarationWith]
  refine Reads.recovers_bind ⟨[], rfl, rfl⟩ (Reads.recovers_bind ⟨[.started token.kind], rfl, rfl⟩ ?_)
  refine .passed (kind_cons_ne isClass (by decide))
    (.passed (kind_cons_ne isClass (by decide)) (.accepted isClass ?_))
  refine .expected isName ?_
  cases inherits with
  | none =>
    refine .passed (kind_cons_ne opens (by decide)) (Reads.recovers_bind .pure (.expected opens ?_))
    exact read none
  | @some _ parent isLess isParent =>
    refine .accepted isLess (Reads.recovers_bind (reads_superclassName isParent) (.expected opens ?_))
    exact read (some parent)

end Items

theorem recovers_of_outline {depth : Nat} {phrase : OutlinePhrase} {tokens : List Token}
    {simples : List Simple} (outline : Outline depth phrase tokens simples) :
    Recovered (maxNesting - depth) phrase tokens (simples.filterMap Simple.error?) := by
  induction outline with
  | empty =>
    intro stop site enclosed rest last ss' left errors' _ next
    exact next last
  | @simple s ss tokens simples isMark _ ih =>
    intro stop site enclosed rest last ss' left errors' goes next
    have told :
        (s :: simples).filterMap Simple.error? = s.error?.toList ++ simples.filterMap Simple.error? := by
      rw [List.filterMap_cons]
      cases s.error? <;> rfl
    have onward : s.onward (tokens ++ rest) = tokens ++ rest := if_pos isMark
    simp only [told, List.append_assoc, List.cons_append]
    refine recovers_many_simple (Or.inl isMark) (Or.inl isMark) goes fun place => ?_
    rw [onward]
    exact ih stop site enclosed rest place ss' left errors' goes next
  | block room opens _ _ ihInner ihOthers =>
    rw [List.filterMap_append]
    exact .item (fun rest last => recovers_blockStatement room opens ihInner rest)
      (by simp [opens]) (by simp [opens]) ihOthers
  | funDeclaration isFun _ _ ihFunction ihOthers =>
    rw [List.filterMap_append]
    exact .item (fun rest last => recovers_funDeclaration isFun ihFunction rest)
      (by simp [isFun]) (by simp [isFun]) ihOthers
  | @classDeclaration _ keyword name _ above opening _ first _ closing _ others _ isClass isName
      inherits opens _ closes _ ihMethods ihOthers =>
    rw [List.filterMap_append]
    have whole : name :: (above ++ opening :: (first ++ closing :: others)) =
        name :: (above ++ opening :: (first ++ [closing])) ++ others := by
      simp only [List.cons_append, List.append_assoc, List.nil_append]
    rw [whole]
    refine .item (fun rest last => ?_) (by simp [isClass]) (by simp [isClass]) ihOthers
    simp only [List.cons_append, List.append_assoc, List.nil_append]
    exact recovers_classDeclaration isClass isName inherits opens closes ihMethods rest
  | @closed _ ss tokens simples closing _ closes ih =>
    intro rest last
    have items := ih endsBody .declaration true (closing :: rest) last [] (closing :: rest) []
      (fun _ => endsBody_eq_false) fun _ => Recovers.many_stop (endsBody_of_closes closes)
    rw [List.append_nil, List.append_nil] at items
    rw [List.append_assoc]
    exact recovers_block items closes
  | @unfinished s ss tokens simples _ some closes ih =>
    intro rest last
    have onward : s.onward rest = s.mark :: rest := if_neg (by simp [closes])
    have told : (simples ++ [s]).filterMap Simple.error? =
        simples.filterMap Simple.error? ++ (s.error?.toList ++ []) := by
      rw [List.filterMap_append, List.filterMap_cons]
      cases s.error? <;> rfl
    have noTree : s.tree? = none := by
      rcases s.read_or_fails rest last with ⟨isMark, _⟩ | ⟨_, _, none, _⟩
      · cases closes.symm.trans isMark
      · exact none
    have items := ih endsBody .declaration true (s.tokens ++ s.mark :: rest) last
      (s.tree?.toList ++ []) (s.mark :: rest)
      _ (fun _ => endsBody_eq_false) fun place => recovers_many_simple (Or.inr some) (Or.inr rfl)
        (fun _ => endsBody_eq_false) fun place => by
          rw [onward]
          exact Recovers.many_stop (endsBody_of_closes closes)
    rw [noTree, Option.toList_none, List.append_nil, List.append_nil] at items
    rw [told, List.append_assoc, List.append_assoc]
    exact recovers_block items closes
  | function isName opens parameters closes isBrace _ ih =>
    intro routine rest last
    simp only [List.append_assoc, List.cons_append]
    refine .expected isName (.expected opens ?_)
    refine Reads.recovers_bind (reads_parameters parameters (by exact closes))
      (.expected closes (.expected isBrace ?_))
    exact (ih rest _).then_pure _
  | noMethods =>
    intro rest last closed
    exact Recovers.many_stop (by rw [List.nil_append, closed]; rfl)
  | @method _ f first _ fs others _ derives _ ihFunction ihOthers =>
    intro rest last closed
    obtain ⟨name, behind, rfl, isName⟩ := derives.function_opens
    have one := (ihFunction .method (others ++ rest) last).recovering .classBody true
    rw [List.filterMap_append, List.append_assoc]
    refine Recovers.many_next ?_ one ?_ fun place => ihOthers rest place closed
    · show endsBody name.kind = false
      rw [isName]
      rfl
    · simp only [List.length_append, List.length_cons]
      omega

end Parse

namespace Session

open Parse

theorem declarations_of_outline {tokens : List Token} {mark : Token} {ss : List Stmt}
    {simples : List Simple} (outline : Outline 0 (.body ss) tokens simples) (isMark : mark.kind = .eof) :
    Recovers declarations ⟨tokens ++ [mark], .start⟩ ss [mark] (simples.filterMap Simple.error?) := by
  have goes : ∀ kind : TokenKind, kind ≠ .eof → kind ≠ .rightBrace → decide (kind = .eof) = false :=
    fun kind notEnd _ => decide_eq_false notEnd
  have items := recovers_of_outline outline (· = .eof) .declaration false [mark] .start [] [mark] [] goes
    fun place => Recovers.many_stop (decide_eq_true isMark)
  rw [List.append_nil, List.append_nil] at items
  exact items

/-- The errors that were recovered from are the answer, if there are any. -/
theorem program_of_recovers {tokens left : List Token} {ss : List Stmt} {errors : List ParseError}
    (run : Recovers declarations ⟨tokens, .start⟩ ss left errors) (some : errors ≠ []) :
    (ofTokens tokens).program.result = .error errors := by
  obtain ⟨place, events, run, told⟩ := run
  have recovered : (declarations ⟨tokens, .start⟩).recovered = errors := by
    rw [run, Outcome.recovered, told]
  rw [program]
  simp only [ofTokens, recovered, List.nil_append]

/-- Of a program made of simple statements in blocks, functions and classes, each closed by its own
brace, all malformed statements are left out and nothing else. The errors are those that these
statements give when nothing stands behind them, one for each, in order; if there are none, the
program is the answer. -/
theorem program_of_outline {tokens : List Token} {mark : Token} {ss : List Stmt} {simples : List Simple}
    (outline : Outline 0 (.body ss) tokens simples) (isMark : mark.kind = .eof) :
    (∀ s ∈ simples, s.error? = none ↔ s.WellFormed) ∧
      ((∀ s ∈ simples, s.WellFormed) → (ofTokens (tokens ++ [mark])).program.result = .ok ⟨ss⟩) ∧
      ((∃ s ∈ simples, ¬ s.WellFormed) →
        (ofTokens (tokens ++ [mark])).program.result = .error (simples.filterMap Simple.error?)) ∧
      (declarations ⟨tokens ++ [mark], .start⟩).result = .ok ss ∧
      (declarations ⟨tokens ++ [mark], .start⟩).rest.tokens = [mark] := by
  have recovers := declarations_of_outline outline isMark
  have accepted (s : Simple) : s.error? = none ↔ s.WellFormed := s.error?_eq_none_iff
  obtain ⟨place, events, run, told⟩ := id recovers
  refine ⟨fun s _ => accepted s, fun all => ?_, ?_, by rw [run], by rw [run]⟩
  · have none : simples.filterMap Simple.error? = [] :=
      List.filterMap_eq_nil_iff.mpr fun s member => (accepted s).mpr (all s member)
    exact program_ok_iff_reads.mpr ⟨_, events, run, told.trans none⟩
  · rintro ⟨s, member, malformed⟩
    refine program_of_recovers recovers fun none => malformed ((accepted s).mp ?_)
    exact List.filterMap_eq_nil_iff.mp none s member

/-- In `{ x; var; }` the variable lacks its name. -/
theorem program_of_outline_nameless :
    (ofTokens ([⟨.leftBrace, "\x7b", ⟨1, 1⟩⟩, ⟨.identifier, "x", ⟨1, 3⟩⟩, ⟨.semicolon, ";", ⟨1, 4⟩⟩,
      ⟨.kwVar, "var", ⟨1, 6⟩⟩, ⟨.semicolon, ";", ⟨1, 9⟩⟩, ⟨.rightBrace, "\x7d", ⟨1, 11⟩⟩] ++
      [⟨.eof, "", ⟨1, 12⟩⟩])).program.result =
      .error [.unexpectedToken .variableName (.lexeme ";") ⟨1, 9⟩] := by
  have plain (token : Token) (kind : token.kind = .identifier ∨ token.kind = .kwVar) : Plain [token] := by
    constructor <;> rcases kind with kind | kind <;> simp [kind, TokenKind.startsStatement]
  let good : Simple := ⟨1, [⟨.identifier, "x", ⟨1, 3⟩⟩], ⟨.semicolon, ";", ⟨1, 4⟩⟩, by decide,
    plain _ (Or.inl rfl), Or.inl rfl⟩
  let bad : Simple := ⟨1, [⟨.kwVar, "var", ⟨1, 6⟩⟩], ⟨.semicolon, ";", ⟨1, 9⟩⟩, by decide,
    plain _ (Or.inr rfl), Or.inl rfl⟩
  have refused : bad.error? = some (.unexpectedToken .variableName (.lexeme ";") ⟨1, 9⟩) := by
    rw [Simple.error?, Simple.alone, declaration_eq]
    rfl
  have name : DerivesExpr maxNesting 3 (.rung 7 (.var "x" 1)) [⟨.identifier, "x", ⟨1, 3⟩⟩] :=
    .run (by decide) (.operand (.loosen (.leaf (.name rfl))))
  have accepted : good.error? = none := by
    refine good.error?_eq_none_iff.mpr ⟨.closed, .expr (.var "x" 1),
      .plain (.nested (by decide : 1 < maxNesting) (.expr ?_ rfl))⟩
    refine .nested (by decide : 2 < maxNesting) ?_
    iterate 7 refine .loosen ?_
    exact name
  have body : Outline 1 (.body _)
      [⟨.identifier, "x", ⟨1, 3⟩⟩, ⟨.semicolon, ";", ⟨1, 4⟩⟩, ⟨.kwVar, "var", ⟨1, 6⟩⟩,
        ⟨.semicolon, ";", ⟨1, 9⟩⟩] [good, bad] :=
    .simple (s := good) rfl (.simple (s := bad) rfl .empty)
  have block : Outline 1 (.enclosed _) _ [good, bad] :=
    .closed body (rfl : Token.kind ⟨.rightBrace, "\x7d", ⟨1, 11⟩⟩ = .rightBrace)
  have outline : Outline 0 (.body _) _ [good, bad] :=
    .block (by decide) (rfl : Token.kind ⟨.leftBrace, "\x7b", ⟨1, 1⟩⟩ = .leftBrace) block .empty
  refine ((program_of_outline outline rfl).2.2.1 ⟨bad, by simp, fun formed => ?_⟩).trans ?_
  · cases refused.symm.trans (bad.error?_eq_none_iff.mpr formed)
  · rw [List.filterMap_cons, accepted, List.filterMap_cons, refused]
    rfl

end Session

end LoxFrontEnd
