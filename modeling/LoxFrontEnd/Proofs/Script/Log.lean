import Mathlib.Data.List.Forall2
import LoxFrontEnd.Proofs.Lexical.Lexemes
import LoxFrontEnd.Proofs.Machine.Simulation
import LoxFrontEnd.Proofs.Scanner.Pieces
import LoxFrontEnd.Proofs.Script.Errors

/-!
What the log tells. Its records of errors are those of the errors that a source text is refused with,
one for each and in order, and its totals count them. A record determines the message and the place
that it tells.
-/

namespace LoxFrontEnd

namespace Position

theorem text_chars (p : Position) :
    p.text.toList = Nat.toDigits 10 p.line ++ ':' :: Nat.toDigits 10 p.column := by
  have number (n : Nat) : (toString n).toList = Nat.toDigits 10 n := by
    rw [Nat.toString_eq_ofList_toDigits, String.toList_ofList]
  rw [text, String.toList_append, String.toList_append, number, number, List.append_assoc]
  rfl

theorem ne_of_mem_toDigits {c d : Char} {n : Nat} (member : c ∈ Nat.toDigits 10 n)
    (other : d.isDigit = false) :
    c ≠ d := by
  rintro rfl
  have digit := Nat.isDigit_of_mem_toDigits (by decide) (by decide) member
  rw [digit] at other
  cases other

theorem toDigits_inj {m n : Nat} (same : Nat.toDigits 10 m = Nat.toDigits 10 n) : m = n := by
  have value := congrArg (fun digits => Nat.ofDigitChars 10 digits 0) same
  simpa only [Nat.ofDigitChars_toDigits (by decide : 1 < 10) (by decide : 10 ≤ 10)] using value

theorem text_inj {p q : Position} (same : p.text = q.text) : p = q := by
  have chars := congrArg String.toList same
  rw [text_chars, text_chars] at chars
  -- the colon is the first character that is no digit
  have digits (n : Nat) : ∀ c ∈ Nat.toDigits 10 n, c.isDigit = true :=
    fun c member => Nat.isDigit_of_mem_toDigits (by decide) (by decide) member
  have colon (behind : List Char) : ∀ c ∈ (':' :: behind).head?, c.isDigit = false := by
    rintro c ⟨⟩
    rfl
  obtain ⟨lines, rests⟩ := Lexical.run_unique (digits _) (colon _) (digits _) (colon _) chars
  have columns := (List.cons.inj rests).2
  obtain ⟨line, column⟩ := p
  obtain ⟨line', column'⟩ := q
  rw [mk.injEq]
  exact ⟨toDigits_inj lines, toDigits_inj columns⟩

theorem blank_not_mem_text (p : Position) : ∀ c ∈ p.text.toList, c ≠ ' ' := by
  intro c member
  rw [text_chars] at member
  rcases List.mem_append.mp member with line | behind
  · exact ne_of_mem_toDigits line (by decide)
  · rcases List.mem_cons.mp behind with rfl | column
    · decide
    · exact ne_of_mem_toDigits column (by decide)

end Position

/-- A message may hold any characters, but the last blank stands in front of the place. -/
theorem messageAt_inj {message message' : String} {p p' : Position}
    (same : messageAt message p = messageAt message' p') : message = message' ∧ p = p' := by
  have chars (message : String) (p : Position) : (messageAt message p).toList.reverse =
      p.text.toList.reverse ++ ' ' :: (message.toList ++ " at".toList).reverse := by
    have blank : " at ".toList = " at".toList ++ [' '] := rfl
    rw [messageAt, String.toList_append, String.toList_append, blank, List.reverse_append,
      ← List.append_assoc, List.reverse_concat]
  have reversed := congrArg (fun text => text.toList.reverse) same
  simp only [chars] at reversed
  have place (p : Position) : ∀ c ∈ p.text.toList.reverse, (c != ' ') = true :=
    fun c member => bne_iff_ne.mpr (p.blank_not_mem_text c (List.mem_reverse.mp member))
  have blank (behind : List Char) : ∀ c ∈ (' ' :: behind).head?, (c != ' ') = false := by
    rintro c ⟨⟩
    rfl
  obtain ⟨places, rests⟩ :=
    Lexical.run_unique (p := (· != ' ')) (place p) (blank _) (place p') (blank _) reversed
  have messages := List.append_cancel_right (List.reverse_inj.mp (List.cons.inj rests).2)
  exact ⟨String.toList_inj.mp messages,
    Position.text_inj (String.toList_inj.mp (List.reverse_inj.mp places))⟩

/-- How a record of recovery begins. -/
def RecoverySite.heading : RecoverySite → String
  | .declaration => "recovering from: "
  | .classBody => "recovering in class body from: "

namespace LogRecord

/-- A record of the parser that begins as those of recovery do. -/
def tellsRecovery (record : LogRecord) : Bool :=
  record.stage = .parser ∧ ∃ site ∈ [RecoverySite.declaration, .classBody],
    site.heading.toList <+: record.text.toList

/-- A record of recovery that can be read as that of this error only. -/
structure Names (record : LogRecord) (e : ParseError) : Prop where
  written : ∃ site : RecoverySite,
    record = ⟨.debug, .parser, site.heading ++ messageAt e.message e.position⟩
  unique : ∀ (site : RecoverySite) message position,
    record.text = site.heading ++ messageAt message position → message = e.message ∧ position = e.position

end LogRecord

namespace RecoverySite

/-- The records of the two sites differ in the twelfth character. -/
theorem heading_inj {site site' : RecoverySite} {text text' : String}
    (same : site.heading ++ text = site'.heading ++ text') : site = site' ∧ text = text' := by
  have sites : site = site' := by
    have chars := congrArg (fun text => text.toList[11]?) same
    simp only [String.toList_append] at chars
    cases site with
    | declaration =>
      cases site' with
      | declaration => rfl
      | classBody => exact absurd (Option.some.inj chars) (by decide)
    | classBody =>
      cases site' with
      | declaration => exact absurd (Option.some.inj chars) (by decide)
      | classBody => rfl
  subst sites
  have chars := congrArg String.toList same
  rw [String.toList_append, String.toList_append] at chars
  exact ⟨rfl, String.toList_inj.mp (List.append_cancel_left chars)⟩

end RecoverySite

theorem Event.names_recovered (site : RecoverySite) (e : ParseError) :
    LogRecord.Names ⟨.debug, .parser, (recovered site e).text⟩ e := by
  have text : (recovered site e).text = site.heading ++ messageAt e.message e.position := by
    cases site with
    | declaration => rfl
    | classBody => rfl
  rw [text]
  refine ⟨⟨site, rfl⟩, fun site' message position same => ?_⟩
  exact messageAt_inj (RecoverySite.heading_inj same).2.symm

namespace LogRecord

theorem tellsRecovery_of_names {record : LogRecord} {e : ParseError} (names : record.Names e) :
    record.tellsRecovery = true := by
  obtain ⟨site, rfl⟩ := names.written
  refine decide_eq_true ⟨rfl, site, ?_, ?_⟩
  · cases site with
    | declaration => exact List.mem_cons_self
    | classBody => exact List.mem_cons_of_mem _ List.mem_cons_self
  · rw [String.toList_append]
    exact List.prefix_append _ _

theorem not_tellsRecovery {level : LogLevel} {text : String} (other : text.toList.head? ≠ some 'r') :
    tellsRecovery ⟨level, .parser, text⟩ = false := by
  refine decide_eq_false fun ⟨_, site, _, behind, same⟩ => other ?_
  have first : text.toList.head? = (site.heading.toList ++ behind).head? := congrArg List.head? same.symm
  rw [first]
  cases site with
  | declaration => rfl
  | classBody => rfl

end LogRecord

/-- Of the records of the events, those of recovery name the errors caught. -/
theorem Event.recovery_named (events : List Event) :
    List.Forall₂ LogRecord.Names
      ((events.map fun event => (⟨.debug, .parser, event.text⟩ : LogRecord)).filter LogRecord.tellsRecovery)
      (events.filterMap Event.error?) := by
  induction events with
  | nil => exact .nil
  | cons event events ih =>
    cases event with
    | started kind =>
      have starts : (started kind).text.toList.head? = some 'd' := by
        have written : (started kind).text = "declaration starting with " ++ kind.text := rfl
        rw [written, String.toList_append]
        rfl
      have other : (started kind).text.toList.head? ≠ some 'r' := by
        rw [starts]
        decide
      have quiet : LogRecord.tellsRecovery ⟨.debug, .parser, (started kind).text⟩ = false :=
        LogRecord.not_tellsRecovery other
      rw [List.map_cons, List.filter_cons, quiet]
      exact ih
    | recovered site e =>
      have names := names_recovered site e
      rw [List.map_cons, List.filter_cons, LogRecord.tellsRecovery_of_names names]
      exact .cons names ih

/-- The records of one stage. -/
def recordsOf (stage : Stage) (log : List LogRecord) : List LogRecord :=
  log.filter (·.stage = stage)

theorem recordsOf_append (stage : Stage) (log log' : List LogRecord) :
    recordsOf stage (log ++ log') = recordsOf stage log ++ recordsOf stage log' := List.filter_append ..

theorem recordsOf_own {stage : Stage} {log : List LogRecord} (own : ∀ record ∈ log, record.stage = stage) :
    recordsOf stage log = log :=
  List.filter_eq_self.mpr fun record member => decide_eq_true (own record member)

theorem recordsOf_other {stage stage' : Stage} {log : List LogRecord}
    (others : ∀ record ∈ log, record.stage = stage') (apart : stage' ≠ stage) : recordsOf stage log = [] :=
  List.filter_eq_nil_iff.mpr fun record member =>
    of_decide_eq_true.mt fun same => apart ((others record member).symm.trans same)

theorem Scan.log_stage (scan : Scan) : ∀ record ∈ scan.log, record.stage = .scanner := by
  refine List.forall_mem_append.mpr ⟨?_, List.forall_mem_singleton.mpr rfl⟩
  exact List.forall_mem_map.mpr fun _ _ => rfl

theorem Program.log_stage (p : Program) : ∀ record ∈ p.log, record.stage = .resolver := by
  rw [Program.log]
  split
  · exact List.forall_mem_singleton.mpr rfl
  · exact fun _ member => absurd member List.not_mem_nil

namespace Reply

variable (reply : Reply (Except (List ParseError) Program))

theorem log_stage : ∀ record ∈ reply.log, record.stage = .parser := by
  refine List.forall_mem_cons.mpr ⟨rfl, List.forall_mem_append.mpr ⟨?_, List.forall_mem_singleton.mpr rfl⟩⟩
  exact List.forall_mem_map.mpr fun _ _ => rfl

/-- What the last record of the parser says. -/
def total (result : Except (List ParseError) Program) : String :=
  match result with
  | .ok p => "parsed " ++ toString p.declarations.length ++ " top-level declarations"
  | .error errors => "parsing failed with " ++ toString errors.length ++ " errors"

theorem log_eq : reply.log = ⟨.info, .parser, "parsing program"⟩ ::
    (reply.events.map (fun event => ⟨.debug, .parser, event.text⟩) ++
      [⟨.info, .parser, total reply.result⟩]) := by
  obtain ⟨result, session, events⟩ := reply
  cases result with
  | ok p => rfl
  | error errors => rfl

theorem total_quiet (result : Except (List ParseError) Program) :
    LogRecord.tellsRecovery ⟨.info, .parser, total result⟩ = false := by
  have starts : (total result).toList.head? = some 'p' := by
    cases result with
    | ok p =>
      have written :
          total (.ok p) = "parsed " ++ toString p.declarations.length ++ " top-level declarations" := rfl
      rw [written, String.append_assoc, String.toList_append]
      rfl
    | error errors =>
      have written :
          total (.error errors) = "parsing failed with " ++ toString errors.length ++ " errors" := rfl
      rw [written, String.append_assoc, String.toList_append]
      rfl
  have other : (total result).toList.head? ≠ some 'r' := by
    rw [starts]
    decide
  exact LogRecord.not_tellsRecovery other

/-- The records of recovery name the errors caught, in order. -/
theorem log_named :
    List.Forall₂ LogRecord.Names (reply.log.filter LogRecord.tellsRecovery) reply.caught := by
  have begins : LogRecord.tellsRecovery ⟨.info, .parser, "parsing program"⟩ = false :=
    LogRecord.not_tellsRecovery (by decide)
  rw [log_eq, List.filter_cons, begins, if_neg Bool.false_ne_true, List.filter_append,
    List.filter_cons, total_quiet, if_neg Bool.false_ne_true, List.filter_nil, List.append_nil]
  exact Event.recovery_named reply.events

theorem log_getLast : reply.log.getLast? = some ⟨.info, .parser, total reply.result⟩ := by
  rw [log_eq, List.getLast?_cons, List.getLast?_concat]
  rfl

end Reply

section Trace

variable {source : String}

theorem trace_of_faults (faults : (Scan.ofSource source).errors ≠ []) :
    trace source = (Scan.ofSource source).log :=
  if_neg fun none => faults (List.isEmpty_iff.mp none)

/-- Behind the records of scanning and parsing there are only those of the static checks. -/
theorem trace_of_clean (clean : (Scan.ofSource source).errors = []) : ∃ checks,
    trace source = (Scan.ofSource source).log ++
      (Session.ofTokens (Scan.ofSource source).tokens).program.log ++ checks ∧
      ∀ record ∈ checks, record.stage = .resolver := by
  refine ⟨_, if_pos (List.isEmpty_iff.mpr clean), ?_⟩
  split
  · exact Program.log_stage _
  · exact fun _ member => absurd member List.not_mem_nil

theorem recordsOf_scanning : recordsOf .scanner (trace source) = (Scan.ofSource source).log := by
  have own := recordsOf_own (Scan.ofSource source).log_stage
  by_cases clean : (Scan.ofSource source).errors = []
  · obtain ⟨checks, told, resolver⟩ := trace_of_clean clean
    rw [told, recordsOf_append, recordsOf_append, own, recordsOf_other (Reply.log_stage _) (by decide),
      recordsOf_other resolver (by decide), List.append_nil, List.append_nil]
  · rw [trace_of_faults clean, own]

theorem recordsOf_parsing (clean : (Scan.ofSource source).errors = []) :
    recordsOf .parser (trace source) = (Session.ofTokens (Scan.ofSource source).tokens).program.log := by
  obtain ⟨checks, told, resolver⟩ := trace_of_clean clean
  rw [told, recordsOf_append, recordsOf_append, recordsOf_own (Reply.log_stage _),
    recordsOf_other (Scan.log_stage _) (by decide), recordsOf_other resolver (by decide), List.append_nil,
    List.nil_append]

end Trace

/-- The records of scanning are those of the lexical errors, in order, and the totals, as the scanner
writes them step by step; the end mark counts as a token. If there are lexical errors, a source text
is refused for these, and parsing tells nothing. Otherwise the machine, which keeps its errors in a
queue, gives the answer, and the records of recovery name the errors in it, in order; the last record
of parsing counts them, or the declarations. -/
theorem log_tells_errors (source : String) :
    (∃ n s, Scanner.run source n = some s ∧ s.phase = .done ∧
      (⟨s.tokens, s.errors⟩ : Scan) = Scan.ofSource source ∧
      s.log = recordsOf .scanner (trace source)) ∧
    let scan := Scan.ofSource source
    let told := recordsOf .parser (trace source)
    (∃ tokens mark, scan.tokens = tokens ++ [mark] ∧ mark.kind = .eof ∧
      ∀ token ∈ tokens, token.kind ≠ .eof) ∧
    recordsOf .scanner (trace source) =
      scan.errors.map (fun e => ⟨.debug, .scanner, messageAt e.message e.position⟩) ++
        [⟨.debug, .scanner, "scanned " ++ toString scan.tokens.length ++ " tokens with " ++
          toString scan.errors.length ++ " errors"⟩] ∧
    (scan.errors ≠ [] → parse source = .error (scan.errors.map .lexical) ∧ told = []) ∧
    (scan.errors = [] → ∃ answer,
      (∀ limit, scan.tokens.length < limit → maxNesting < limit →
        ∃ r, Machine.program limit (.ofTokens scan.tokens) = some (answer, r)) ∧
      match answer with
      | .ok p => parse source = .ok p ∧ told.filter LogRecord.tellsRecovery = [] ∧
        told.getLast? = some ⟨.info, .parser,
          "parsed " ++ toString p.declarations.length ++ " top-level declarations"⟩
      | .error errors => errors ≠ [] ∧ parse source = .error (errors.map .grammatical) ∧
        List.Forall₂ LogRecord.Names (told.filter LogRecord.tellsRecovery) errors ∧
        told.getLast? = some ⟨.info, .parser,
          "parsing failed with " ++ toString errors.length ++ " errors"⟩) := by
  refine ⟨?_, ?_⟩
  · rw [recordsOf_scanning]
    exact Scanner.run_ends source
  intro scan told
  obtain ⟨tokens, mark, marked, noMark, isMark, -⟩ := Lexical.tokens_increase source
  refine ⟨⟨tokens, mark, marked, isMark, noMark⟩, recordsOf_scanning,
    fun faults => ⟨parse_of_faults faults, ?_⟩, ?_⟩
  · show recordsOf .parser (trace source) = []
    rw [trace_of_faults faults]
    exact recordsOf_other (Scan.log_stage _) (by decide)
  intro clean
  let s := Session.ofTokens scan.tokens
  refine ⟨s.program.result, fun limit within deep => ⟨_, Machine.program_eq within deep⟩, ?_⟩
  have records : told = s.program.log := recordsOf_parsing clean
  have named : List.Forall₂ LogRecord.Names (told.filter LogRecord.tellsRecovery) s.program.caught := by
    rw [records]
    exact s.program.log_named
  have last : told.getLast? = some ⟨.info, .parser, Reply.total s.program.result⟩ := by
    rw [records]
    exact s.program.log_getLast
  have parsed : parse source = s.program.result.mapError (·.map .grammatical) := by
    rw [parse, tokenize_of_clean clean]
    rfl
  have drains : Session.Drains s.program.caught s.program.result s.program.session.queue := s.program_drains
  generalize s.program.result = answer at *
  generalize s.program.caught = caught at *
  cases drains with
  | tree => exact ⟨parsed, List.forall₂_nil_right_iff.mp named, last⟩
  | errors some => exact ⟨some, parsed, named, last⟩

/-- Both sites of recovery tell, in the order of the text. -/
example :
    ((recordsOf .parser (trace "class A \x7b 1; \x7d\nvar;")).filter
      LogRecord.tellsRecovery).map LogRecord.text =
    ["recovering in class body from: Expect method name, found '1'. at 1:11",
      "recovering from: Expect variable name, found ';'. at 2:4"] := by
  decide +kernel

end LoxFrontEnd
