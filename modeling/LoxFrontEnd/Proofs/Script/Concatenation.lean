import LoxFrontEnd.Proofs.Lexical.Lines
import LoxFrontEnd.Proofs.Parse.Recovery
import LoxFrontEnd.Proofs.Parse.Relabelling
import LoxFrontEnd.Proofs.Script.Errors

/-!
Programs one behind another. A program that is finished by a line feed is read as it is read alone,
whatever follows but an `else`; and what follows is parsed as it is alone, some lines further down.
-/

namespace LoxFrontEnd

open Grammar Parse

/-- The error, placed this many lines further down. -/
def ParseError.down (k : Nat) : ParseError → ParseError
  | .unexpectedToken expected found position => .unexpectedToken expected found (position.down k)
  | .invalidAssignmentTarget position => .invalidAssignmentTarget (position.down k)

def SyntaxError.down (k : Nat) : SyntaxError → SyntaxError
  | .lexical e => .lexical (e.down k)
  | .grammatical e => .grammatical (e.down k)

namespace Relabelling

/-- The same texts, this many lines further down. -/
def down (k : Nat) : Relabelling where
  lexeme := id
  inner := id
  place := Position.down k
  line := (· + k)
  unquote_lexeme _ := rfl
  place_line _ := rfl

theorem down_keepsTexts (k : Nat) : (down k).KeepsTexts := ⟨fun _ => rfl, fun _ => rfl⟩

end Relabelling

theorem ParseError.relabel_down (k : Nat) (e : ParseError) : e.relabel (.down k) = e.down k := by
  match e with
  | .unexpectedToken _ (.lexeme _) _ => rfl
  | .unexpectedToken _ .endOfInput _ => rfl
  | .invalidAssignmentTarget _ => rfl

namespace Session

/-- A body that the grammar derives is read in front of anything that does not begin with `else`. No
declaration looks further, and the levels are back where they were, so what follows is read as if
nothing stood in front of it. -/
theorem recovers_behind_body {ss ss' : List Stmt} {tokens rest left : List Token} {errors : List ParseError}
    (derives : Derives maxNesting 0 (.body ss) tokens)
    (noElse : ∀ place, Input.kind ⟨rest, place⟩ ≠ .kwElse)
    (behind : ∀ place, Recovers declarations ⟨rest, place⟩ ss' left errors) (last : Position) :
    Recovers declarations ⟨tokens ++ rest, last⟩ (ss ++ ss') left errors := by
  induction ss generalizing tokens last with
  | nil =>
    cases derives with
    | empty => exact behind last
  | cons s ss ih =>
    cases derives with
    | @item _ _ _ _ _ others one more =>
      obtain ⟨token, first, rfl, opens⟩ := one.opens.resolve_left fun none => none.2
      -- Only an `else` could go on a finished declaration, and no declaration begins with one.
      have follow : Input.kind ⟨others ++ rest, last⟩ ≠ .kwElse := by
        rcases more.opens with ⟨rfl, -⟩ | ⟨next, behind, rfl, opensNext⟩
        · exact noElse last
        · exact kind_ne_of_starts opensNext rfl
      obtain ⟨events, run, clean⟩ :=
        completeStmt_of_derives one maxNesting (Nat.zero_add _) (others ++ rest) last fun _ => follow
      have read :
          Recovers (declaration maxNesting) ⟨token :: first ++ (others ++ rest), last⟩ s
            (others ++ rest) [] :=
        ⟨_, events, run, clean⟩
      rw [List.append_assoc]
      refine Recovers.many_next (decide_eq_false (kind_ne_of_starts opens rfl))
        (read.recovering .declaration false) ?_ fun place => ih more place
      simp only [List.length_append, List.length_cons]
      omega

/-- Further down, tokens are read as they are read at the front of a text. -/
theorem recovers_down {tokens : List Token} {ss : List Stmt} {rest : Input} {events : List Event}
    (some : tokens ≠ []) (run : declarations ⟨tokens, .start⟩ = ⟨.ok ss, rest, events⟩) (k : Nat)
    (place : Position) :
    Recovers declarations ⟨tokens.map (Token.down k), place⟩ (Stmt.mapLinesAll (· + k) ss)
      (rest.tokens.map (Token.down k)) ((events.filterMap Event.error?).map (ParseError.down k)) := by
  -- The places in front of the two lists need not match, since there is a token to look at.
  have same : Relabelled (.down k) ⟨tokens, .start⟩ ⟨tokens.map (Token.down k), place⟩ :=
    ⟨rfl, fun none => absurd none some⟩
  obtain ⟨result, later, later', happened, same', run', moved⟩ := relabels_declarations _ _ same
  obtain ⟨rfl, rfl, rfl⟩ : .ok ss = result ∧ rest = later ∧ events = happened := by
    simpa only [Outcome.mk.injEq] using run.symm.trans run'
  have left : later'.tokens = rest.tokens.map (Token.down k) := same'.tokens
  have trees : ss.map (Stmt.relabel (.down k)) = Stmt.mapLinesAll (· + k) ss := by
    rw [← Stmt.relabelAll_eq_map]
    exact Stmt.relabelAll_eq_mapLinesAll (Relabelling.down_keepsTexts k) ss
  refine ⟨later'.last, events.map (Event.relabel (.down k)), ?_, ?_⟩
  · rw [moved, ← left, ← trees]
    rfl
  · rw [recovered_relabel, funext (ParseError.relabel_down k)]

end Session

/-- A text that is parsed into a program has no lexical errors, and the grammar derives the program
from its tokens. -/
theorem derives_of_parse {source : String} {p : Program} (parsed : parse source = .ok p) :
    (Scan.ofSource source).errors = [] ∧
      ∃ tokens mark, (Scan.ofSource source).tokens = tokens ++ [mark] ∧ DerivesProgram tokens p := by
  by_cases clean : (Scan.ofSource source).errors = []
  · refine ⟨clean, ?_⟩
    obtain ⟨tokens, mark, split, inner, isMark, -⟩ := Lexical.tokens_increase source
    obtain ⟨ss, rest, events, items⟩ := items_declarations ⟨(Scan.ofSource source).tokens, .start⟩
    have run : Session.declarations ⟨(Scan.ofSource source).tokens, .start⟩ = ⟨.ok ss, rest, events⟩ :=
      items.many_eq
    rw [parse_of_clean clean run] at parsed
    split at parsed
    next none =>
      obtain rfl : ⟨ss⟩ = p := Except.ok.inj parsed
      rw [split] at run
      obtain ⟨taken, front, derives⟩ := body_yields (declaration_yields (Nat.zero_add maxNesting)) _ _ _
        ⟨events, run, none⟩
      have ends : rest.kind = .eof := of_decide_eq_true items.ends
      have whole := eq_of_append_mark_eq inner isMark derives.kind_ne_eof ends front
      exact ⟨tokens, mark, split, whole ▸ derives⟩
    next => cases parsed
  · rw [parse_of_faults clean] at parsed
    cases parsed

theorem clean_of_tokenize {source : String} {tokens : List Token} (scanned : tokenize source = .ok tokens) :
    (Scan.ofSource source).errors = [] ∧ (Scan.ofSource source).tokens = tokens := by
  by_cases clean : (Scan.ofSource source).errors = []
  · exact ⟨clean, Except.ok.inj ((tokenize_of_clean clean).symm.trans scanned)⟩
  · rw [tokenize, if_neg fun none => clean (List.isEmpty_iff.mp none)] at scanned
    cases scanned

/-- A program, a line feed and a text that does not begin with `else` make a program if the text alone
is one, with the declarations of both. Otherwise the errors are those of the text alone. What comes
from the text is as many lines further down as are in front of it, in the same columns. -/
theorem parse_behind_program {a b : String} {p : Program} {tokens : List Token} (parsed : parse a = .ok p)
    (scanned : tokenize b = .ok tokens) (noElse : ∀ token ∈ tokens.head?, token.kind ≠ .kwElse) :
    parse (a ++ "\n" ++ b) = match parse b with
      | .ok q => .ok ⟨p.declarations ++ Stmt.mapLinesAll (· + (a.toList.count '\n' + 1)) q.declarations⟩
      | .error errors => .error (errors.map (SyntaxError.down (a.toList.count '\n' + 1))) := by
  generalize lines : a.toList.count '\n' + 1 = k
  obtain ⟨cleanA, taken, mark, split, derives⟩ := derives_of_parse parsed
  obtain ⟨cleanB, rfl⟩ := clean_of_tokenize scanned
  obtain ⟨front, marked, split', -⟩ := Lexical.tokens_increase b
  have some : (Scan.ofSource b).tokens ≠ [] := by simp [split']
  obtain ⟨whole, clean⟩ := Scan.ofSource_line a b
  rw [lines, split, List.dropLast_concat] at whole
  rw [cleanA, cleanB, List.map_nil, List.append_nil] at clean
  have follows (place : Position) :
      Input.kind ⟨(Scan.ofSource b).tokens.map (Token.down k), place⟩ ≠ .kwElse := by
    obtain ⟨token, others, same⟩ := List.exists_cons_of_ne_nil some
    rw [same] at noElse ⊢
    exact noElse token rfl
  obtain ⟨ss, rest, events, items⟩ := items_declarations ⟨(Scan.ofSource b).tokens, .start⟩
  have run : Session.declarations ⟨(Scan.ofSource b).tokens, .start⟩ = ⟨.ok ss, rest, events⟩ :=
    items.many_eq
  obtain ⟨place, events', run', told⟩ :=
    Session.recovers_behind_body derives follows (Session.recovers_down some run k) .start
  rw [← whole] at run'
  rw [parse_of_clean clean run', parse_of_clean cleanB run, told]
  by_cases none : events.filterMap Event.error? = []
  · rw [if_pos none, if_pos (by rw [none]; rfl)]
  · rw [if_neg none, if_neg (mt List.map_eq_nil_iff.mp none), List.map_map]
    dsimp only
    rw [List.map_map]
    rfl

/-- A block on two lines, and an error on the third. -/
theorem parse_behind_program_block :
    let errors : List SyntaxError := [.grammatical (.unexpectedToken .expression (.lexeme ";") ⟨1, 2⟩)]
    parse " ;" = .error errors ∧
      parse ("\x7b\n\x7d" ++ "\n" ++ " ;") = .error (errors.map (SyntaxError.down 2)) := by
  intro errors
  have refused : parse " ;" = .error errors := refused_of_told (by decide +kernel) (List.cons_ne_nil _ _)
  have accepted : (parse "\x7b\n\x7d").isOk = true := by decide +kernel
  have scanned : tokenize " ;" = .ok (Scan.ofSource " ;").tokens := tokenize_of_clean (by decide +kernel)
  have noElse : ∀ token ∈ (Scan.ofSource " ;").tokens.head?, token.kind ≠ .kwElse := by decide +kernel
  refine ⟨refused, ?_⟩
  cases parsed : parse "\x7b\n\x7d" with
  | ok p =>
    rw [parse_behind_program parsed scanned noElse, refused]
    rfl
  | error =>
    rw [parsed] at accepted
    cases accepted

end LoxFrontEnd
