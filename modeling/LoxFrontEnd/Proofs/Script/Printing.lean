import LoxFrontEnd.Proofs.Script.Concatenation
import LoxFrontEnd.Proofs.Tree.ProgramReading

/-!
Printed scripts. What is parsed from a script can be read back from its printed form: names, numbers
and strings come from tokens, and tokens are spelled as the lexical grammar has it.
-/

namespace LoxFrontEnd

open Grammar Lexical

/-- Tokens as they are scanned. -/
def Scanned (tokens : List Token) : Prop := ∀ t ∈ tokens, Lexeme (.token t.kind) t.lexeme.toList

theorem scanned_append {first second : List Token} :
    Scanned (first ++ second) ↔ Scanned first ∧ Scanned second :=
  List.forall_mem_append

theorem scanned_cons {token : Token} {others : List Token} :
    Scanned (token :: others) ↔ Lexeme (.token token.kind) token.lexeme.toList ∧ Scanned others :=
  List.forall_mem_cons

theorem Scanned.isName {token : Token} {others : List Token} (scanned : Scanned (token :: others))
    (isName : token.kind = .identifier) : IsName token.lexeme := by
  have lexeme := (scanned_cons.mp scanned).1
  rwa [isName] at lexeme

namespace Grammar

def ReadableExpr : ExprPhrase → Prop
  | .expression e | .rung _ e | .prefixed _ e => e.Readable
  | .arguments es => Expr.ReadableAll es

/-- Without a sign in its lexeme no number is below zero. -/
theorem readable_of_number {value : Binary64} {text : List Char}
    (lexeme : Lexeme (.token (.number value)) text) : (Literal.number value).Readable := by
  generalize isSort : PieceSort.token (.number value) = sort at lexeme
  cases lexeme with
  | operator member =>
    have others : ∀ entry ∈ operators, isLeaf entry.2 = false := by decide
    have other := others _ member
    rw [← PieceSort.token.inj isSort] at other
    cases other
  | number =>
    rw [TokenKind.number.inj (PieceSort.token.inj isSort)]
    rcases Binary64.ofQuotient_cases _ _ with ⟨units, fits, finite⟩ | infinite
    · exact Or.inr ⟨units, fits, finite⟩
    · exact Or.inl infinite
  | reserved _ member =>
    rw [← PieceSort.token.inj isSort] at member
    simp [reservedWords] at member
  | string | leadingZero | name => cases isSort

theorem readable_of_string {lexeme text : String} (scanned : Lexeme (.token .string) lexeme.toList)
    (means : StringText lexeme text) : (Literal.string text).Readable := by
  generalize chars : lexeme.toList = cs at scanned
  cases scanned with
  | operator member =>
    have others : ∀ entry ∈ operators, entry.2 ≠ .string := by decide
    exact absurd rfl (others _ member)
  | @string body inside =>
    have quoted : Quoted lexeme (String.ofList body) := by rw [Quoted, String.toList_ofList, chars]
    rw [stringText_iff.mp means, unquote_of_quoted quoted, Literal.Readable, String.toList_ofList]
    exact inside
  | reserved _ member =>
    have others : ∀ entry ∈ reservedWords, entry.2 ≠ .string := by decide
    exact absurd rfl (others _ member)

theorem Leaf.readable {token : Token} {e : Expr} (leaf : Leaf token e)
    (lexeme : Lexeme (.token token.kind) token.lexeme.toList) : e.Readable := by
  cases leaf with
  | number isNumber => exact readable_of_number (isNumber ▸ lexeme)
  | string isString means => exact readable_of_string (isString ▸ lexeme) means
  | name isName =>
    rw [isName] at lexeme
    exact lexeme
  | bool | nil | this => trivial

theorem DerivesExpr.readable {limit depth : Nat} {phrase : ExprPhrase} {tokens : List Token}
    (derives : DerivesExpr limit depth phrase tokens) (scanned : Scanned tokens) : ReadableExpr phrase := by
  induction derives with
  | nested _ _ ih | loosen _ ih | operand _ ih | run _ _ ih => exact ih scanned
  | lastArgument _ ih => exact ⟨ih scanned, trivial⟩
  | assign _ _ _ ih ihValue =>
    obtain ⟨left, right⟩ := scanned_append.mp scanned
    exact ⟨ih left, ihValue (scanned_cons.mp right).2⟩
  | setAttr _ _ _ ih ihValue =>
    obtain ⟨left, right⟩ := scanned_append.mp scanned
    obtain ⟨object, isName⟩ := ih left
    exact ⟨object, isName, ihValue (scanned_cons.mp right).2⟩
  | @join _ _ _ _ _ op _ _ _ _ ih ihRight =>
    obtain ⟨left, right⟩ := scanned_append.mp scanned
    have both := And.intro (ih left) (ihRight (scanned_cons.mp right).2)
    cases op with
    | logical | binary => exact both
  | prefixed _ _ ih => exact ih (scanned_cons.mp scanned).2
  | call _ _ _ _ ih ihArguments =>
    obtain ⟨called, -⟩ := scanned_append.mp scanned
    obtain ⟨callee, arguments⟩ := scanned_append.mp called
    exact ⟨ih callee, ihArguments (scanned_cons.mp arguments).2⟩
  | getAttr _ _ isName ih =>
    obtain ⟨object, others⟩ := scanned_append.mp scanned
    exact ⟨ih object, (scanned_cons.mp others).2.isName isName⟩
  | leaf leaf => exact leaf.readable (scanned_cons.mp scanned).1
  | super _ _ isName =>
    exact (scanned_cons.mp (scanned_cons.mp scanned).2).2.isName isName
  | grouping _ _ _ ih =>
    exact ih (scanned_append.mp (scanned_cons.mp scanned).2).1
  | noArguments => trivial
  | moreArguments _ _ _ ih ihOthers =>
    obtain ⟨first, others⟩ := scanned_append.mp scanned
    exact ⟨ih first, ihOthers (scanned_cons.mp others).2⟩

theorem OptionalExpr.readable {limit depth : Nat} {o : Option Expr} {tokens : List Token}
    (optional : OptionalExpr limit depth o tokens) (scanned : Scanned tokens) : Expr.OptionReadable o := by
  cases optional with
  | none => trivial
  | some derives => exact derives.readable scanned

theorem readable_getD {o : Option Expr} (readable : Expr.OptionReadable o) :
    (o.getD (.literal (.bool true))).Readable := by
  cases o with
  | none => trivial
  | some e => exact readable

theorem Parameters.readable {ps : List Parameter} {tokens : List Token} (parameters : Parameters ps tokens)
    (scanned : Scanned tokens) : ∀ p ∈ ps, IsName p.name := by
  induction parameters with
  | none => exact nofun
  | last isName => exact List.forall_mem_singleton.mpr (scanned.isName isName)
  | more isName _ _ ih =>
    have others := (scanned_cons.mp (scanned_cons.mp scanned).2).2
    exact List.forall_mem_cons.mpr ⟨scanned.isName isName, ih others⟩

theorem Superclass.readable {superclass : Option String} {tokens : List Token}
    (above : Superclass superclass tokens) (scanned : Scanned tokens) :
    ∀ name ∈ superclass, IsName name := by
  cases above with
  | none => exact nofun
  | some _ isName =>
    rintro _ ⟨⟩
    exact (scanned_cons.mp scanned).2.isName isName

theorem readable_turn {s : Stmt} {o : Option Expr} (body : s.Readable) (increment : Expr.OptionReadable o) :
    (turn s o).Readable := by
  cases o with
  | none => exact body
  | some e => exact ⟨body, increment, trivial⟩

theorem readable_forTree {o : Option Stmt} {o' : Option Expr} {s : Stmt} (initializer : ∀ s ∈ o, s.Readable)
    (condition : Expr.OptionReadable o') (body : s.Readable) : (forTree o o' s).Readable := by
  have loop : Stmt.ReadableAll [.whileLoop (o'.getD (.literal (.bool true))) s] :=
    ⟨⟨readable_getD condition, body⟩, trivial⟩
  cases o with
  | none => exact loop
  | some start => exact ⟨initializer start rfl, loop⟩

def ReadablePhrase : Phrase → Prop
  | .declaration _ s | .statement _ s | .unnested _ s | .varDecl s => s.Readable
  | .initializer o => ∀ s ∈ o, s.Readable
  | .function f => Stmt.FunctionReadable f
  | .methods fs => Stmt.MethodsReadable fs
  | .body ss => Stmt.ReadableAll ss

theorem Derives.readable {limit depth : Nat} {phrase : Phrase} {tokens : List Token}
    (derives : Derives limit depth phrase tokens) (scanned : Scanned tokens) : ReadablePhrase phrase := by
  induction derives with
  | varDeclaration _ ih | plain _ ih | nested _ _ ih => exact ih scanned
  | funDeclaration _ _ ih => exact ih (scanned_cons.mp scanned).2
  | classDeclaration _ isName above _ _ _ ih =>
    have named := (scanned_cons.mp scanned).2
    obtain ⟨inherited, body⟩ := scanned_append.mp (scanned_cons.mp named).2
    exact ⟨named.isName isName, above.readable inherited, ih (scanned_append.mp (scanned_cons.mp body).2).1⟩
  | expr derives => exact derives.readable (scanned_append.mp scanned).1
  | print _ derives => exact derives.readable (scanned_append.mp (scanned_cons.mp scanned).2).1
  | ret _ value => exact value.readable (scanned_append.mp (scanned_cons.mp scanned).2).1
  | block _ _ _ ih => exact ih (scanned_append.mp (scanned_cons.mp scanned).2).1
  | whileLoop _ _ derives _ _ ih | ifThen _ _ derives _ _ ih =>
    obtain ⟨condition, body⟩ := scanned_append.mp (scanned_cons.mp (scanned_cons.mp scanned).2).2
    exact ⟨derives.readable condition, ih (scanned_cons.mp body).2⟩
  | ifElse _ _ derives _ _ _ _ ih ihElse =>
    obtain ⟨condition, branches⟩ := scanned_append.mp (scanned_cons.mp (scanned_cons.mp scanned).2).2
    obtain ⟨body, otherwise⟩ := scanned_append.mp (scanned_cons.mp branches).2
    exact ⟨derives.readable condition, ih body, ihElse (scanned_cons.mp otherwise).2⟩
  | forLoop _ _ _ condition _ increment _ _ ihStart ih =>
    obtain ⟨start, others⟩ := scanned_append.mp (scanned_cons.mp (scanned_cons.mp scanned).2).2
    obtain ⟨middle, others⟩ := scanned_append.mp others
    obtain ⟨last, body⟩ := scanned_append.mp (scanned_cons.mp others).2
    have turned := readable_turn (ih (scanned_cons.mp body).2) (increment.readable last)
    exact readable_forTree (ihStart start) (condition.readable middle) turned
  | uninitialized _ isName => exact ⟨(scanned_cons.mp scanned).2.isName isName, trivial⟩
  | initialized _ isName _ derives =>
    have named := (scanned_cons.mp scanned).2
    have value := (scanned_cons.mp (scanned_cons.mp named).2).2
    exact ⟨named.isName isName, derives.readable (scanned_append.mp value).1⟩
  | noInitializer => exact nofun
  | varInitializer _ ih =>
    rintro s ⟨⟩
    exact ih scanned
  | exprInitializer derives =>
    rintro s ⟨⟩
    exact derives.readable (scanned_append.mp scanned).1
  | function isName _ parameters _ _ _ _ ih =>
    obtain ⟨listed, others⟩ := scanned_append.mp (scanned_cons.mp (scanned_cons.mp scanned).2).2
    have body := (scanned_cons.mp (scanned_cons.mp others).2).2
    exact ⟨scanned.isName isName, parameters.readable listed, ih (scanned_append.mp body).1⟩
  | noMethods | empty => trivial
  | method _ _ ih ihOthers | item _ _ ih ihOthers =>
    obtain ⟨first, others⟩ := scanned_append.mp scanned
    exact ⟨ih first, ihOthers others⟩

end Grammar

/-- The tokens of a source text are spelled as the lexical grammar has it. -/
theorem scanned_of_source {source : String} {tokens : List Token} {mark : Token}
    (split : (Scan.ofSource source).tokens = tokens ++ [mark]) : Scanned tokens := by
  obtain ⟨parts, laid, -, -, scan, -⟩ := source_laid_out source
  rw [List.append_inj_left' (split.symm.trans scan) rfl]
  exact laid.lexeme

theorem readable_of_parse {source : String} {p : Program} (parsed : parse source = .ok p) : p.Readable := by
  obtain ⟨-, tokens, mark, split, derives⟩ := derives_of_parse parsed
  exact Derives.readable derives (scanned_of_source split)

/-- Two scripts are printed alike exactly if their programs are the same, up to lines and with every
number that is not finite taken for a variable named `inf`. No declaration has a line feed in its
text, so the lines of a printed program are its declarations, one by one. -/
theorem printed_programs {a b : String} {p q : Program} (parsed : parse a = .ok p)
    (parsed' : parse b = .ok q) : (p.text = q.text ↔ p.nameInfinite.Alike q.nameInfinite) ∧
      (∀ s ∈ p.declarations, s.text ≠ "" ∧ '\n' ∉ s.text.toList) ∧
      (p.text = "" ↔ p.declarations = []) ∧
      (p.declarations ≠ [] → p.text.toList.splitOn '\n' = p.declarations.map fun s => s.text.toList) := by
  have readable := readable_of_parse parsed
  refine ⟨readable.text_eq_iff (readable_of_parse parsed'), fun s declared => ?_, readable.text_eq_empty,
    readable.splitOn_text⟩
  obtain ⟨some, oneLine⟩ := readable.line (List.mem_map_of_mem declared)
  exact ⟨fun none => some (String.toList_eq_nil_iff.mpr none), oneLine⟩

/-- The same number, written in two ways on different lines. -/
theorem printed_programs_one :
    ∃ p q, parse "print 1;" = .ok p ∧ parse "print\n1.0;" = .ok q ∧ p.text = "(print 1)" ∧
      p.nameInfinite.Alike q.nameInfinite := by
  have printed : (parse "print 1;").toOption.map Program.text = some "(print 1)" := by decide +kernel
  have printed' : (parse "print\n1.0;").toOption.map Program.text = some "(print 1)" := by decide +kernel
  cases parsed : parse "print 1;" with
  | error =>
    rw [parsed] at printed
    cases printed
  | ok p =>
    cases parsed' : parse "print\n1.0;" with
    | error =>
      rw [parsed'] at printed'
      cases printed'
    | ok q =>
      rw [parsed] at printed
      rw [parsed'] at printed'
      have text := Option.some.inj printed
      have text' := Option.some.inj printed'
      exact ⟨p, q, rfl, rfl, text, (printed_programs parsed parsed').1.mp (text.trans text'.symm)⟩

end LoxFrontEnd
