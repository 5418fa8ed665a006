import LoxFrontEnd.Proofs.Parse.Canonical
import LoxFrontEnd.Proofs.Tree.Enclosures

/-!
How deep bodies stand in one another in a program that is parsed. The limit to nesting holds for
blocks only: the body of a function or of a class stands at the depth of its declaration, so that
there may be any number of them.
-/

namespace LoxFrontEnd

open Grammar Parse Enclosure

namespace Grammar

/-- The ways down from a phrase are those of its trees. -/
def Phrase.Way : Phrase → List Enclosure → Prop
  | .declaration _ s, way | .statement _ s, way | .unnested _ s, way | .varDecl s, way => s.Way way
  | .initializer o, way => ∃ s, o = some s ∧ s.Way way
  | .function f, way => (Stmt.funDecl f).Way way
  | .methods fs, way => ∃ f ∈ fs, (Stmt.funDecl f).Way way
  | .body ss, way => ∃ s ∈ ss, s.Way way

/-- What a phrase has room for, where it stands at this depth. The first body that a statement has is
a block. -/
def Phrase.Room (limit depth : Nat) : Phrase → List Enclosure → Prop
  | .statement .., way => depth < limit ∧ levels way ≤ limit - depth ∧ ∀ outer ∈ way.head?, outer = .block
  | .unnested .., way => levels way ≤ limit - depth + 1 ∧ ∀ outer ∈ way.head?, outer = .block
  | .varDecl _, way | .initializer _, way => way = []
  | _, way => levels way ≤ limit - depth

variable {limit depth : Nat} {tokens : List Token}

/-- A way down from a turn of a loop goes down from the body, and may enter a block before. -/
theorem way_of_turn {s : Stmt} {o : Option Expr} {way : List Enclosure} (goes : (turn s o).Way way) :
    s.Way way ∨ ∃ inner, way = .block :: inner ∧ s.Way inner := by
  cases o with
  | none => exact Or.inl goes
  | some increment =>
    cases goes with
    | here => exact Or.inl .here
    | block => exact Or.inr ⟨[], rfl, .here⟩
    | inBlock member below =>
      rcases List.mem_cons.mp member with rfl | member
      · exact Or.inr ⟨_, rfl, below⟩
      · obtain rfl := List.mem_singleton.mp member
        cases below
        exact Or.inr ⟨[], rfl, .here⟩

theorem way_of_forTree {start : Option Stmt} {o : Option Expr} {s : Stmt} {way : List Enclosure}
    (flat : ∀ {way}, (Phrase.initializer start).Way way → way = []) (goes : (forTree start o s).Way way) :
    way = [] ∨ ∃ inner, way = .block :: inner ∧ s.Way inner := by
  cases goes with
  | here => exact Or.inl rfl
  | block => exact Or.inr ⟨[], rfl, .here⟩
  | inBlock member below =>
    refine Or.inr ⟨_, rfl, ?_⟩
    rcases List.mem_append.mp member with member | member
    · obtain rfl := flat ⟨_, Option.mem_toList.mp member, below⟩
      exact .here
    · obtain rfl := List.mem_singleton.mp member
      cases below with
      | here => exact .here
      | loop below => exact below

/-- No way down from a phrase takes more levels than there are. -/
theorem Derives.room {phrase : Phrase} (derives : Derives limit depth phrase tokens) {way : List Enclosure}
    (goes : phrase.Way way) : phrase.Room limit depth way := by
  induction derives generalizing way with
  | varDeclaration _ ih =>
    obtain rfl := ih goes
    exact Nat.zero_le _
  | funDeclaration _ _ ih => exact ih goes
  | classDeclaration _ _ _ _ _ _ ih =>
    cases goes with
    | here | classBody => exact Nat.zero_le _
    | method member below =>
      have fits := ih ⟨_, member, below⟩
      exact fits
  | plain _ ih => exact (ih goes).2.1
  | nested deeper _ ih =>
    obtain ⟨fits, first⟩ := ih goes
    exact ⟨deeper, by omega, first⟩
  | expr | print | ret =>
    cases goes
    exact ⟨Nat.zero_le _, nofun⟩
  | block _ _ _ ih =>
    cases goes with
    | here => exact ⟨Nat.zero_le _, nofun⟩
    | block => exact ⟨Nat.le_add_left 1 _, fun outer isFirst => (Option.some.inj isFirst).symm⟩
    | @inBlock _ s way member below =>
      have fits : levels way ≤ _ - _ := ih ⟨s, member, below⟩
      have one := (levels_block way).2
      exact ⟨by omega, fun outer isFirst => (Option.some.inj isFirst).symm⟩
  | whileLoop _ _ _ _ _ ih =>
    cases goes with
    | here => exact ⟨Nat.zero_le _, nofun⟩
    | loop below =>
      obtain ⟨-, fits, first⟩ := ih below
      exact ⟨Nat.le_succ_of_le fits, first⟩
  | ifThen _ _ _ _ _ ih =>
    cases goes with
    | here => exact ⟨Nat.zero_le _, nofun⟩
    | thenBranch below =>
      obtain ⟨-, fits, first⟩ := ih below
      exact ⟨Nat.le_succ_of_le fits, first⟩
  | ifElse _ _ _ _ _ _ _ ih ihElse =>
    cases goes with
    | here => exact ⟨Nat.zero_le _, nofun⟩
    | thenBranch below =>
      obtain ⟨-, fits, first⟩ := ih below
      exact ⟨Nat.le_succ_of_le fits, first⟩
    | elseBranch below =>
      obtain ⟨-, fits, first⟩ := ihElse below
      exact ⟨Nat.le_succ_of_le fits, first⟩
  | forLoop _ _ _ _ _ _ _ _ ihStart ih =>
    obtain ⟨deeper, -⟩ := ih .here
    rcases way_of_forTree (fun start => ihStart start) goes with rfl | ⟨inner, rfl, below⟩
    · exact ⟨Nat.zero_le _, nofun⟩
    · refine ⟨?_, fun outer isFirst => (Option.some.inj isFirst).symm⟩
      rcases way_of_turn below with under | ⟨_, rfl, under⟩
      · obtain ⟨-, fits, -⟩ := ih under
        have one := (levels_block inner).2
        omega
      · obtain ⟨-, fits, first⟩ := ih under
        have two := levels_blocks first
        omega
  | uninitialized | initialized =>
    cases goes
    rfl
  | noInitializer =>
    obtain ⟨s, isSome, -⟩ := goes
    cases isSome
  | varInitializer _ ih =>
    obtain ⟨s, isSome, below⟩ := goes
    cases isSome
    exact ih below
  | exprInitializer =>
    obtain ⟨s, isSome, below⟩ := goes
    cases isSome
    cases below
    rfl
  | function _ _ _ _ _ _ _ ih =>
    cases goes with
    | here | function => exact Nat.zero_le _
    | inFunction member below =>
      have fits := ih ⟨_, member, below⟩
      exact fits
  | noMethods | empty =>
    obtain ⟨_, member, -⟩ := goes
    cases member
  | method _ _ ih ihOthers | item _ _ ih ihOthers =>
    obtain ⟨part, member, below⟩ := goes
    rcases List.mem_cons.mp member with rfl | member
    · exact ih below
    · exact ihOthers ⟨part, member, below⟩

/-- Some tokens at this depth have the way down. What kind of phrase they are is told by the first body. -/
def Leads (limit depth : Nat) : List Enclosure → Prop
  | [] => True
  | .functionBody :: way => ∃ f tokens, Derives limit depth (.function f) tokens ∧
      (Stmt.funDecl f).Way (.functionBody :: way)
  | .classBody :: way => ∃ s tokens, Derives limit depth (.declaration .closed s) tokens ∧
      s.Way (.classBody :: way)
  | .block :: way => ∃ tail s tokens, Derives limit depth (.statement tail s) tokens ∧ s.Way (.block :: way)

section Leads

variable {way : List Enclosure}

theorem Leads.declaration (leads : Leads limit depth way) :
    ∃ tail s tokens, Derives limit depth (.declaration tail s) tokens ∧ s.Way way := by
  match way, leads with
  | [], _ =>
    have plain : Derives limit depth (.varDecl _)
        [⟨.kwVar, "var", .start⟩, ⟨.identifier, "v", .start⟩, ⟨.semicolon, ";", .start⟩] :=
          .uninitialized rfl rfl rfl
    exact ⟨_, _, _, .varDeclaration plain, .here⟩
  | .functionBody :: _, ⟨_, _, derives, goes⟩ =>
    have keyword : Token.kind ⟨.kwFun, "fun", .start⟩ = .kwFun := rfl
    exact ⟨_, _, _, .funDeclaration keyword derives, goes⟩
  | .classBody :: _, ⟨_, _, derives, goes⟩ => exact ⟨_, _, _, derives, goes⟩
  | .block :: _, ⟨_, _, _, derives, goes⟩ => exact ⟨_, _, _, .plain derives, goes⟩

theorem Leads.function (leads : Leads limit depth way) : Leads limit depth (.functionBody :: way) := by
  obtain ⟨_, s, tokens, derives, goes⟩ := leads.declaration
  have body : Derives limit depth (.body [s]) (tokens ++ []) := .item derives .empty
  have function : Derives limit depth (.function _)
      (⟨.identifier, "f", .start⟩ :: ⟨.leftParen, "(", .start⟩ :: ([] ++ ⟨.rightParen, ")", .start⟩ ::
        ⟨.leftBrace, "\x7b", .start⟩ :: (tokens ++ [] ++ [⟨.rightBrace, "\x7d", .start⟩]))) :=
    .function rfl rfl .none rfl rfl body rfl
  exact ⟨_, _, function, .inFunction List.mem_cons_self goes⟩

theorem Leads.classBody (leads : Leads limit depth way)
    (methods : ∀ inner ∈ way.head?, inner = .functionBody) :
    Leads limit depth (.classBody :: way) := by
  have declared {fs : List Function} {tokens : List Token}
      (derives : Derives limit depth (.methods fs) tokens) :
      Derives limit depth (.declaration .closed (.classDecl _ none fs _))
        (⟨.kwClass, "class", .start⟩ :: ⟨.identifier, "C", .start⟩ :: ([] ++ ⟨.leftBrace, "\x7b", .start⟩ ::
          (tokens ++ [⟨.rightBrace, "\x7d", .start⟩]))) :=
    .classDeclaration rfl rfl .none rfl derives rfl
  match way, leads, methods with
  | [], _, _ => exact ⟨_, _, declared .noMethods, .classBody⟩
  | .functionBody :: _, ⟨f, tokens, derives, goes⟩, _ =>
    exact ⟨_, _, declared (.method derives .noMethods), .method List.mem_cons_self goes⟩
  | .classBody :: _, _, methods | .block :: _, _, methods => cases methods _ rfl

theorem Leads.block (leads : Leads limit (depth + 1) way) (room : depth < limit) :
    Leads limit depth (.block :: way) := by
  obtain ⟨_, s, tokens, derives, goes⟩ := leads.declaration
  have body : Derives limit (depth + 1) (.body [s]) (tokens ++ []) := .item derives .empty
  have block : Derives limit (depth + 1) (.unnested .closed (.block [s]))
      (⟨.leftBrace, "\x7b", .start⟩ :: (tokens ++ [] ++ [⟨.rightBrace, "\x7d", .start⟩])) :=
        .block rfl body rfl
  exact ⟨_, _, _, .nested room block, .inBlock List.mem_cons_self goes⟩

/-- A loop with an increment enters two blocks at one level. -/
theorem Leads.blocks (leads : Leads limit (depth + 1) (.block :: way)) (room : depth + 1 < limit) :
    Leads limit depth (.block :: .block :: .block :: way) := by
  obtain ⟨tail, s, tokens, derives, goes⟩ := leads
  have leaf : DerivesExpr limit (depth + 2) (.rung 9 (.literal .nil)) [⟨.kwNil, "nil", .start⟩] :=
    .leaf (.nil rfl)
  have increment : OptionalExpr limit (depth + 1) (some (.literal .nil)) [⟨.kwNil, "nil", .start⟩] :=
    .some (.nested room (leaf.loosen_to (by decide)))
  have start : Derives limit (depth + 1) (.initializer none) [⟨.semicolon, ";", .start⟩] :=
    .noInitializer rfl
  have loop : Derives limit (depth + 1) (.unnested tail (forTree none none (turn s (some (.literal .nil)))))
      (⟨.kwFor, "for", .start⟩ :: ⟨.leftParen, "(", .start⟩ :: ([⟨.semicolon, ";", .start⟩] ++ ([] ++
        ⟨.semicolon, ";", .start⟩ ::
        ([⟨.kwNil, "nil", .start⟩] ++ ⟨.rightParen, ")", .start⟩ :: tokens)))) :=
    .forLoop rfl rfl start .none rfl increment rfl derives
  have inner : (turn s (some (.literal .nil))).Way (.block :: .block :: way) :=
    .inBlock List.mem_cons_self goes
  exact ⟨_, _, _, .nested (by omega) loop, .inBlock List.mem_cons_self (.loop inner)⟩

/-- Wherever there are levels enough for a way, some tokens have it. -/
theorem leads_of_levels (fits : levels way ≤ limit - depth) (methods : way.IsChain Methods) :
    Leads limit depth way := by
  induction way using levels.induct generalizing depth with
  | case1 => trivial
  | case2 way ih =>
    rw [levels] at fits
    have one : 1 ≤ levels (.block :: way) := by
      have blocks := count_block_le (.block :: way)
      rw [List.count_cons_self] at blocks
      omega
    exact (ih (by omega) methods.tail.tail).blocks (by omega)
  | case3 way single ih =>
    rw [levels.eq_3 _ single] at fits
    exact (ih (by omega) methods.tail).block (by omega)
  | case4 way ih => exact (ih fits methods.tail).function
  | case5 way ih =>
    refine (ih fits methods.tail).classBody fun inner first => ?_
    exact (List.isChain_cons.mp methods).1 inner first rfl

end Leads

end Grammar

namespace Session

variable {way : List Enclosure}

theorem levels_of_program {tokens : List Token} {p : Program}
    (answer : (ofTokens tokens).program.result = .ok p) (goes : p.Way way) : levels way ≤ maxNesting := by
  obtain ⟨rest, read⟩ := program_ok_iff_reads.mp answer
  obtain ⟨taken, -, derives⟩ := body_yields (declaration_yields (Nat.zero_add maxNesting)) _ _ _ read
  exact derives.room goes

theorem exists_program_of_levels (fits : levels way ≤ maxNesting) (methods : way.IsChain Methods) :
    ∃ tokens p, (ofTokens tokens).program.result = .ok p ∧ p.Way way := by
  have leads : Leads maxNesting 0 way := leads_of_levels fits methods
  obtain ⟨_, s, tokens, derives, goes⟩ := leads.declaration
  have program : DerivesProgram (tokens ++ []) ⟨[s]⟩ := .item derives .empty
  have mark : Token.kind ⟨.eof, "", .start⟩ = .eof := rfl
  exact ⟨_, _, (program_ok_iff_derives program.kind_ne_eof mark).mpr program, s, List.mem_cons_self, goes⟩

/-- A way down through bodies is one of a program that is answered exactly if it takes no more levels
than there are, and there are only methods in the bodies of classes. So there are 255 enclosures on it
at most, apart from the bodies of functions and of classes. -/
theorem program_way_iff (way : List Enclosure) :
    ((∃ tokens p, (ofTokens tokens).program.result = .ok p ∧ p.Way way) ↔
      levels way ≤ maxNesting ∧ way.IsChain Methods) ∧
    ∀ tokens p, (ofTokens tokens).program.result = .ok p → p.Way way →
      way.length ≤ 2 * maxNesting - 1 + way.countP (· ≠ .block) := by
  refine ⟨⟨?_, ?_⟩, ?_⟩
  · rintro ⟨tokens, p, answer, goes⟩
    have fits := levels_of_program answer goes
    obtain ⟨s, -, goes⟩ := goes
    exact ⟨fits, goes.methods⟩
  · rintro ⟨fits, methods⟩
    exact exists_program_of_levels fits methods
  · intro tokens p answer goes
    have fits := levels_of_program answer goes
    have blocks := count_block_le way
    have all : way.length = way.count .block + way.countP (· ≠ .block) := by
      rw [List.count_eq_countP]
      simpa using way.length_eq_countP_add_countP (· == Enclosure.block)
    omega

/-- A block in a method of a class in the body of a function. -/
theorem program_way_method : ∃ tokens p, (ofTokens tokens).program.result = .ok p ∧
    p.Way [.functionBody, .classBody, .functionBody, .block] :=
  (program_way_iff _).1.mpr ⟨by decide, by decide⟩

theorem levels_functionBodies (count : Nat) : levels (List.replicate count .functionBody) = 0 := by
  induction count with
  | zero => rfl
  | succ count ih => exact ih

/-- Whatever the bound, the bodies of functions stand deeper in one another in some program that is
answered. -/
theorem program_way_unbounded :
    ¬ ∃ bound, ∀ tokens p way, (ofTokens tokens).program.result = .ok p → p.Way way →
    way.length ≤ bound := by
  rintro ⟨bound, bounded⟩
  have none := levels_functionBodies (bound + 1)
  have methods : (List.replicate (bound + 1) Enclosure.functionBody).IsChain Methods :=
    List.isChain_replicate_of_rel _ nofun
  obtain ⟨tokens, p, answer, goes⟩ := exists_program_of_levels (by rw [none]; exact Nat.zero_le _) methods
  have length := bounded tokens p _ answer goes
  rw [List.length_replicate] at length
  omega

end Session

end LoxFrontEnd
