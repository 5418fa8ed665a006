import LoxFrontEnd.Proofs.Parse.Progress

/-!
What recovery skips. A part at the front of the tokens is skipped that the kinds of the tokens
determine: the first token is skipped whatever it is, unless it closes an open block, and the others
up to the end of the statement.
-/

namespace LoxFrontEnd

namespace TokenKind

/-- The keywords that only a declaration or a statement begins with. -/
def statementKeywords : List TokenKind :=
  [.kwClass, .kwFun, .kwVar, .kwFor, .kwIf, .kwWhile, .kwPrint, .kwReturn]

theorem mem_statementKeywords_iff {kind : TokenKind} :
    kind ∈ statementKeywords ↔ kind.startsStatement = true := by
  constructor
  · have all : ∀ kind ∈ statementKeywords, kind.startsStatement = true := by decide
    exact all kind
  · intro starts
    cases kind
    all_goals first
      | decide
      | cases starts

/-- In front of a token of this kind recovery stops: at the end of input, at a keyword that begins a
statement, and within braces at the closing brace. -/
def Halts (enclosed : Bool) (kind : TokenKind) : Prop :=
  kind = .eof ∨ kind ∈ statementKeywords ∨ kind = .rightBrace ∧ enclosed = true

instance (enclosed : Bool) (kind : TokenKind) : Decidable (kind.Halts enclosed) :=
  inferInstanceAs (Decidable (_ ∨ _))

end TokenKind

/-- The tokens skipped go to the end of a statement and no further. -/
structure SkipsToEnd (enclosed : Bool) (skipped left : List Token) : Prop where
  /-- A semicolon is the last token skipped. -/
  semicolon : ∀ token ∈ skipped.dropLast, token.kind ≠ .semicolon
  /-- Nothing more can be skipped. -/
  ends : (∃ token, skipped.getLast? = some token ∧ token.kind = .semicolon) ∨ left = [] ∨
    ∃ token others, left = token :: others ∧ token.kind.Halts enclosed

/-- Recovery skips these tokens, and leaves the others. -/
structure Skips (enclosed : Bool)
    (skipped left : List Token) : Prop extends SkipsToEnd enclosed skipped left where
  /-- Nothing is skipped where nothing is left, or where the next token closes an open block. -/
  nil_iff : skipped = [] ↔ skipped ++ left = [] ∨
    ∃ token others, skipped ++ left = token :: others ∧ token.kind = .rightBrace ∧ enclosed = true
  /-- Only the first token may be one that recovery stops in front of. -/
  inner : ∀ token ∈ skipped.tail, ¬ token.kind.Halts enclosed

variable {enclosed : Bool} {token : Token} {skipped skipped' left left' : List Token}

theorem semicolon_goes {kind : TokenKind} (isSemicolon : kind = .semicolon) : ¬ kind.Halts enclosed := by
  subst isSemicolon
  rintro (isEnd | starts | ⟨isBrace, -⟩)
  · cases isEnd
  · exact absurd starts (by decide)
  · cases isBrace

namespace SkipsToEnd

theorem nil_left : SkipsToEnd enclosed [] [] where
  semicolon _ member := absurd member List.not_mem_nil
  ends := Or.inr (Or.inl rfl)

theorem of_halts {others : List Token} (halts : token.kind.Halts enclosed) :
    SkipsToEnd enclosed [] (token :: others) where
  semicolon _ member := absurd member List.not_mem_nil
  ends := Or.inr (Or.inr ⟨token, others, rfl, halts⟩)

theorem of_semicolon (isSemicolon : token.kind = .semicolon) : SkipsToEnd enclosed [token] left where
  semicolon _ member := absurd member List.not_mem_nil
  ends := Or.inl ⟨token, rfl, isSemicolon⟩

theorem cons (other : token.kind ≠ .semicolon) (skips : SkipsToEnd enclosed skipped left) :
    SkipsToEnd enclosed (token :: skipped) left where
  semicolon := by
    cases skipped with
    | nil => exact fun _ member => absurd member List.not_mem_nil
    | cons next skipped =>
      rw [List.dropLast_cons_cons]
      exact List.forall_mem_cons.mpr ⟨other, skips.semicolon⟩
  ends := by
    rcases skips.ends with ⟨last, isLast, isSemicolon⟩ | atEnd
    · refine Or.inl ⟨last, ?_, isSemicolon⟩
      rw [List.getLast?_cons, isLast]
      rfl
    · exact Or.inr atEnd

end SkipsToEnd

/-- The tokens that are skipped behind the first one. -/
theorem Input.skipOn_skips (enclosed : Bool) (last : Position) (tokens : List Token) :
    ∃ skipped left, tokens = skipped ++ left ∧ SkipsToEnd enclosed skipped left ∧
      (∀ token ∈ skipped, ¬ token.kind.Halts enclosed) ∧
      Input.skipOn enclosed last tokens = ⟨left, placeAfter last skipped⟩ := by
  induction tokens generalizing last with
  | nil => exact ⟨[], [], rfl, .nil_left, fun _ member => absurd member List.not_mem_nil, rfl⟩
  | cons token tokens ih =>
    by_cases kept : token.kind = .eof ∨ token.kind = .rightBrace ∧ enclosed = true
    · have halts : token.kind.Halts enclosed := kept.imp_right Or.inr
      refine ⟨[], token :: tokens, rfl, .of_halts halts, fun _ member => absurd member List.not_mem_nil, ?_⟩
      rw [skipOn, if_pos kept]
      rfl
    by_cases isSemicolon : token.kind = .semicolon
    · refine ⟨[token], tokens, rfl, .of_semicolon isSemicolon, fun t member => ?_, ?_⟩
      · rw [List.mem_singleton.mp member]
        exact semicolon_goes isSemicolon
      · rw [skipOn, if_neg kept, if_pos isSemicolon]
        rfl
    by_cases starts : token.kind.startsStatement = true
    · have halts : token.kind.Halts enclosed :=
        Or.inr (Or.inl (TokenKind.mem_statementKeywords_iff.mpr starts))
      refine ⟨[], token :: tokens, rfl, .of_halts halts, fun _ member => absurd member List.not_mem_nil, ?_⟩
      rw [skipOn, if_neg kept, if_neg isSemicolon, if_pos starts]
      rfl
    · have goes : ¬ token.kind.Halts enclosed := by
        rintro (isEnd | starts' | closes)
        · exact kept (Or.inl isEnd)
        · exact starts (TokenKind.mem_statementKeywords_iff.mp starts')
        · exact kept (Or.inr closes)
      obtain ⟨skipped, left, rfl, skips, inner, run⟩ := ih token.position
      refine ⟨token :: skipped, left, rfl, skips.cons isSemicolon,
        List.forall_mem_cons.mpr ⟨goes, inner⟩, ?_⟩
      rw [skipOn, if_neg kept, if_neg isSemicolon, if_neg starts, run]
      rfl

namespace Skips

theorem of_nil : Skips enclosed [] [] where
  toSkipsToEnd := .nil_left
  nil_iff := ⟨fun _ => Or.inl rfl, fun _ => rfl⟩
  inner _ member := absurd member List.not_mem_nil

theorem of_closing {others : List Token} (isBrace : token.kind = .rightBrace)
    (isEnclosed : enclosed = true) :
    Skips enclosed [] (token :: others) where
  toSkipsToEnd := .of_halts (Or.inr (Or.inr ⟨isBrace, isEnclosed⟩))
  nil_iff := ⟨fun _ => Or.inr ⟨token, others, rfl, isBrace, isEnclosed⟩, fun _ => rfl⟩
  inner _ member := absurd member List.not_mem_nil

theorem of_first (opens : ¬ (token.kind = .rightBrace ∧ enclosed = true))
    (skips : SkipsToEnd enclosed (token :: skipped) left)
    (inner : ∀ token ∈ skipped, ¬ token.kind.Halts enclosed) :
    Skips enclosed (token :: skipped) left where
  toSkipsToEnd := skips
  nil_iff := by
    refine ⟨nofun, ?_⟩
    rintro (none | ⟨first, others, same, closes⟩)
    · cases none
    · obtain ⟨rfl, -⟩ := List.cons.inj same
      exact absurd closes opens
  inner := inner

/-- Of two parts that recovery could skip at the front of the same tokens, none goes further than the
other. -/
theorem not_longer {behind : List Token} (skips : Skips enclosed skipped (token :: behind ++ left'))
    (skips' : Skips enclosed (skipped ++ token :: behind) left') : False := by
  have some : skipped ≠ [] := by
    intro none
    have closes := skips.nil_iff.mp none
    rw [← List.append_assoc] at closes
    have none' := skips'.nil_iff.mpr closes
    exact absurd none' (List.append_ne_nil_of_right_ne_nil _ (List.cons_ne_nil _ _))
  rcases skips.ends with ⟨last, isLast, isSemicolon⟩ | none | ⟨next, others, same, halts⟩
  · -- the semicolon is followed by another token that is skipped
    have among : last ∈ (skipped ++ token :: behind).dropLast := by
      rw [List.dropLast_append_cons]
      exact List.mem_append_left _ (List.mem_of_getLast? isLast)
    exact skips'.semicolon last among isSemicolon
  · cases none
  · obtain ⟨rfl, -⟩ := List.cons.inj same
    have among : token ∈ (skipped ++ token :: behind).tail := by
      rw [List.tail_append_of_ne_nil some]
      exact List.mem_append_right _ List.mem_cons_self
    exact skips'.inner token among halts

/-- What recovery skips is determined by the tokens. -/
theorem unique (skips : Skips enclosed skipped left) (skips' : Skips enclosed skipped' left')
    (same : skipped ++ left = skipped' ++ left') : skipped = skipped' ∧ left = left' := by
  rcases List.append_eq_append_iff.mp same with ⟨behind, rfl, rfl⟩ | ⟨behind, rfl, rfl⟩
  · cases behind with
    | nil => exact ⟨(List.append_nil skipped).symm, rfl⟩
    | cons token behind => exact (skips.not_longer skips').elim
  · cases behind with
    | nil => exact ⟨List.append_nil skipped', rfl⟩
    | cons token behind => exact (skips'.not_longer skips).elim

end Skips

/-- Recovery skips what its rules say, and the place is then the one of the last token skipped. -/
theorem Input.skip_skips (enclosed : Bool) (input : Input) :
    ∃ skipped left, input.tokens = skipped ++ left ∧ Skips enclosed skipped left ∧
      input.skip enclosed = ⟨left, placeAfter input.last skipped⟩ := by
  obtain ⟨tokens, last⟩ := input
  cases tokens with
  | nil => exact ⟨[], [], rfl, .of_nil, rfl⟩
  | cons token tokens =>
    rw [skip_cons]
    by_cases closes : token.kind = .rightBrace ∧ enclosed = true
    · rw [if_pos closes]
      exact ⟨[], token :: tokens, rfl, .of_closing closes.1 closes.2, rfl⟩
    by_cases isSemicolon : token.kind = .semicolon
    · rw [if_neg closes, if_pos isSemicolon]
      have none : ∀ token ∈ ([] : List Token), ¬ token.kind.Halts enclosed :=
        fun _ member => absurd member List.not_mem_nil
      exact ⟨[token], tokens, rfl, .of_first closes (.of_semicolon isSemicolon) none, rfl⟩
    · rw [if_neg closes, if_neg isSemicolon]
      obtain ⟨skipped, left, rfl, skips, inner, run⟩ := skipOn_skips enclosed token.position tokens
      exact ⟨token :: skipped, left, rfl, .of_first closes (skips.cons isSemicolon) inner, run⟩

end LoxFrontEnd
