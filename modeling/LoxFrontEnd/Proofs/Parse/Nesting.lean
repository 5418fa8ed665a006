import LoxFrontEnd.Proofs.Parse.Canonical
import LoxFrontEnd.Proofs.Parse.ErrorOrder
import LoxFrontEnd.Proofs.Parse.Levels
import LoxFrontEnd.Proofs.Tree.Nesting

/-!
Which expressions are refused because they are nested too deep. The limit holds on every way down from
the root for what is entered and for the operators that stand behind all of it. Operators in front of
what is entered are not counted with it, so that a way down may have more steps than the limit.
-/

namespace LoxFrontEnd

open Grammar Parse

namespace Expr

theorem prefixes_le {limit depth : Nat} {e : Expr} (fits : e.Fits limit depth) (room : depth ≤ limit) :
    depth + e.prefixes ≤ limit := by
  cases e with
  | unary => exact fits.1
  | _ => exact room

end Expr

namespace Grammar

/-- What a phrase asks of a limit, where it stands at this depth. -/
def Roomy (limit depth : Nat) : ExprPhrase → Prop
  | .expression e => depth < limit ∧ e.Fits limit (depth + 1)
  | .rung _ e | .prefixed _ e => depth ≤ limit ∧ e.Fits limit depth
  | .arguments es => Expr.FitsAll limit depth es

/-- The limit is no part of how a phrase is derived. -/
theorem DerivesExpr.of_roomy {limit limit' depth : Nat} {phrase : ExprPhrase} {tokens : List Token}
    (derives : DerivesExpr limit depth phrase tokens) (roomy : Roomy limit' depth phrase) :
    DerivesExpr limit' depth phrase tokens := by
  induction derives with
  | nested _ _ ih => exact .nested roomy.1 (ih roomy)
  | loosen _ ih => exact .loosen (ih roomy)
  | assign _ isEqual _ ih ihValue => exact .assign (ih ⟨roomy.1, trivial⟩) isEqual (ihValue roomy.2)
  | setAttr _ isEqual _ ih ihValue => exact .setAttr (ih ⟨roomy.1, roomy.2.1⟩) isEqual (ihValue roomy.2.2)
  | join _ isSign _ ih ihRight =>
    obtain ⟨fits, fitsRight⟩ := Expr.fits_node.mp roomy.2
    exact .join (ih ⟨roomy.1, fits⟩) isSign (ihRight ⟨roomy.1, fitsRight⟩)
  | operand _ ih => exact .operand (ih roomy)
  | prefixed isSign _ ih => exact .prefixed isSign (ih ⟨roomy.1, roomy.2.2⟩)
  | run _ inner ih =>
    have bound := Expr.prefixes_le roomy.2 roomy.1
    rw [(shaped_of_derives inner).2.2.1] at bound
    exact .run bound (ih roomy)
  | call _ isOpening _ isClosing ih ihArguments =>
    exact .call (ih ⟨roomy.1, roomy.2.1⟩) isOpening (ihArguments roomy.2.2) isClosing
  | getAttr _ isDot isName ih => exact .getAttr (ih roomy) isDot isName
  | leaf leaf => exact .leaf leaf
  | super isSuper isDot isName => exact .super isSuper isDot isName
  | grouping isOpening _ isClosing ih => exact .grouping isOpening (ih roomy.2) isClosing
  | noArguments => exact .noArguments
  | lastArgument _ ih => exact .lastArgument (ih roomy.1)
  | moreArguments _ isComma _ ih ihOthers => exact .moreArguments (ih roomy.1) isComma (ihOthers roomy.2)

/-- The tokens up to the end of input are the expression, however deep it is nested. -/
def Writes (tokens : List Token) (e : Expr) : Prop :=
  ∃ limit front rest, tokens = front ++ rest ∧ Input.kind ⟨rest, .start⟩ = .eof ∧
    DerivesExpr limit 0 (.expression e) front

/-- Within a limit an expression is derived exactly if it is derived within some limit and no way down
exceeds this one. -/
theorem derives_iff_nestedWithin {limit limit' : Nat} {e : Expr} {tokens : List Token}
    (derives : DerivesExpr limit' 0 (.expression e) tokens) :
    DerivesExpr limit 0 (.expression e) tokens ↔ e.NestedWithin limit := by
  rw [Expr.NestedWithin, Expr.within_iff_fits (shaped_of_derives derives).1]
  exact ⟨fun derives => (shaped_of_derives derives).2, derives.of_roomy⟩

end Grammar

namespace Session

/-- Nothing is recovered from in an expression, so the answer is what comes of the rule. -/
theorem expression_result (tokens : List Token) (levels : Nat) :
    ((ofTokens tokens).single (Parse.expression levels)).result =
      (whole (Parse.expression levels) ⟨tokens, .start⟩).result := by
  have clean :
      (ofTokens tokens).queue ++ (Parse.expression levels (ofTokens tokens).input).recovered = [] := by
    rw [Outcome.recovered, silent_expression levels]
    rfl
  rw [single_of_nil clean]
  rfl

theorem expression_capped (tokens : List Token) {levels levels' : Nat} (le : levels ≤ levels') :
    ((ofTokens tokens).single (Parse.expression levels)).result =
        ((ofTokens tokens).single (Parse.expression levels')).result ∨
      TooDeep ((ofTokens tokens).single (Parse.expression levels)).result := by
  rw [expression_result, expression_result]
  have capped : Capped (whole (Parse.expression levels)) (whole (Parse.expression levels')) :=
    (capped_expression le).bind fun _ => .refl _
  rcases capped ⟨tokens, .start⟩ with same | refused
  · exact Or.inl (congrArg Outcome.result same)
  · exact Or.inr refused

theorem expression_of_derives {limit : Nat} {e : Expr} {front rest : List Token}
    (derives : DerivesExpr limit 0 (.expression e) front) (ends : Input.kind ⟨rest, .start⟩ = .eof) :
    ((ofTokens (front ++ rest)).single (Parse.expression limit)).result = .ok e := by
  have none : (Input.kind ⟨rest, .start⟩).rank? = none := by rw [ends]; rfl
  exact single_ok_iff_reads.mpr ⟨_, reads_expression (Nat.zero_add limit) derives none, ends⟩

theorem derives_of_expression {limit : Nat} {e : Expr} {tokens : List Token}
    (answer : ((ofTokens tokens).single (Parse.expression limit)).result = .ok e) :
    ∃ front rest, tokens = front ++ rest ∧ Input.kind ⟨rest, .start⟩ = .eof ∧
      DerivesExpr limit 0 (.expression e) front := by
  obtain ⟨rest, read, ends⟩ := single_ok_iff_reads.mp answer
  obtain ⟨taken, front, derives⟩ := expression_yields (Nat.zero_add limit) _ _ _ read
  exact ⟨taken, rest.tokens, front, ends, derives⟩

/-- An expression is answered exactly if the tokens are that expression and no way down exceeds the
limit. An expression with a way down that does is answered with the error for it. On any tokens, a
higher limit changes no other answer than this error. -/
theorem expression_nestedWithin (tokens : List Token) (e : Expr) :
    ((ofTokens tokens).expression.result = .ok e ↔ Writes tokens e ∧ e.NestedWithin maxNesting) ∧
    (Writes tokens e → ¬ e.NestedWithin maxNesting → TooDeep (ofTokens tokens).expression.result) ∧
    ∀ levels, maxNesting ≤ levels →
      (ofTokens tokens).expression.result = ((ofTokens tokens).single (Parse.expression levels)).result ∨
        TooDeep (ofTokens tokens).expression.result := by
  have accepted (answer : (ofTokens tokens).expression.result = .ok e) :
      Writes tokens e ∧ e.NestedWithin maxNesting := by
    obtain ⟨front, rest, isTokens, ends, derives⟩ := derives_of_expression answer
    exact ⟨⟨maxNesting, front, rest, isTokens, ends, derives⟩,
      (derives_iff_nestedWithin derives).mp derives⟩
  refine ⟨⟨accepted, ?_⟩, ?_, fun levels le => expression_capped tokens le⟩
  · rintro ⟨⟨limit, front, rest, rfl, ends, derives⟩, within⟩
    exact expression_of_derives ((derives_iff_nestedWithin derives).mpr within) ends
  · rintro ⟨limit, front, rest, rfl, ends, derives⟩ deep
    have answer := expression_of_derives derives ends
    -- under a limit that is no higher it would have been answered, and then it would be nested within it
    rcases Nat.le_total limit maxNesting with low | high
    · rcases expression_capped (front ++ rest) low with same | ⟨_, _, refused⟩
      · exact absurd (accepted (same.symm.trans answer)).2 deep
      · cases answer.symm.trans refused
    · rcases expression_capped (front ++ rest) high with same | refused
      · exact absurd (accepted (same.trans answer)).2 deep
      · exact refused

end Session

/-- So many times `-(` around `nil`. -/
def Expr.tower : Nat → Expr
  | 0 => .literal .nil
  | height + 1 => .unary .minus (.grouping (tower height))

def towerTokens : Nat → List Token
  | 0 => [⟨.kwNil, "nil", .start⟩]
  | height + 1 =>
    ⟨.minus, "-", .start⟩ :: (⟨.leftParen, "(", .start⟩ :: towerTokens height ++
      [⟨.rightParen, ")", .start⟩])

/-- On the way to the bottom of a tower there are two steps for each storey, and only one of them
enters anything. -/
theorem Expr.path_tower (height : Nat) : ∃ steps, (tower height).Path steps ∧
    steps.countP Descent.counts = 2 * height ∧ steps.countP Descent.enters = height := by
  induction height with
  | zero => exact ⟨[], .here, rfl, rfl⟩
  | succ height ih =>
    obtain ⟨steps, path, counted, entered⟩ := ih
    refine ⟨.operand :: .grouping :: steps, .down .operand (.down .grouping path), ?_, ?_⟩
    · rw [List.countP_cons_of_pos rfl, List.countP_cons_of_pos rfl, counted]
      rfl
    · rw [List.countP_cons_of_neg (by decide), List.countP_cons_of_pos rfl, entered]

theorem Grammar.derives_tower {limit : Nat} (height : Nat) {depth : Nat} (room : depth + height < limit) :
    DerivesExpr limit depth (.expression (.tower height)) (towerTokens height) := by
  induction height generalizing depth with
  | zero =>
    have leaf : DerivesExpr limit (depth + 1) (.rung 9 (.literal .nil)) (towerTokens 0) := .leaf (.nil rfl)
    exact .nested room (leaf.loosen_to (by decide))
  | succ height ih =>
    have inner : DerivesExpr limit (depth + 1) (.expression (.tower height)) (towerTokens height) :=
      ih (by omega)
    have grouping : DerivesExpr limit (depth + 1) (.rung 9 (.grouping (.tower height)))
        (⟨.leftParen, "(", .start⟩ :: towerTokens height ++ [⟨.rightParen, ")", .start⟩]) :=
          .grouping rfl inner rfl
    have signed :
        DerivesExpr limit (depth + 1) (.prefixed 1 (.tower (height + 1))) (towerTokens (height + 1)) :=
      .prefixed rfl (.operand (grouping.loosen_to (by decide)))
    have run : DerivesExpr limit (depth + 1) (.rung 7 _) _ := .run (by omega) signed
    exact .nested (by omega) (run.loosen_to (by decide))

namespace Session

/-- The tower of 65 storeys is answered, though the way to its bottom has 130 steps. -/
theorem expression_over_limit : ¬ ∀ tokens e, (ofTokens tokens).expression.result = .ok e →
    ∀ steps, e.Path steps → steps.countP Descent.counts ≤ maxNesting := by
  intro bounded
  obtain ⟨steps, path, counted, -⟩ := Expr.path_tower 65
  have derives : DerivesExpr maxNesting 0 (.expression (.tower 65)) (towerTokens 65) :=
    derives_tower 65 (by decide)
  have answer : (ofTokens (towerTokens 65 ++ [⟨.eof, "", .start⟩])).expression.result = .ok (.tower 65) :=
    expression_of_derives derives rfl
  have bound := bounded _ _ answer steps path
  rw [counted] at bound
  exact absurd bound (by decide)

/-- The tower of 128 storeys is refused. -/
theorem expression_nestedWithin_tower :
    Writes (towerTokens 128 ++ [⟨.eof, "", .start⟩]) (.tower 128) ∧
      ¬ (Expr.tower 128).NestedWithin maxNesting ∧
      TooDeep (ofTokens (towerTokens 128 ++ [⟨.eof, "", .start⟩])).expression.result := by
  have written : Writes (towerTokens 128 ++ [⟨.eof, "", .start⟩]) (.tower 128) :=
    ⟨129, towerTokens 128, [⟨.eof, "", .start⟩], rfl, rfl, derives_tower 128 (by decide)⟩
  have deep : ¬ (Expr.tower 128).NestedWithin maxNesting := by
    intro within
    obtain ⟨steps, path, -, entered⟩ := Expr.path_tower 128
    have bound := within steps [] (by rwa [List.append_nil]) nofun
    rw [entered] at bound
    exact absurd bound (by decide)
  exact ⟨written, deep, (expression_nestedWithin _ _).2.1 written deep⟩

end Session

end LoxFrontEnd
