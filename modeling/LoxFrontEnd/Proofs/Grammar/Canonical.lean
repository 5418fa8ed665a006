import LoxFrontEnd.Proofs.Tree.Canonical

/-!
Canonical trees are the ones that the grammar derives, each from its own rendering. Derivations fix what a
tree shows; the lines in it come from the tokens.
-/

namespace LoxFrontEnd

namespace Token

variable {token : Token} {kind : TokenKind} {text : String}

theorem mark_of_kind (ofKind : token.kind = kind) (plain : kind.hasText = false) :
    token.mark = .sign kind := by
  rw [mark, ofKind, plain]
  rfl

theorem mark_of_name (isName : token.kind = .identifier) : token.mark = .name token.lexeme := by
  rw [mark, isName]
  rfl

theorem kind_of_mark {m : Mark} (shown : token.mark = m) : token.kind = m.kind :=
  congrArg Mark.kind shown

theorem lexeme_of_mark {m : Mark} (shown : token.mark = m) (hasText : m.kind.hasText = true) :
    m.text = some token.lexeme := by
  rw [← shown, mark]
  exact if_pos (by rw [kind_of_mark shown]; exact hasText)

end Token

namespace Expr

open Grammar

variable {op : Operator} {a b : Expr} {limit depth : Nat}

@[simp] theorem level_node : (op.node a b).level = op.rung := by
  cases op <;> rfl

@[simp] theorem rendering_node : (op.node a b).rendering = a.rendering ++ .sign op.kind :: b.rendering := by
  cases op <;> simp only [Operator.node, rendering]

theorem canonical_node : (op.node a b).Canonical ↔
    op.rung ≤ a.level ∧ a.Canonical ∧ op.rung < b.level ∧ b.Canonical := by
  cases op <;> simp only [Operator.node, Canonical]

theorem fits_node : (op.node a b).Fits limit depth ↔ a.Fits limit depth ∧ b.Fits limit depth := by
  cases op <;> simp only [Operator.node, Fits]

theorem prefixes_eq_zero {e : Expr} (tight : 8 ≤ e.level) : e.prefixes = 0 := by
  cases e with
  | unary => exact absurd (show 8 ≤ 7 from tight) (by decide)
  | _ => rfl

end Expr

namespace Grammar

open LoxFrontEnd.Expr

/-- What a tree has to do with the tokens it is derived from. -/
def Shown (limit depth : Nat) : ExprPhrase → List Token → Prop
  | .expression e, tokens => e.Canonical ∧ (depth < limit ∧ e.Fits limit (depth + 1)) ∧
      tokens.map Token.mark = e.rendering
  | .rung level e, tokens => e.Canonical ∧ level ≤ e.level ∧ e.Fits limit depth ∧
      tokens.map Token.mark = e.rendering
  | .prefixed count e, tokens => e.Canonical ∧ 7 ≤ e.level ∧ e.prefixes = count ∧
      (depth + count ≤ limit → e.Fits limit depth) ∧ tokens.map Token.mark = e.rendering
  | .arguments es, tokens => CanonicalAll es ∧ FitsAll limit depth es ∧
      tokens.map Token.mark = renderingAll es

/-- All strings among these tokens stand in quotes. -/
def QuotedStrings (tokens : List Token) : Prop :=
  ∀ token ∈ tokens, token.kind = .string → ∃ text, Quoted token.lexeme text

theorem quotedStrings_append {first second : List Token} :
    QuotedStrings (first ++ second) ↔ QuotedStrings first ∧ QuotedStrings second :=
  List.forall_mem_append

theorem quotedStrings_cons {token : Token} {others : List Token} :
    QuotedStrings (token :: others) ↔
      (token.kind = .string → ∃ text, Quoted token.lexeme text) ∧ QuotedStrings others :=
  List.forall_mem_cons

/-- What a derivation makes of a tree, whatever the tokens show. -/
def Shaped (limit depth : Nat) : ExprPhrase → Prop
  | .expression e => e.Canonical ∧ depth < limit ∧ e.Fits limit (depth + 1)
  | .rung level e => e.Canonical ∧ level ≤ e.level ∧ e.Fits limit depth
  | .prefixed count e => e.Canonical ∧ 7 ≤ e.level ∧ e.prefixes = count ∧
      (depth + count ≤ limit → e.Fits limit depth)
  | .arguments es => CanonicalAll es ∧ FitsAll limit depth es

theorem Leaf.shaped {limit depth : Nat} {token : Token} {e : Expr} (leaf : Leaf token e) :
    Shaped limit depth (.rung 9 e) := by
  cases leaf <;> exact ⟨trivial, Nat.le_refl _, trivial⟩

/-- Derived trees are canonical. -/
theorem shaped_of_derives {limit depth : Nat} {phrase : ExprPhrase} {tokens : List Token}
    (derives : DerivesExpr limit depth phrase tokens) : Shaped limit depth phrase := by
  induction derives with
  | nested room _ ih =>
    obtain ⟨canonical, _, fits⟩ := ih
    exact ⟨canonical, room, fits⟩
  | loosen _ ih =>
    obtain ⟨canonical, tight, fits⟩ := ih
    exact ⟨canonical, Nat.le_of_succ_le tight, fits⟩
  | assign _ _ _ _ ihValue =>
    obtain ⟨canonical, fits⟩ := ihValue
    exact ⟨canonical, Nat.zero_le _, fits⟩
  | setAttr _ _ _ ih ihValue =>
    obtain ⟨⟨tight, canonical⟩, -, fits⟩ := ih
    obtain ⟨canonicalValue, fitsValue⟩ := ihValue
    exact ⟨⟨tight, canonical, canonicalValue⟩, Nat.zero_le _, fits, fitsValue⟩
  | join _ _ _ ih ihRight =>
    obtain ⟨canonical, tight, fits⟩ := ih
    obtain ⟨canonicalRight, tightRight, fitsRight⟩ := ihRight
    exact ⟨canonical_node.mpr ⟨tight, canonical, tightRight, canonicalRight⟩, Nat.le_of_eq level_node.symm,
      fits_node.mpr ⟨fits, fitsRight⟩⟩
  | operand _ ih =>
    obtain ⟨canonical, tight, fits⟩ := ih
    exact ⟨canonical, Nat.le_of_succ_le tight, prefixes_eq_zero tight, fun _ => fits⟩
  | prefixed _ _ ih =>
    obtain ⟨canonical, tight, run, fits⟩ := ih
    refine ⟨⟨tight, canonical⟩, Nat.le_refl _, congrArg (· + 1) run, fun room => ⟨?_, fits (by omega)⟩⟩
    rw [run]
    exact room
  | run room _ ih =>
    obtain ⟨canonical, tight, -, fits⟩ := ih
    exact ⟨canonical, tight, fits room⟩
  | call _ _ _ _ ih ihArguments =>
    obtain ⟨canonical, tight, fits⟩ := ih
    obtain ⟨canonicalAll, fitsAll⟩ := ihArguments
    exact ⟨⟨tight, canonical, canonicalAll⟩, Nat.le_refl _, fits, fitsAll⟩
  | getAttr _ _ _ ih =>
    obtain ⟨canonical, tight, fits⟩ := ih
    exact ⟨⟨tight, canonical⟩, Nat.le_refl _, fits⟩
  | leaf leaf => exact leaf.shaped
  | super => exact ⟨trivial, Nat.le_refl _, trivial⟩
  | grouping _ _ _ ih =>
    obtain ⟨canonical, fits⟩ := ih
    exact ⟨canonical, Nat.le_refl _, fits⟩
  | noArguments => exact ⟨trivial, trivial⟩
  | lastArgument _ ih =>
    obtain ⟨canonical, fits⟩ := ih
    exact ⟨⟨canonical, trivial⟩, fits, trivial⟩
  | moreArguments _ _ _ ih ihOthers =>
    obtain ⟨canonical, fits⟩ := ih
    obtain ⟨canonicalAll, fitsAll⟩ := ihOthers
    exact ⟨⟨canonical, canonicalAll⟩, fits, fitsAll⟩

def ExprPhrase.rendering : ExprPhrase → List Mark
  | .expression e | .rung _ e | .prefixed _ e => e.rendering
  | .arguments es => renderingAll es

theorem Leaf.renders {token : Token} {e : Expr} (leaf : Leaf token e)
    (quoted : token.kind = .string → ∃ text, Quoted token.lexeme text) : [token.mark] = e.rendering := by
  cases leaf with
  | number kind | bool kind | nil kind | this kind => exact congrArg (· :: []) (Token.mark_of_kind kind rfl)
  | name kind => exact congrArg (· :: []) (Token.mark_of_name kind)
  | string kind means =>
    refine congrArg (· :: []) ?_
    obtain ⟨text, isText⟩ := quoted kind
    rcases means with known | ⟨_, other⟩
    · rw [Token.mark, kind, Literal.mark, Mark.string, ← known, String.ofList_toList]
      rfl
    · exact absurd isText (other text)

/-- Derived trees are shown by the tokens they are derived from. -/
theorem renders_of_derives {limit depth : Nat} {phrase : ExprPhrase} {tokens : List Token}
    (derives : DerivesExpr limit depth phrase tokens) (quoted : QuotedStrings tokens) :
    tokens.map Token.mark = phrase.rendering := by
  induction derives with
  | nested _ _ ih | loosen _ ih | operand _ ih | run _ _ ih | lastArgument _ ih => exact ih quoted
  | assign _ isEqual _ ih ihValue =>
    obtain ⟨quotedLeft, quotedRight⟩ := quotedStrings_append.mp quoted
    rw [List.map_append, List.map_cons, ih quotedLeft, ihValue (quotedStrings_cons.mp quotedRight).2,
      Token.mark_of_kind isEqual rfl]
    rfl
  | setAttr _ isEqual _ ih ihValue =>
    obtain ⟨quotedLeft, quotedRight⟩ := quotedStrings_append.mp quoted
    rw [List.map_append, List.map_cons, ih quotedLeft, ihValue (quotedStrings_cons.mp quotedRight).2,
      Token.mark_of_kind isEqual rfl]
    simp only [ExprPhrase.rendering, rendering, List.append_assoc, List.cons_append, List.nil_append]
  | @join _ a b _ _ op _ _ isSign _ ih ihRight =>
    obtain ⟨quotedLeft, quotedRight⟩ := quotedStrings_append.mp quoted
    rw [List.map_append, List.map_cons, ih quotedLeft, ihRight (quotedStrings_cons.mp quotedRight).2,
      Token.mark_of_kind isSign (by cases op with | _ op => cases op <;> rfl)]
    exact rendering_node.symm
  | @prefixed _ count op e _ _ isSign _ ih =>
    rw [List.map_cons, ih (quotedStrings_cons.mp quoted).2, Token.mark_of_kind isSign (by cases op <;> rfl)]
    simp only [ExprPhrase.rendering, rendering]
  | call _ isOpening _ isClosing ih ihArguments =>
    obtain ⟨quotedCall, -⟩ := quotedStrings_append.mp quoted
    obtain ⟨quotedCallee, quotedArguments⟩ := quotedStrings_append.mp quotedCall
    simp only [List.map_append, List.map_cons, List.map_nil, ih quotedCallee,
      ihArguments (quotedStrings_cons.mp quotedArguments).2, ExprPhrase.rendering, rendering,
      Token.mark_of_kind isOpening rfl, Token.mark_of_kind isClosing rfl, List.append_assoc,
      List.cons_append]
  | getAttr _ isDot isName ih =>
    simp only [List.map_append, List.map_cons, List.map_nil, ih (quotedStrings_append.mp quoted).1,
      ExprPhrase.rendering, rendering, Token.mark_of_kind isDot rfl, Token.mark_of_name isName]
  | leaf leaf => exact leaf.renders (quotedStrings_cons.mp quoted).1
  | super isSuper isDot isName =>
    simp only [List.map_cons, List.map_nil, ExprPhrase.rendering, rendering, Token.mark_of_kind isSuper rfl,
      Token.mark_of_kind isDot rfl, Token.mark_of_name isName]
  | grouping isOpening _ isClosing ih =>
    obtain ⟨quotedInner, -⟩ := quotedStrings_append.mp (quotedStrings_cons.mp quoted).2
    simp only [List.map_append, List.map_cons, List.map_nil, ih quotedInner,
      ExprPhrase.rendering, rendering, Token.mark_of_kind isOpening rfl,
      Token.mark_of_kind isClosing rfl, List.cons_append]
  | noArguments => rfl
  | moreArguments _ isComma _ ih ihOthers =>
    obtain ⟨quotedFirst, quotedOthers⟩ := quotedStrings_append.mp quoted
    rw [List.map_append, List.map_cons, ih quotedFirst, ihOthers (quotedStrings_cons.mp quotedOthers).2,
      Token.mark_of_kind isComma rfl]
    simp only [ExprPhrase.rendering, renderingAll]

theorem shown_of_derives {limit depth : Nat} {phrase : ExprPhrase} {tokens : List Token}
    (derives : DerivesExpr limit depth phrase tokens) (quoted : QuotedStrings tokens) :
    Shown limit depth phrase tokens := by
  have shaped := shaped_of_derives derives
  have renders := renders_of_derives derives quoted
  cases phrase with
  | expression => exact ⟨shaped.1, shaped.2, renders⟩
  | rung => exact ⟨shaped.1, shaped.2.1, shaped.2.2, renders⟩
  | prefixed => exact ⟨shaped.1, shaped.2.1, shaped.2.2.1, shaped.2.2.2, renders⟩
  | arguments => exact ⟨shaped.1, shaped.2, renders⟩

/-- Tokens that show one list of marks behind another are cut where the lists meet. -/
theorem split_marks {tokens : List Token} {first second : List Mark} {m : Mark}
    (shown : tokens.map Token.mark = first ++ m :: second) :
    ∃ left token right, tokens = left ++ token :: right ∧ left.map Token.mark = first ∧
      token.mark = m ∧ right.map Token.mark = second := by
  obtain ⟨left, others, rfl, isFirst, isOthers⟩ := List.map_eq_append_iff.mp shown
  obtain ⟨token, right, rfl, isMark, isSecond⟩ := List.map_eq_cons_iff.mp isOthers
  exact ⟨left, token, right, rfl, isFirst, isMark, isSecond⟩

theorem leaf_of_literal {token : Token} {value : Literal} (shown : token.mark = value.mark) :
    Leaf token (.literal value) := by
  have kind := Token.kind_of_mark shown
  cases value with
  | number value => exact .number kind
  | bool value => exact .bool kind
  | nil => exact .nil kind
  | string text =>
    refine .string kind (Or.inl ?_)
    have lexeme := Option.some.inj (Token.lexeme_of_mark shown rfl)
    rw [Quoted, ← lexeme, String.toList_ofList]

theorem DerivesExpr.loosen_to {limit depth : Nat} {e : Expr} {tokens : List Token} {low high : Nat}
    (derives : DerivesExpr limit depth (.rung high e) tokens) (le : low ≤ high) :
    DerivesExpr limit depth (.rung low e) tokens := by
  induction le with
  | refl => exact derives
  | step _ ih => exact ih (.loosen derives)

/-- How a tree of a level and with operators in front of it is derived: on its rung and on all that are
lower, and as the operand of a run of operators. -/
structure Derived (limit depth level prefixes : Nat) (e : Expr) (tokens : List Token) : Prop where
  rung : DerivesExpr limit depth (.rung level e) tokens
  prefixed : 7 ≤ level → DerivesExpr limit depth (.prefixed prefixes e) tokens

section

variable {limit depth level prefixes : Nat} {e : Expr} {tokens : List Token}

theorem Derived.of_loose (loose : level < 7) (rung : DerivesExpr limit depth (.rung level e) tokens) :
    Derived limit depth level prefixes e tokens :=
  ⟨rung, fun tight => absurd loose (Nat.not_lt.mpr tight)⟩

theorem Derived.of_tight (tight : 8 ≤ level) (rung : DerivesExpr limit depth (.rung level e) tokens) :
    Derived limit depth level 0 e tokens :=
  ⟨rung, fun _ => .operand (rung.loosen_to tight)⟩

theorem Derived.join {level' prefixes' count : Nat} {e' : Expr} {right : List Token}
    {op : Operator} {sign : Token} (derived : Derived limit depth level prefixes e tokens)
    (tight : op.rung ≤ level) (isSign : sign.kind = op.kind)
    (derived' : Derived limit depth level' prefixes' e' right) (tightRight : op.rung < level') :
    Derived limit depth op.rung count (op.node e e') (tokens ++ sign :: right) := by
  refine .of_loose (Nat.lt_succ_of_le op.rung_bounds.2) ?_
  exact .join (derived.rung.loosen_to tight) isSign (derived'.rung.loosen_to tightRight)

theorem Derived.expression (derived : Derived limit (depth + 1) level prefixes e tokens)
    (room : depth < limit) :
    DerivesExpr limit depth (.expression e) tokens :=
  .nested room (derived.rung.loosen_to (Nat.zero_le level))

end

variable {limit : Nat}

mutual

/-- A canonical tree is derived from each of its renderings, but for its lines. -/
theorem derives_of_canonical {depth : Nat} {tokens : List Token} (e : Expr) (canonical : e.Canonical)
    (fits : e.Fits limit depth) (renders : tokens.map Token.mark = e.rendering) :
    ∃ e', e'.Alike e ∧ Derived limit depth e.level e.prefixes e' tokens := by
  cases e with
  | literal value =>
    obtain ⟨token, rfl, isValue⟩ := List.map_eq_singleton_iff.mp renders
    refine ⟨.literal value, rfl, .of_tight (Nat.le_succ 8) (.leaf ?_)⟩
    exact leaf_of_literal isValue
  | var name line =>
    obtain ⟨token, rfl, isName⟩ := List.map_eq_singleton_iff.mp renders
    obtain rfl : name = token.lexeme := Option.some.inj (Token.lexeme_of_mark isName rfl)
    exact ⟨.var _ token.position.line, rfl,
      .of_tight (Nat.le_succ 8) (.leaf (.name (Token.kind_of_mark isName)))⟩
  | thisRef line =>
    obtain ⟨token, rfl, isThis⟩ := List.map_eq_singleton_iff.mp renders
    exact ⟨.thisRef token.position.line, rfl,
      .of_tight (Nat.le_succ 8) (.leaf (.this (Token.kind_of_mark isThis)))⟩
  | superRef method line =>
    obtain ⟨keyword, others, rfl, isSuper, rendersOthers⟩ := List.map_eq_cons_iff.mp renders
    obtain ⟨dot, last, rfl, isDot, rendersLast⟩ := List.map_eq_cons_iff.mp rendersOthers
    obtain ⟨name, rfl, isName⟩ := List.map_eq_singleton_iff.mp rendersLast
    obtain rfl : method = name.lexeme := Option.some.inj (Token.lexeme_of_mark isName rfl)
    have whole :
        DerivesExpr limit depth (.rung 9 (.superRef _ keyword.position.line)) [keyword, dot, name] :=
      .super (Token.kind_of_mark isSuper) (Token.kind_of_mark isDot) (Token.kind_of_mark isName)
    exact ⟨.superRef name.lexeme keyword.position.line, rfl, .of_tight (Nat.le_succ 8) whole⟩
  | assign name value =>
    obtain ⟨target, others, rfl, isName, rendersOthers⟩ := List.map_eq_cons_iff.mp renders
    obtain ⟨sign, right, rfl, isSign, rendersValue⟩ := List.map_eq_cons_iff.mp rendersOthers
    obtain rfl : name = target.lexeme := Option.some.inj (Token.lexeme_of_mark isName rfl)
    obtain ⟨value', alike, derives⟩ := derives_of_canonical value canonical fits.2 rendersValue
    have leaf : DerivesExpr limit depth (.rung 9 (.var target.lexeme target.position.line)) [target] :=
      .leaf (.name (Token.kind_of_mark isName))
    have assigned := derives.expression fits.1
    have whole := DerivesExpr.assign (leaf.loosen_to (by decide)) (Token.kind_of_mark isSign) assigned
    exact ⟨.assign target.lexeme value', congrArg (Expr.assign _) alike, .of_loose (Nat.succ_pos 6) whole⟩
  | getAttr object name =>
    obtain ⟨tight, canonicalObject⟩ := canonical
    obtain ⟨left, dot, last, rfl, rendersObject, isDot, rendersLast⟩ := split_marks renders
    obtain ⟨property, rfl, isName⟩ := List.map_eq_singleton_iff.mp rendersLast
    obtain rfl : name = property.lexeme := Option.some.inj (Token.lexeme_of_mark isName rfl)
    obtain ⟨object', alike, derives⟩ := derives_of_canonical object canonicalObject fits rendersObject
    have whole := DerivesExpr.getAttr (derives.rung.loosen_to tight) (Token.kind_of_mark isDot)
      (Token.kind_of_mark isName)
    exact ⟨.getAttr object' property.lexeme, congrArg (Expr.getAttr · _) alike,
      .of_tight (Nat.le_refl 8) whole⟩
  | setAttr object name value =>
    obtain ⟨tight, canonicalObject, canonicalValue⟩ := canonical
    obtain ⟨left, dot, others, rfl, rendersObject, isDot, rendersOthers⟩ := split_marks renders
    obtain ⟨property, others, rfl, isName, rendersOthers⟩ := List.map_eq_cons_iff.mp rendersOthers
    obtain ⟨sign, right, rfl, isSign, rendersValue⟩ := List.map_eq_cons_iff.mp rendersOthers
    obtain rfl : name = property.lexeme := Option.some.inj (Token.lexeme_of_mark isName rfl)
    obtain ⟨object', alike, derives⟩ := derives_of_canonical object canonicalObject fits.1 rendersObject
    obtain ⟨value', alike', derives'⟩ := derives_of_canonical value canonicalValue fits.2.2 rendersValue
    have target := DerivesExpr.getAttr (derives.rung.loosen_to tight) (Token.kind_of_mark isDot)
      (Token.kind_of_mark isName)
    have whole := DerivesExpr.setAttr (target.loosen_to (by decide)) (Token.kind_of_mark isSign)
      (derives'.expression fits.2.1)
    rw [List.append_assoc] at whole
    exact ⟨.setAttr object' property.lexeme value', alike.setAttr alike' _,
      .of_loose (Nat.succ_pos 6) whole⟩
  | logical op a b =>
    obtain ⟨tight, canonicalLeft, tightRight, canonicalRight⟩ := canonical
    obtain ⟨left, sign, right, rfl, rendersLeft, isSign, rendersRight⟩ := split_marks renders
    obtain ⟨a', alike, derives⟩ := derives_of_canonical a canonicalLeft fits.1 rendersLeft
    obtain ⟨b', alike', derives'⟩ := derives_of_canonical b canonicalRight fits.2 rendersRight
    have isOperator : sign.kind = (Operator.logical op).kind := Token.kind_of_mark isSign
    exact ⟨.logical op a' b', alike.logical alike' op, derives.join tight isOperator derives' tightRight⟩
  | binary op a b =>
    obtain ⟨tight, canonicalLeft, tightRight, canonicalRight⟩ := canonical
    obtain ⟨left, sign, right, rfl, rendersLeft, isSign, rendersRight⟩ := split_marks renders
    obtain ⟨a', alike, derives⟩ := derives_of_canonical a canonicalLeft fits.1 rendersLeft
    obtain ⟨b', alike', derives'⟩ := derives_of_canonical b canonicalRight fits.2 rendersRight
    have isOperator : sign.kind = (Operator.binary op).kind := Token.kind_of_mark isSign
    exact ⟨.binary op a' b', alike.binary alike' op, derives.join tight isOperator derives' tightRight⟩
  | unary op operand =>
    obtain ⟨tight, canonicalOperand⟩ := canonical
    obtain ⟨sign, right, rfl, isSign, rendersOperand⟩ := List.map_eq_cons_iff.mp renders
    obtain ⟨operand', alike, derives⟩ := derives_of_canonical operand canonicalOperand fits.2 rendersOperand
    have run := DerivesExpr.prefixed (Token.kind_of_mark isSign) (derives.prefixed tight)
    exact ⟨.unary op operand', congrArg (Expr.unary op) alike, .run fits.1 run, fun _ => run⟩
  | call callee arguments =>
    obtain ⟨tight, canonicalCallee, canonicalAll⟩ := canonical
    obtain ⟨left, opening, others, rfl, rendersCallee, isOpening, rendersOthers⟩ := split_marks renders
    obtain ⟨inner, closing, right, rfl, rendersAll, isClosing, rendersNil⟩ := split_marks rendersOthers
    obtain rfl := List.map_eq_nil_iff.mp rendersNil
    obtain ⟨callee', alike, derives⟩ := derives_of_canonical callee canonicalCallee fits.1 rendersCallee
    obtain ⟨arguments', alike', derives'⟩ :=
      derivesAll_of_canonical arguments canonicalAll fits.2 rendersAll
    have whole := DerivesExpr.call (derives.rung.loosen_to tight) (Token.kind_of_mark isOpening) derives'
      (Token.kind_of_mark isClosing)
    rw [List.append_assoc, List.cons_append] at whole
    exact ⟨.call callee' arguments', alike.call alike', .of_tight (Nat.le_refl 8) whole⟩
  | grouping inner =>
    obtain ⟨opening, others, rfl, isOpening, rendersOthers⟩ := List.map_eq_cons_iff.mp renders
    obtain ⟨left, closing, right, rfl, rendersInner, isClosing, rendersNil⟩ := split_marks rendersOthers
    obtain rfl := List.map_eq_nil_iff.mp rendersNil
    obtain ⟨inner', alike, derives⟩ := derives_of_canonical inner canonical fits.2 rendersInner
    have within := derives.expression fits.1
    have whole := DerivesExpr.grouping (Token.kind_of_mark isOpening) within (Token.kind_of_mark isClosing)
    exact ⟨.grouping inner', congrArg Expr.grouping alike, .of_tight (Nat.le_succ 8) whole⟩

theorem derivesAll_of_canonical {depth : Nat} {tokens : List Token} (es : List Expr)
    (canonical : CanonicalAll es) (fits : FitsAll limit depth es)
    (renders : tokens.map Token.mark = renderingAll es) :
    ∃ es', AlikeAll es' es ∧
      DerivesExpr limit depth (.arguments es') tokens := by
  match es with
  | [] =>
    obtain rfl := List.map_eq_nil_iff.mp renders
    exact ⟨[], rfl, .noArguments⟩
  | [e] =>
    obtain ⟨e', alike, derives⟩ := derives_of_canonical e canonical.1 fits.1.2 renders
    exact ⟨[e'], AlikeAll.cons alike rfl, .lastArgument (derives.expression fits.1.1)⟩
  | e :: next :: es =>
    obtain ⟨left, comma, right, rfl, rendersFirst, isComma, rendersOthers⟩ := split_marks renders
    obtain ⟨e', alike, derives⟩ := derives_of_canonical e canonical.1 fits.1.2 rendersFirst
    obtain ⟨es', alike', derives'⟩ := derivesAll_of_canonical (next :: es) canonical.2 fits.2 rendersOthers
    match es' with
    | next' :: es' =>
      exact ⟨e' :: next' :: es', AlikeAll.cons alike alike',
        .moreArguments (derives.expression fits.1.1) (Token.kind_of_mark isComma) derives'⟩

end

end Grammar

end LoxFrontEnd
