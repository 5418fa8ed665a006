import LoxFrontEnd.Parse.Expression
import LoxFrontEnd.Proofs.Tree.CanonicalProgram

/-!
Relabelling. Tokens and trees with other texts and other places in them, the kinds and the shape being
the same. Where only lines change, a relabelled tree is the tree with other lines.
-/

namespace LoxFrontEnd

/-- Other texts and places for tokens. What is in a string and on which line a token stands goes by
its text and its place. -/
structure Relabelling where
  lexeme : String → String
  inner : String → String
  place : Position → Position
  line : Nat → Nat
  unquote_lexeme : ∀ text, unquote (lexeme text) = inner (unquote text)
  place_line : ∀ p, (place p).line = line p.line

variable (ρ : Relabelling)

def Token.relabel (token : Token) : Token := ⟨token.kind, ρ.lexeme token.lexeme, ρ.place token.position⟩

@[simp] theorem Token.relabel_kind (token : Token) : (token.relabel ρ).kind = token.kind := rfl

@[simp] theorem Token.relabel_lexeme (token : Token) :
    (token.relabel ρ).lexeme = ρ.lexeme token.lexeme := rfl

@[simp] theorem Token.relabel_position (token : Token) :
    (token.relabel ρ).position = ρ.place token.position := rfl

def Literal.relabel : Literal → Literal
  | .string text => .string (ρ.inner text)
  | .number value => .number value
  | .bool value => .bool value
  | .nil => .nil

def Parameter.relabel (p : Parameter) : Parameter := ⟨ρ.lexeme p.name, ρ.line p.line⟩

namespace Expr

mutual

def relabel : Expr → Expr
  | .literal value => .literal (value.relabel ρ)
  | .var name line => .var (ρ.lexeme name) (ρ.line line)
  | .assign name value => .assign (ρ.lexeme name) value.relabel
  | .getAttr object name => .getAttr object.relabel (ρ.lexeme name)
  | .setAttr object name value => .setAttr object.relabel (ρ.lexeme name) value.relabel
  | .logical op left right => .logical op left.relabel right.relabel
  | .binary op left right => .binary op left.relabel right.relabel
  | .unary op operand => .unary op operand.relabel
  | .call callee arguments => .call callee.relabel (relabelAll arguments)
  | .thisRef line => .thisRef (ρ.line line)
  | .superRef method line => .superRef (ρ.lexeme method) (ρ.line line)
  | .grouping inner => .grouping inner.relabel

def relabelAll : List Expr → List Expr
  | [] => []
  | e :: es => e.relabel :: relabelAll es

end

theorem relabelAll_eq_map (es : List Expr) : relabelAll ρ es = es.map (relabel ρ) := by
  induction es with
  | nil => rfl
  | cons e es ih => rw [relabelAll, ih, List.map_cons]

end Expr

namespace Stmt

mutual

def relabel : Stmt → Stmt
  | .expr e => .expr (e.relabel ρ)
  | .print e => .print (e.relabel ρ)
  | .ret value line => .ret (value.map (Expr.relabel ρ)) (ρ.line line)
  | .block body => .block (relabelAll body)
  | .ifElse condition thenBranch none => .ifElse (condition.relabel ρ) thenBranch.relabel none
  | .ifElse condition thenBranch (some elseBranch) =>
    .ifElse (condition.relabel ρ) thenBranch.relabel (some elseBranch.relabel)
  | .whileLoop condition body => .whileLoop (condition.relabel ρ) body.relabel
  | .varDecl name initializer line =>
    .varDecl (ρ.lexeme name) (initializer.map (Expr.relabel ρ)) (ρ.line line)
  | .funDecl function => .funDecl (relabelFunction function)
  | .classDecl name superclass methods line =>
    .classDecl (ρ.lexeme name) (superclass.map ρ.lexeme) (relabelMethods methods) (ρ.line line)

def relabelAll : List Stmt → List Stmt
  | [] => []
  | s :: ss => s.relabel :: relabelAll ss

def relabelFunction : Function → Function
  | ⟨name, parameters, body, line⟩ =>
    ⟨ρ.lexeme name, parameters.map (Parameter.relabel ρ), relabelAll body, ρ.line line⟩

def relabelMethods : List Function → List Function
  | [] => []
  | f :: fs => relabelFunction f :: relabelMethods fs

end

theorem relabelAll_eq_map (ss : List Stmt) : relabelAll ρ ss = ss.map (relabel ρ) := by
  induction ss with
  | nil => rfl
  | cons s ss ih => rw [relabelAll, ih, List.map_cons]

theorem relabelMethods_eq_map (fs : List Function) : relabelMethods ρ fs = fs.map (relabelFunction ρ) := by
  induction fs with
  | nil => rfl
  | cons f fs ih => rw [relabelMethods, ih, List.map_cons]

theorem relabel_ifElse (condition : Expr) (thenBranch : Stmt) (elseBranch : Option Stmt) :
    (Stmt.ifElse condition thenBranch elseBranch).relabel ρ =
      .ifElse (condition.relabel ρ) (thenBranch.relabel ρ) (elseBranch.map (relabel ρ)) := by
  cases elseBranch <;> rfl

end Stmt

/-- Only places change. -/
structure Relabelling.KeepsTexts : Prop where
  lexeme : ∀ text, ρ.lexeme text = text
  inner : ∀ text, ρ.inner text = text

section KeepsTexts

variable {ρ}

mutual

theorem Expr.relabel_eq_mapLines (kept : ρ.KeepsTexts) : ∀ e : Expr, e.relabel ρ = e.mapLines ρ.line
  | .literal value => by cases value <;> simp only [relabel, Literal.relabel, mapLines, kept.inner]
  | .var name line => by rw [relabel, mapLines, kept.lexeme]
  | .assign name value => by rw [relabel, mapLines, kept.lexeme, relabel_eq_mapLines kept value]
  | .getAttr object name => by rw [relabel, mapLines, kept.lexeme, relabel_eq_mapLines kept object]
  | .setAttr object name value => by
    rw [relabel, mapLines, kept.lexeme, relabel_eq_mapLines kept object, relabel_eq_mapLines kept value]
  | .logical op left right => by
    rw [relabel, mapLines, relabel_eq_mapLines kept left, relabel_eq_mapLines kept right]
  | .binary op left right => by
    rw [relabel, mapLines, relabel_eq_mapLines kept left, relabel_eq_mapLines kept right]
  | .unary op operand => by rw [relabel, mapLines, relabel_eq_mapLines kept operand]
  | .call callee arguments => by
    rw [relabel, mapLines, relabel_eq_mapLines kept callee, relabelAll_eq_mapLinesAll kept arguments]
  | .thisRef line => by rw [relabel, mapLines]
  | .superRef method line => by rw [relabel, mapLines, kept.lexeme]
  | .grouping inner => by rw [relabel, mapLines, relabel_eq_mapLines kept inner]

theorem Expr.relabelAll_eq_mapLinesAll (kept : ρ.KeepsTexts) :
    ∀ es : List Expr, relabelAll ρ es = mapLinesAll ρ.line es
  | [] => rfl
  | e :: es => by
    rw [relabelAll, mapLinesAll, relabel_eq_mapLines kept e, relabelAll_eq_mapLinesAll kept es]

end

theorem Expr.map_relabel_eq_mapLines (kept : ρ.KeepsTexts) (o : Option Expr) :
    o.map (relabel ρ) = o.map (mapLines ρ.line) :=
  congrArg (o.map ·) (funext (relabel_eq_mapLines kept))

theorem Parameter.relabel_eq_mapLine (kept : ρ.KeepsTexts) (p : Parameter) :
    p.relabel ρ = p.mapLine ρ.line := by
  rw [relabel, mapLine, kept.lexeme]

mutual

theorem Stmt.relabel_eq_mapLines (kept : ρ.KeepsTexts) : ∀ s : Stmt, s.relabel ρ = s.mapLines ρ.line
  | .expr e => by rw [relabel, mapLines, e.relabel_eq_mapLines kept]
  | .print e => by rw [relabel, mapLines, e.relabel_eq_mapLines kept]
  | .ret value line => by rw [relabel, mapLines, Expr.map_relabel_eq_mapLines kept]
  | .block body => by rw [relabel, mapLines, relabelAll_eq_mapLinesAll kept body]
  | .ifElse condition thenBranch none => by
    rw [relabel, mapLines, condition.relabel_eq_mapLines kept, relabel_eq_mapLines kept thenBranch]
  | .ifElse condition thenBranch (some elseBranch) => by
    rw [relabel, mapLines, condition.relabel_eq_mapLines kept, relabel_eq_mapLines kept thenBranch,
      relabel_eq_mapLines kept elseBranch]
  | .whileLoop condition body => by
    rw [relabel, mapLines, condition.relabel_eq_mapLines kept, relabel_eq_mapLines kept body]
  | .varDecl name initializer line => by
    rw [relabel, mapLines, kept.lexeme, Expr.map_relabel_eq_mapLines kept]
  | .funDecl function => by rw [relabel, mapLines, relabelFunction_eq_functionMapLines kept function]
  | .classDecl name superclass methods line => by
    have above : superclass.map ρ.lexeme = superclass := by rw [funext kept.lexeme, Option.map_id']
    rw [relabel, mapLines, kept.lexeme, above, relabelMethods_eq_methodsMapLines kept methods]

theorem Stmt.relabelAll_eq_mapLinesAll (kept : ρ.KeepsTexts) :
    ∀ ss : List Stmt, relabelAll ρ ss = mapLinesAll ρ.line ss
  | [] => rfl
  | s :: ss => by
    rw [relabelAll, mapLinesAll, relabel_eq_mapLines kept s, relabelAll_eq_mapLinesAll kept ss]

theorem Stmt.relabelFunction_eq_functionMapLines (kept : ρ.KeepsTexts) :
    ∀ f : Function, relabelFunction ρ f = functionMapLines ρ.line f
  | ⟨name, parameters, body, line⟩ => by
    rw [relabelFunction, functionMapLines, kept.lexeme, relabelAll_eq_mapLinesAll kept body,
      funext (Parameter.relabel_eq_mapLine kept)]

theorem Stmt.relabelMethods_eq_methodsMapLines (kept : ρ.KeepsTexts) :
    ∀ fs : List Function, relabelMethods ρ fs = methodsMapLines ρ.line fs
  | [] => rfl
  | f :: fs => by
    rw [relabelMethods, methodsMapLines, relabelFunction_eq_functionMapLines kept f,
      relabelMethods_eq_methodsMapLines kept fs]

end

end KeepsTexts

end LoxFrontEnd
