import LoxFrontEnd.Proofs.Tree.Relabelling

/-!
Trees as shapes with labels. A label is what a node has from the text or the place of a token: a name,
what is in a string, or a line. The shape is what is left of a tree with its labels blanked.
Relabelling leaves the shape as it is, and goes through the labels one by one.
-/

namespace LoxFrontEnd

/-- What a node has from a token beside its kind. -/
inductive Label where
  | name (text : String)
  | content (text : String)
  | line (n : Nat)
  deriving DecidableEq

variable (ρ : Relabelling)

def Label.relabel : Label → Label
  | .name text => .name (ρ.lexeme text)
  | .content text => .content (ρ.inner text)
  | .line n => .line (ρ.line n)

def Literal.labels : Literal → List Label
  | .string text => [.content text]
  | .number _ | .bool _ | .nil => []

theorem Literal.labels_relabel (value : Literal) :
    (value.relabel ρ).labels = value.labels.map (Label.relabel ρ) := by
  cases value <;> rfl

def Parameter.labels (p : Parameter) : List Label := [.name p.name, .line p.line]

namespace Expr

mutual

def labels : Expr → List Label
  | .literal value => value.labels
  | .var name line => [.name name, .line line]
  | .assign name value => .name name :: value.labels
  | .getAttr object name => .name name :: object.labels
  | .setAttr object name value => .name name :: (object.labels ++ value.labels)
  | .logical _ left right | .binary _ left right => left.labels ++ right.labels
  | .unary _ inner | .grouping inner => inner.labels
  | .call callee arguments => callee.labels ++ labelsAll arguments
  | .thisRef line => [.line line]
  | .superRef method line => [.name method, .line line]

def labelsAll : List Expr → List Label
  | [] => []
  | e :: es => e.labels ++ labelsAll es

end

def optionLabels : Option Expr → List Label
  | none => []
  | some e => e.labels

mutual

theorem labels_relabel : ∀ e : Expr, (e.relabel ρ).labels = e.labels.map (Label.relabel ρ)
  | .literal value => value.labels_relabel ρ
  | .var _ _ | .thisRef _ | .superRef _ _ => rfl
  | .assign _ inner | .getAttr inner _ => by
    rw [relabel, labels, labels, List.map_cons, labels_relabel inner]
    rfl
  | .setAttr object _ value => by
    rw [relabel, labels, labels, List.map_cons, List.map_append, labels_relabel object,
      labels_relabel value]
    rfl
  | .logical _ left right | .binary _ left right => by
    rw [relabel, labels, labels, List.map_append, labels_relabel left, labels_relabel right]
  | .unary _ inner | .grouping inner => by rw [relabel, labels, labels, labels_relabel inner]
  | .call callee arguments => by
    rw [relabel, labels, labels, List.map_append, labels_relabel callee, labelsAll_relabelAll arguments]

theorem labelsAll_relabelAll :
    ∀ es : List Expr, labelsAll (relabelAll ρ es) = (labelsAll es).map (Label.relabel ρ)
  | [] => rfl
  | e :: es => by
    rw [relabelAll, labelsAll, labelsAll, List.map_append, labels_relabel e, labelsAll_relabelAll es]

end

theorem optionLabels_map (o : Option Expr) :
    optionLabels (o.map (relabel ρ)) = (optionLabels o).map (Label.relabel ρ) := by
  cases o with
  | none => rfl
  | some e => exact e.labels_relabel ρ

end Expr

namespace Stmt

mutual

def labels : Stmt → List Label
  | .expr e | .print e => e.labels
  | .ret value line => .line line :: Expr.optionLabels value
  | .block body => labelsAll body
  | .ifElse condition thenBranch none => condition.labels ++ thenBranch.labels
  | .ifElse condition thenBranch (some elseBranch) =>
    condition.labels ++ (thenBranch.labels ++ elseBranch.labels)
  | .whileLoop condition body => condition.labels ++ body.labels
  | .varDecl name initializer line => .name name :: .line line :: Expr.optionLabels initializer
  | .funDecl function => functionLabels function
  | .classDecl name superclass methods line =>
    .name name :: .line line :: (superclass.toList.map .name ++ methodLabels methods)

def labelsAll : List Stmt → List Label
  | [] => []
  | s :: ss => s.labels ++ labelsAll ss

def functionLabels : Function → List Label
  | ⟨name, parameters, body, line⟩ =>
    .name name :: .line line :: (parameters.flatMap Parameter.labels ++ labelsAll body)

def methodLabels : List Function → List Label
  | [] => []
  | f :: fs => functionLabels f ++ methodLabels fs

end

mutual

theorem labels_relabel : ∀ s : Stmt, (s.relabel ρ).labels = s.labels.map (Label.relabel ρ)
  | .expr e | .print e => e.labels_relabel ρ
  | .ret value _ => by
    rw [relabel, labels, labels, List.map_cons, Expr.optionLabels_map]
    rfl
  | .block body => by rw [relabel, labels, labels, labelsAll_relabelAll body]
  | .ifElse condition thenBranch none => by
    rw [relabel, labels, labels, List.map_append, condition.labels_relabel, labels_relabel thenBranch]
  | .ifElse condition thenBranch (some elseBranch) => by
    rw [relabel, labels, labels, List.map_append, List.map_append, condition.labels_relabel,
      labels_relabel thenBranch, labels_relabel elseBranch]
  | .whileLoop condition body => by
    rw [relabel, labels, labels, List.map_append, condition.labels_relabel, labels_relabel body]
  | .varDecl _ initializer _ => by
    rw [relabel, labels, labels, List.map_cons, List.map_cons, Expr.optionLabels_map]
    rfl
  | .funDecl function => by rw [relabel, labels, labels, functionLabels_relabelFunction function]
  | .classDecl _ superclass methods _ => by
    rw [relabel, labels, labels, List.map_cons, List.map_cons, List.map_append,
      methodLabels_relabelMethods methods]
    cases superclass <;> rfl

theorem labelsAll_relabelAll :
    ∀ ss : List Stmt, labelsAll (relabelAll ρ ss) = (labelsAll ss).map (Label.relabel ρ)
  | [] => rfl
  | s :: ss => by
    rw [relabelAll, labelsAll, labelsAll, List.map_append, labels_relabel s, labelsAll_relabelAll ss]

theorem functionLabels_relabelFunction :
    ∀ f : Function, functionLabels (relabelFunction ρ f) = (functionLabels f).map (Label.relabel ρ)
  | ⟨_, parameters, body, _⟩ => by
    rw [relabelFunction, functionLabels, functionLabels, List.map_cons, List.map_cons, List.map_append,
      labelsAll_relabelAll body, List.map_flatMap, List.flatMap_map]
    rfl

theorem methodLabels_relabelMethods :
    ∀ fs : List Function, methodLabels (relabelMethods ρ fs) = (methodLabels fs).map (Label.relabel ρ)
  | [] => rfl
  | f :: fs => by
    rw [relabelMethods, methodLabels, methodLabels, List.map_append, functionLabels_relabelFunction f,
      methodLabels_relabelMethods fs]

end

end Stmt

namespace Relabelling

/-- One relabelling behind another. -/
def trans (σ : Relabelling) : Relabelling where
  lexeme text := σ.lexeme (ρ.lexeme text)
  inner text := σ.inner (ρ.inner text)
  place p := σ.place (ρ.place p)
  line n := σ.line (ρ.line n)
  unquote_lexeme text := by rw [σ.unquote_lexeme, ρ.unquote_lexeme]
  place_line p := by rw [σ.place_line, ρ.place_line]

/-- All labels alike. -/
def blank : Relabelling where
  lexeme _ := ""
  inner _ := ""
  place _ := ⟨0, 0⟩
  line _ := 0
  unquote_lexeme _ := rfl
  place_line _ := rfl

theorem trans_blank : ρ.trans blank = blank := rfl

end Relabelling

section Trans

variable {ρ} (σ : Relabelling)

theorem Literal.relabel_relabel (value : Literal) :
    (value.relabel ρ).relabel σ = value.relabel (ρ.trans σ) := by
  cases value <;> rfl

mutual

theorem Expr.relabel_relabel : ∀ e : Expr, (e.relabel ρ).relabel σ = e.relabel (ρ.trans σ)
  | .literal value => by rw [relabel, relabel, relabel, value.relabel_relabel]
  | .var _ _ | .thisRef _ | .superRef _ _ => rfl
  | .assign _ inner | .getAttr inner _ => by
    rw [relabel, relabel, relabel, relabel_relabel inner]
    rfl
  | .setAttr object _ value => by
    rw [relabel, relabel, relabel, relabel_relabel object, relabel_relabel value]
    rfl
  | .logical _ left right | .binary _ left right => by
    rw [relabel, relabel, relabel, relabel_relabel left, relabel_relabel right]
  | .unary _ inner | .grouping inner => by rw [relabel, relabel, relabel, relabel_relabel inner]
  | .call callee arguments => by
    rw [relabel, relabel, relabel, relabel_relabel callee, relabelAll_relabelAll arguments]

theorem Expr.relabelAll_relabelAll :
    ∀ es : List Expr, relabelAll σ (relabelAll ρ es) = relabelAll (ρ.trans σ) es
  | [] => rfl
  | e :: es => by rw [relabelAll, relabelAll, relabelAll, relabel_relabel e, relabelAll_relabelAll es]

end

theorem Expr.map_relabel_relabel (o : Option Expr) :
    (o.map (relabel ρ)).map (relabel σ) = o.map (relabel (ρ.trans σ)) := by
  rw [Option.map_map]
  exact congrArg (o.map ·) (funext (relabel_relabel σ))

mutual

theorem Stmt.relabel_relabel : ∀ s : Stmt, (s.relabel ρ).relabel σ = s.relabel (ρ.trans σ)
  | .expr e | .print e => by rw [relabel, relabel, relabel, e.relabel_relabel]
  | .ret value _ => by
    rw [relabel, relabel, relabel, Expr.map_relabel_relabel]
    rfl
  | .block body => by rw [relabel, relabel, relabel, relabelAll_relabelAll body]
  | .ifElse condition thenBranch none => by
    rw [relabel, relabel, relabel, condition.relabel_relabel, relabel_relabel thenBranch]
  | .ifElse condition thenBranch (some elseBranch) => by
    rw [relabel, relabel, relabel, condition.relabel_relabel, relabel_relabel thenBranch,
      relabel_relabel elseBranch]
  | .whileLoop condition body => by
    rw [relabel, relabel, relabel, condition.relabel_relabel, relabel_relabel body]
  | .varDecl _ initializer _ => by
    rw [relabel, relabel, relabel, Expr.map_relabel_relabel]
    rfl
  | .funDecl function => by rw [relabel, relabel, relabel, relabelFunction_relabelFunction function]
  | .classDecl _ superclass methods _ => by
    rw [relabel, relabel, relabel, relabelMethods_relabelMethods methods, Option.map_map]
    rfl

theorem Stmt.relabelAll_relabelAll :
    ∀ ss : List Stmt, relabelAll σ (relabelAll ρ ss) = relabelAll (ρ.trans σ) ss
  | [] => rfl
  | s :: ss => by rw [relabelAll, relabelAll, relabelAll, relabel_relabel s, relabelAll_relabelAll ss]

theorem Stmt.relabelFunction_relabelFunction :
    ∀ f : Function, relabelFunction σ (relabelFunction ρ f) = relabelFunction (ρ.trans σ) f
  | ⟨_, parameters, body, _⟩ => by
    rw [relabelFunction, relabelFunction, relabelFunction, relabelAll_relabelAll body, List.map_map]
    rfl

theorem Stmt.relabelMethods_relabelMethods :
    ∀ fs : List Function, relabelMethods σ (relabelMethods ρ fs) = relabelMethods (ρ.trans σ) fs
  | [] => rfl
  | f :: fs => by
    rw [relabelMethods, relabelMethods, relabelMethods, relabelFunction_relabelFunction f,
      relabelMethods_relabelMethods fs]

end

end Trans

def Expr.shape (e : Expr) : Expr := e.relabel .blank

theorem Expr.shape_relabel (e : Expr) : (e.relabel ρ).shape = e.shape := by
  rw [shape, shape, relabel_relabel, Relabelling.trans_blank]

def Stmt.shape (s : Stmt) : Stmt := s.relabel .blank

theorem Stmt.shape_relabel (s : Stmt) : (s.relabel ρ).shape = s.shape := by
  rw [shape, shape, relabel_relabel, Relabelling.trans_blank]

namespace Program

def relabel (p : Program) : Program := ⟨p.declarations.map (Stmt.relabel ρ)⟩

def labels (p : Program) : List Label := Stmt.labelsAll p.declarations

def shape (p : Program) : Program := p.relabel .blank

theorem labels_relabel (p : Program) : (p.relabel ρ).labels = p.labels.map (Label.relabel ρ) := by
  rw [relabel, labels, ← Stmt.relabelAll_eq_map]
  exact Stmt.labelsAll_relabelAll ρ p.declarations

theorem shape_relabel (p : Program) : (p.relabel ρ).shape = p.shape := by
  have twice : Stmt.relabel .blank ∘ Stmt.relabel ρ = Stmt.relabel .blank := funext (Stmt.shape_relabel ρ)
  rw [shape, shape, relabel, relabel, relabel, List.map_map, twice]

end Program

end LoxFrontEnd
