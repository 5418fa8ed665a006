import LoxFrontEnd.Proofs.Tree.Canonical

/-!
Canonical programs and their renderings. A program is canonical if it can be written down without a
brace or a parenthesis of its own: branches and loop bodies are no declarations, and an `else` behind
a branch could not be taken by an `if` at the end of that branch.
-/

namespace LoxFrontEnd

namespace Expr

def optionRendering : Option Expr → List Mark
  | none => []
  | some e => e.rendering

def OptionCanonical : Option Expr → Prop
  | none => True
  | some e => e.Canonical

/-- A whole expression that stands at this depth takes a level of its own. -/
def Enters (limit depth : Nat) (e : Expr) : Prop :=
  depth < limit ∧ e.Fits limit (depth + 1)

def OptionEnters (limit depth : Nat) : Option Expr → Prop
  | none => True
  | some e => e.Enters limit depth

end Expr

namespace Parameter

/-- Names with commas between them. -/
def renderingAll : List Parameter → List Mark
  | [] => []
  | [p] => [.name p.name]
  | p :: next :: ps => .name p.name :: .sign .comma :: renderingAll (next :: ps)

def mapLine (f : Nat → Nat) (p : Parameter) : Parameter := ⟨p.name, f p.line⟩

end Parameter

namespace Stmt

/-- The value that a variable is declared with. -/
def initializerRendering : Option Expr → List Mark
  | none => []
  | some e => .sign .equal :: e.rendering

def superclassRendering : Option String → List Mark
  | none => []
  | some above => [.sign .less, .name above]

mutual

/-- The tokens of a statement in order. Blocks are written with braces, and loops with `while`. -/
def rendering : Stmt → List Mark
  | .expr e => e.rendering ++ [.sign .semicolon]
  | .print e => .sign .kwPrint :: (e.rendering ++ [.sign .semicolon])
  | .ret value _ => .sign .kwReturn :: (Expr.optionRendering value ++ [.sign .semicolon])
  | .block body => .sign .leftBrace :: (renderingAll body ++ [.sign .rightBrace])
  | .ifElse condition thenBranch none =>
    .sign .kwIf :: .sign .leftParen :: (condition.rendering ++ .sign .rightParen :: thenBranch.rendering)
  | .ifElse condition thenBranch (some elseBranch) =>
    .sign .kwIf :: .sign .leftParen ::
      (condition.rendering ++ .sign .rightParen ::
        (thenBranch.rendering ++ .sign .kwElse :: elseBranch.rendering))
  | .whileLoop condition body =>
    .sign .kwWhile :: .sign .leftParen :: (condition.rendering ++ .sign .rightParen :: body.rendering)
  | .varDecl name initializer _ =>
    .sign .kwVar :: .name name :: (initializerRendering initializer ++ [.sign .semicolon])
  | .funDecl function => .sign .kwFun :: functionRendering function
  | .classDecl name superclass methods _ =>
    .sign .kwClass :: .name name ::
      (superclassRendering superclass ++ .sign .leftBrace ::
        (methodsRendering methods ++ [.sign .rightBrace]))

def renderingAll : List Stmt → List Mark
  | [] => []
  | s :: ss => s.rendering ++ renderingAll ss

def functionRendering : Function → List Mark
  | ⟨name, parameters, body, _⟩ =>
    .name name :: .sign .leftParen ::
      (Parameter.renderingAll parameters ++ .sign .rightParen :: .sign .leftBrace ::
        (renderingAll body ++ [.sign .rightBrace]))

def methodsRendering : List Function → List Mark
  | [] => []
  | f :: fs => functionRendering f ++ methodsRendering fs

end

def IsDeclaration : Stmt → Prop
  | .varDecl .. | .funDecl _ | .classDecl .. => True
  | _ => False

/-- Whether an `else` behind the statement could belong to an `if` in it. -/
def Open : Stmt → Prop
  | .ifElse _ _ none => True
  | .ifElse _ _ (some elseBranch) => elseBranch.Open
  | .whileLoop _ body => body.Open
  | _ => False

mutual

def Canonical : Stmt → Prop
  | .expr e | .print e => e.Canonical
  | .ret value _ => Expr.OptionCanonical value
  | .block body => CanonicalAll body
  | .ifElse condition thenBranch none =>
    condition.Canonical ∧ ¬ thenBranch.IsDeclaration ∧ thenBranch.Canonical
  | .ifElse condition thenBranch (some elseBranch) =>
    condition.Canonical ∧ (¬ thenBranch.IsDeclaration ∧ thenBranch.Canonical) ∧ ¬ thenBranch.Open ∧
      ¬ elseBranch.IsDeclaration ∧ elseBranch.Canonical
  | .whileLoop condition body => condition.Canonical ∧ ¬ body.IsDeclaration ∧ body.Canonical
  | .varDecl _ initializer _ => Expr.OptionCanonical initializer
  | .funDecl function => FunctionCanonical function
  | .classDecl _ _ methods _ => MethodsCanonical methods

def CanonicalAll : List Stmt → Prop
  | [] => True
  | s :: ss => s.Canonical ∧ CanonicalAll ss

def FunctionCanonical : Function → Prop
  | ⟨_, _, body, _⟩ => CanonicalAll body

def MethodsCanonical : List Function → Prop
  | [] => True
  | f :: fs => FunctionCanonical f ∧ MethodsCanonical fs

end

mutual

/-- `s.Fits limit depth`: no part of the statement is nested deeper than the limit, where it stands at
`depth`. Statements take a level each, and declarations take none. -/
def Fits (limit : Nat) (depth : Nat) : Stmt → Prop
  | .expr e | .print e => depth < limit ∧ e.Enters limit (depth + 1)
  | .ret value _ => depth < limit ∧ Expr.OptionEnters limit (depth + 1) value
  | .block body => depth < limit ∧ FitsAll limit (depth + 1) body
  | .ifElse condition thenBranch none =>
    depth < limit ∧ condition.Enters limit (depth + 1) ∧ thenBranch.Fits limit (depth + 1)
  | .ifElse condition thenBranch (some elseBranch) =>
    depth < limit ∧ condition.Enters limit (depth + 1) ∧ thenBranch.Fits limit (depth + 1) ∧
      elseBranch.Fits limit (depth + 1)
  | .whileLoop condition body =>
    depth < limit ∧ condition.Enters limit (depth + 1) ∧ body.Fits limit (depth + 1)
  | .varDecl _ initializer _ => Expr.OptionEnters limit depth initializer
  | .funDecl function => FunctionFits limit depth function
  | .classDecl _ _ methods _ => MethodsFit limit depth methods

def FitsAll (limit : Nat) (depth : Nat) : List Stmt → Prop
  | [] => True
  | s :: ss => s.Fits limit depth ∧ FitsAll limit depth ss

def FunctionFits (limit : Nat) (depth : Nat) : Function → Prop
  | ⟨_, _, body, _⟩ => FitsAll limit depth body

def MethodsFit (limit : Nat) (depth : Nat) : List Function → Prop
  | [] => True
  | f :: fs => FunctionFits limit depth f ∧ MethodsFit limit depth fs

end

mutual

/-- The statement with other lines. -/
def mapLines (f : Nat → Nat) : Stmt → Stmt
  | .expr e => .expr (e.mapLines f)
  | .print e => .print (e.mapLines f)
  | .ret value line => .ret (value.map (Expr.mapLines f)) (f line)
  | .block body => .block (mapLinesAll f body)
  | .ifElse condition thenBranch none => .ifElse (condition.mapLines f) (thenBranch.mapLines f) none
  | .ifElse condition thenBranch (some elseBranch) =>
    .ifElse (condition.mapLines f) (thenBranch.mapLines f) (some (elseBranch.mapLines f))
  | .whileLoop condition body => .whileLoop (condition.mapLines f) (body.mapLines f)
  | .varDecl name initializer line => .varDecl name (initializer.map (Expr.mapLines f)) (f line)
  | .funDecl function => .funDecl (functionMapLines f function)
  | .classDecl name superclass methods line =>
    .classDecl name superclass (methodsMapLines f methods) (f line)

def mapLinesAll (f : Nat → Nat) : List Stmt → List Stmt
  | [] => []
  | s :: ss => s.mapLines f :: mapLinesAll f ss

def functionMapLines (f : Nat → Nat) : Function → Function
  | ⟨name, parameters, body, line⟩ =>
    ⟨name, parameters.map (Parameter.mapLine f), mapLinesAll f body, f line⟩

def methodsMapLines (f : Nat → Nat) : List Function → List Function
  | [] => []
  | g :: gs => functionMapLines f g :: methodsMapLines f gs

end

/-- Two statements that differ in their lines only. -/
def Alike (s s' : Stmt) : Prop := s.mapLines (fun _ => 0) = s'.mapLines (fun _ => 0)

def AlikeAll (ss ss' : List Stmt) : Prop := mapLinesAll (fun _ => 0) ss = mapLinesAll (fun _ => 0) ss'

def FunctionAlike (f f' : Function) : Prop :=
  functionMapLines (fun _ => 0) f = functionMapLines (fun _ => 0) f'

def MethodsAlike (fs fs' : List Function) : Prop :=
  methodsMapLines (fun _ => 0) fs = methodsMapLines (fun _ => 0) fs'

end Stmt

section Alike

open Stmt

variable {e e' : Expr} {s s' t t' : Stmt} {ss ss' : List Stmt} {f f' : Function} {fs fs' : List Function}

theorem Expr.Alike.whileLoop (condition : e.Alike e') (body : s.Alike s') :
    (Stmt.whileLoop e s).Alike (.whileLoop e' s') := by
  unfold Expr.Alike Stmt.Alike at *
  rw [Stmt.mapLines, Stmt.mapLines, condition, body]

theorem Expr.Alike.ifThen (condition : e.Alike e') (thenBranch : s.Alike s') :
    (Stmt.ifElse e s none).Alike (.ifElse e' s' none) := by
  unfold Expr.Alike Stmt.Alike at *
  rw [Stmt.mapLines, Stmt.mapLines, condition, thenBranch]

theorem Expr.Alike.ifElse (condition : e.Alike e') (thenBranch : s.Alike s') (elseBranch : t.Alike t') :
    (Stmt.ifElse e s (some t)).Alike (.ifElse e' s' (some t')) := by
  unfold Expr.Alike Stmt.Alike at *
  rw [Stmt.mapLines, Stmt.mapLines, condition, thenBranch, elseBranch]

theorem Stmt.Alike.cons (first : s.Alike s') (others : AlikeAll ss ss') :
    AlikeAll (s :: ss) (s' :: ss') := by
  unfold Stmt.Alike AlikeAll at *
  rw [mapLinesAll, mapLinesAll, first, others]

theorem Stmt.FunctionAlike.cons (first : FunctionAlike f f') (others : MethodsAlike fs fs') :
    MethodsAlike (f :: fs) (f' :: fs') := by
  unfold FunctionAlike MethodsAlike at *
  rw [methodsMapLines, methodsMapLines, first, others]

end Alike

namespace Program

def rendering (p : Program) : List Mark := Stmt.renderingAll p.declarations

def Canonical (p : Program) : Prop := Stmt.CanonicalAll p.declarations

/-- Declarations of a program stand at depth 0. -/
def Fits (p : Program) (limit : Nat) : Prop := Stmt.FitsAll limit 0 p.declarations

def mapLines (p : Program) (f : Nat → Nat) : Program := ⟨Stmt.mapLinesAll f p.declarations⟩

/-- Two programs that differ in their lines only. -/
def Alike (p p' : Program) : Prop := p.mapLines (fun _ => 0) = p'.mapLines (fun _ => 0)

end Program

end LoxFrontEnd
