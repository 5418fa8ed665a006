import LoxFrontEnd.Proofs.Grammar.Expression

/-!
Canonical expressions and their renderings. A tree is canonical if every operand binds at least as
tightly as its place asks for, so that it can be written down without parentheses of its own.
-/

namespace LoxFrontEnd

/-- What a token shows, apart from its place. The text of a token matters for names and strings only. -/
structure Mark where
  kind : TokenKind
  text : Option String

def TokenKind.hasText : TokenKind → Bool
  | .identifier | .string => true
  | _ => false

def Token.mark (token : Token) : Mark :=
  ⟨token.kind, if token.kind.hasText then some token.lexeme else none⟩

namespace Mark

/-- A token whose text does not matter. -/
def sign (kind : TokenKind) : Mark := ⟨kind, none⟩

def name (text : String) : Mark := ⟨.identifier, some text⟩

/-- A string in quotes. -/
def string (text : String) : Mark := ⟨.string, some (String.ofList ('"' :: text.toList ++ ['"']))⟩

end Mark

def Literal.mark : Literal → Mark
  | .number value => .sign (.number value)
  | .string text => .string text
  | .bool value => .sign (.bool value)
  | .nil => .sign .kwNil

namespace Expr

open Grammar

mutual

/-- The tokens of a tree in order. Only groupings are written with parentheses, and calls. -/
def rendering : Expr → List Mark
  | .literal value => [value.mark]
  | .var name _ => [.name name]
  | .assign name value => .name name :: .sign .equal :: value.rendering
  | .getAttr object name => object.rendering ++ [.sign .dot, .name name]
  | .setAttr object name value =>
    object.rendering ++ .sign .dot :: .name name :: .sign .equal :: value.rendering
  | .logical op left right => left.rendering ++ .sign (Operator.logical op).kind :: right.rendering
  | .binary op left right => left.rendering ++ .sign (Operator.binary op).kind :: right.rendering
  | .unary op operand => .sign (prefixKind op) :: operand.rendering
  | .call callee arguments =>
    callee.rendering ++ .sign .leftParen :: (renderingAll arguments ++ [.sign .rightParen])
  | .thisRef _ => [.sign .kwThis]
  | .superRef method _ => [.sign .kwSuper, .sign .dot, .name method]
  | .grouping inner => .sign .leftParen :: (inner.rendering ++ [.sign .rightParen])

/-- Arguments, with commas between them. -/
def renderingAll : List Expr → List Mark
  | [] => []
  | [e] => e.rendering
  | e :: next :: es => e.rendering ++ .sign .comma :: renderingAll (next :: es)

end

/-- How tightly a tree binds: the rung of the ladder that it stands on. -/
def level : Expr → Nat
  | .assign .. | .setAttr .. => 0
  | .logical op _ _ => (Operator.logical op).rung
  | .binary op _ _ => (Operator.binary op).rung
  | .unary .. => 7
  | .call .. | .getAttr .. => 8
  | .literal _ | .var .. | .thisRef _ | .superRef .. | .grouping _ => 9

mutual

/-- Operators group to the left. Assigned values, arguments and what stands in parentheses may bind as
loosely as they like. -/
def Canonical : Expr → Prop
  | .literal _ | .var .. | .thisRef _ | .superRef .. => True
  | .assign _ value => value.Canonical
  | .getAttr object _ => 8 ≤ object.level ∧ object.Canonical
  | .setAttr object _ value => 8 ≤ object.level ∧ object.Canonical ∧ value.Canonical
  | .logical op left right =>
    (Operator.logical op).rung ≤ left.level ∧ left.Canonical ∧
      (Operator.logical op).rung < right.level ∧ right.Canonical
  | .binary op left right =>
    (Operator.binary op).rung ≤ left.level ∧ left.Canonical ∧
      (Operator.binary op).rung < right.level ∧ right.Canonical
  | .unary _ operand => 7 ≤ operand.level ∧ operand.Canonical
  | .call callee arguments => 8 ≤ callee.level ∧ callee.Canonical ∧ CanonicalAll arguments
  | .grouping inner => inner.Canonical

def CanonicalAll : List Expr → Prop
  | [] => True
  | e :: es => e.Canonical ∧ CanonicalAll es

end

/-- The operators in front of an operand. -/
def prefixes : Expr → Nat
  | .unary _ operand => operand.prefixes + 1
  | _ => 0

mutual

/-- `e.Fits limit depth`: no part of the tree is nested deeper than the limit, where the tree is the inside
of an expression at `depth`. Groupings, arguments and assigned values are expressions of their own; a run of
operators in front of an operand counts one by one. -/
def Fits (limit : Nat) (depth : Nat) : Expr → Prop
  | .literal _ | .var .. | .thisRef _ | .superRef .. => True
  | .assign _ value => depth < limit ∧ value.Fits limit (depth + 1)
  | .getAttr object _ => object.Fits limit depth
  | .setAttr object _ value => object.Fits limit depth ∧ depth < limit ∧ value.Fits limit (depth + 1)
  | .logical _ left right | .binary _ left right => left.Fits limit depth ∧ right.Fits limit depth
  | .unary _ operand => depth + (operand.prefixes + 1) ≤ limit ∧ operand.Fits limit depth
  | .call callee arguments => callee.Fits limit depth ∧ FitsAll limit depth arguments
  | .grouping inner => depth < limit ∧ inner.Fits limit (depth + 1)

def FitsAll (limit : Nat) (depth : Nat) : List Expr → Prop
  | [] => True
  | e :: es => (depth < limit ∧ e.Fits limit (depth + 1)) ∧ FitsAll limit depth es

end

mutual

/-- The tree with other lines. -/
def mapLines (f : Nat → Nat) : Expr → Expr
  | .literal value => .literal value
  | .var name line => .var name (f line)
  | .assign name value => .assign name (value.mapLines f)
  | .getAttr object name => .getAttr (object.mapLines f) name
  | .setAttr object name value => .setAttr (object.mapLines f) name (value.mapLines f)
  | .logical op left right => .logical op (left.mapLines f) (right.mapLines f)
  | .binary op left right => .binary op (left.mapLines f) (right.mapLines f)
  | .unary op operand => .unary op (operand.mapLines f)
  | .call callee arguments => .call (callee.mapLines f) (mapLinesAll f arguments)
  | .thisRef line => .thisRef (f line)
  | .superRef method line => .superRef method (f line)
  | .grouping inner => .grouping (inner.mapLines f)

def mapLinesAll (f : Nat → Nat) : List Expr → List Expr
  | [] => []
  | e :: es => e.mapLines f :: mapLinesAll f es

end

/-- Two trees that differ in their lines only. -/
def Alike (e e' : Expr) : Prop := e.mapLines (fun _ => 0) = e'.mapLines (fun _ => 0)

def AlikeAll (es es' : List Expr) : Prop := mapLinesAll (fun _ => 0) es = mapLinesAll (fun _ => 0) es'

section Alike

variable {a a' b b' : Expr} {es es' : List Expr}

theorem Alike.setAttr (object : a.Alike a') (value : b.Alike b') (name : String) :
    (Expr.setAttr a name b).Alike (Expr.setAttr a' name b') := by
  unfold Alike at *
  rw [mapLines, mapLines, object, value]

theorem Alike.logical (left : a.Alike a') (right : b.Alike b') (op : LogicalOp) :
    (Expr.logical op a b).Alike (Expr.logical op a' b') := by
  unfold Alike at *
  rw [mapLines, mapLines, left, right]

theorem Alike.binary (left : a.Alike a') (right : b.Alike b') (op : BinaryOp) :
    (Expr.binary op a b).Alike (Expr.binary op a' b') := by
  unfold Alike at *
  rw [mapLines, mapLines, left, right]

theorem Alike.call (callee : a.Alike a') (arguments : AlikeAll es es') :
    (Expr.call a es).Alike (Expr.call a' es') := by
  unfold Alike AlikeAll at *
  rw [mapLines, mapLines, callee, arguments]

theorem AlikeAll.cons (first : a.Alike a') (others : AlikeAll es es') : AlikeAll (a :: es) (a' :: es') := by
  unfold Alike AlikeAll at *
  rw [mapLinesAll, mapLinesAll, first, others]

end Alike

end Expr

end LoxFrontEnd
