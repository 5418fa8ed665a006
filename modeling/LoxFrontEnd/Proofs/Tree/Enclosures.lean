import Mathlib.Data.List.Chain
import LoxFrontEnd.Tree

/-!
How deep bodies stand in one another in a tree, told by the ways down from its root. Blocks take
levels of nesting, the bodies of functions and of classes take none.
-/

namespace LoxFrontEnd

/-- What a way down enters. -/
inductive Enclosure where
  | functionBody | classBody | block
  deriving DecidableEq, Repr

/-- From the root of the tree a way goes down into these bodies, from the outermost one to the innermost. -/
inductive Stmt.Way : Stmt → List Enclosure → Prop
  | here {s} : Way s []
  | block {ss} : Way (.block ss) [.block]
  | inBlock {ss s way} : s ∈ ss → Way s way → Way (.block ss) (.block :: way)
  | thenBranch {e s o way} : Way s way → Way (.ifElse e s o) way
  | elseBranch {e s s' way} : Way s' way → Way (.ifElse e s (some s')) way
  | loop {e s way} : Way s way → Way (.whileLoop e s) way
  | function {f} : Way (.funDecl f) [.functionBody]
  | inFunction {f s way} : s ∈ f.body → Way s way → Way (.funDecl f) (.functionBody :: way)
  | classBody {name above fs line} : Way (.classDecl name above fs line) [.classBody]
  | method {name above fs line f way} : f ∈ fs → Way (.funDecl f) way →
      Way (.classDecl name above fs line) (.classBody :: way)

def Program.Way (p : Program) (way : List Enclosure) : Prop := ∃ s ∈ p.declarations, s.Way way

namespace Enclosure

/-- The levels of nesting that a way takes at least. A `for` loop is two blocks at one level, but its
body takes a level of its own. -/
def levels : List Enclosure → Nat
  | [] => 0
  | .block :: .block :: .block :: way => levels (.block :: way) + 1
  | .block :: way => levels way + 1
  | .functionBody :: way | .classBody :: way => levels way

/-- There are only methods in the body of a class. -/
def Methods (outer inner : Enclosure) : Prop := outer = .classBody → inner = .functionBody

instance : DecidableRel Methods := fun outer inner => inferInstanceAs (Decidable (outer = _ → inner = _))

/-- One block more takes one level more, or none. -/
theorem levels_block : ∀ way, levels way ≤ levels (.block :: way) ∧ levels (.block :: way) ≤ levels way + 1
  | [] | [.block] => by decide
  | .functionBody :: way | .classBody :: way | .block :: .functionBody :: way
  | .block :: .classBody :: way => by
    simp only [levels]
    omega
  | .block :: .block :: way => by
    have one := levels_block (.block :: way)
    simp only [levels]
    omega

/-- Two blocks more take one level more, where a level is left for what stands in them. -/
theorem levels_blocks {way : List Enclosure} (opens : ∀ outer ∈ way.head?, outer = .block) :
    levels (.block :: .block :: way) ≤ max 2 (levels way + 1) := by
  match way, opens with
  | [], _ => decide
  | .block :: way, _ => exact Nat.le_max_right ..
  | .functionBody :: way, opens | .classBody :: way, opens => cases opens _ rfl

/-- So many blocks take half as many levels at least. -/
theorem count_block_le : ∀ way : List Enclosure, way.count .block ≤ 2 * levels way - 1
  | [] | [.block] | [.block, .block] => by decide
  | .functionBody :: way | .classBody :: way | .block :: .functionBody :: way | .block :: .classBody :: way
  | .block :: .block :: .functionBody :: way | .block :: .block :: .classBody :: way => by
    have inner := count_block_le way
    simp only [levels, List.count_cons, beq_self_eq_true, if_true, reduceCtorEq, beq_iff_eq, if_false]
    omega
  | .block :: .block :: .block :: way => by
    have inner := count_block_le (.block :: way)
    simp only [levels, List.count_cons_self] at inner ⊢
    omega

end Enclosure

theorem Stmt.Way.methods {s : Stmt} {way : List Enclosure} (goes : s.Way way) :
    way.IsChain Enclosure.Methods := by
  induction goes with
  | here => exact .nil
  | block | function | classBody => exact .singleton _
  | thenBranch _ ih | elseBranch _ ih | loop _ ih => exact ih
  | inBlock _ _ ih | inFunction _ _ ih => exact ih.cons fun inner _ isClass => nomatch isClass
  | method _ below ih =>
    refine ih.cons fun inner first isClass => ?_
    cases below with
    | here => cases first
    | function | inFunction => exact (Option.some.inj first).symm

end LoxFrontEnd
