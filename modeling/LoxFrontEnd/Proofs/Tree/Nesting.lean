import LoxFrontEnd.Proofs.Grammar.Canonical

/-!
How deep a tree is nested, told by the ways down from its root. Groupings, arguments and assigned values are
entered. Operators in front of an operand are counted from where the way has last entered something, and are
forgotten where it enters the next.
-/

namespace LoxFrontEnd

/-- How a way down goes on from a tree to one of its parts. -/
inductive Descent where
  | grouping | argument | value
  /-- To what a prefix operator stands in front of. -/
  | operand
  /-- To any other part, for which nothing is counted. -/
  | side
  deriving DecidableEq, Repr

namespace Descent

/-- What is entered is an expression of its own. -/
def enters : Descent → Bool
  | .grouping | .argument | .value => true
  | .operand | .side => false

/-- The steps that are a level of nesting each. -/
def counts : Descent → Bool
  | .side => false
  | _ => true

end Descent

namespace Expr

inductive Below : Expr → Descent → Expr → Prop
  | grouping {inner} : Below (.grouping inner) .grouping inner
  | argument {callee es e} : e ∈ es → Below (.call callee es) .argument e
  | assigned {name value} : Below (.assign name value) .value value
  | setValue {object name value} : Below (.setAttr object name value) .value value
  | operand {op e} : Below (.unary op e) .operand e
  | callee {callee es} : Below (.call callee es) .side callee
  | getObject {object name} : Below (.getAttr object name) .side object
  | setObject {object name value} : Below (.setAttr object name value) .side object
  | logicalLeft {op left right} : Below (.logical op left right) .side left
  | logicalRight {op left right} : Below (.logical op left right) .side right
  | binaryLeft {op left right} : Below (.binary op left right) .side left
  | binaryRight {op left right} : Below (.binary op left right) .side right

/-- A way down from the root. -/
inductive Path : Expr → List Descent → Prop
  | here {e} : Path e []
  | down {e step part steps} : Below e step part → Path part steps → Path e (step :: steps)

/-- On every way down, what has been entered and the operators behind it are levels, and they are no
more than the limit. The tree is the inside of an expression at `depth`. -/
def Within (limit depth : Nat) (e : Expr) : Prop :=
  ∀ front run, e.Path (front ++ run) → (∀ step ∈ run, step.enters = false) →
    depth + front.countP Descent.enters + run.count .operand ≤ limit

/-- A whole expression takes a level of its own. -/
def NestedWithin (limit : Nat) (e : Expr) : Prop := e.Within limit 1

theorem fitsAll_iff {limit depth : Nat} {es : List Expr} :
    FitsAll limit depth es ↔ ∀ e ∈ es, depth < limit ∧ e.Fits limit (depth + 1) := by
  induction es with
  | nil => exact iff_of_true trivial nofun
  | cons e es ih => rw [FitsAll, ih, List.forall_mem_cons]

theorem canonicalAll_iff {es : List Expr} : CanonicalAll es ↔ ∀ e ∈ es, e.Canonical := by
  induction es with
  | nil => exact iff_of_true trivial nofun
  | cons e es ih => rw [CanonicalAll, ih, List.forall_mem_cons]

section

variable {limit depth : Nat} {e part : Expr} {step : Descent} {steps run : List Descent}

theorem Below.canonical (below : Below e step part) (canonical : e.Canonical) : part.Canonical := by
  cases below with
  | argument member => exact canonicalAll_iff.mp canonical.2.2 _ member
  | grouping | assigned => exact canonical
  | setValue => exact canonical.2.2
  | logicalRight | binaryRight => exact canonical.2.2.2
  | operand | getObject => exact canonical.2
  | callee | setObject | logicalLeft | binaryLeft => exact canonical.2.1

theorem Below.entered (below : Below e step part) (enters : step.enters = true)
    (fits : e.Fits limit depth) :
    depth < limit ∧ part.Fits limit (depth + 1) := by
  cases below with
  | argument member => exact fitsAll_iff.mp fits.2 _ member
  | grouping | assigned => exact fits
  | setValue => exact fits.2
  | _ => cases enters

theorem Below.inside (below : Below e step part) (enters : step.enters = false)
    (fits : e.Fits limit depth) :
    part.Fits limit depth := by
  cases below with
  | operand | logicalRight | binaryRight => exact fits.2
  | callee | setObject | logicalLeft | binaryLeft => exact fits.1
  | getObject => exact fits
  | _ => cases enters

/-- Below operators there are only calls and properties, and no operator stands in front of their parts. -/
theorem Below.tight (below : Below e .side part) (canonical : e.Canonical) (tight : 7 ≤ e.level) :
    8 ≤ part.level := by
  cases below with
  | callee | getObject => exact canonical.1
  | setObject => exact absurd tight (by decide : ¬ 7 ≤ 0)
  | @logicalLeft op | @logicalRight op =>
    have bounds := (Grammar.Operator.logical op).rung_bounds
    exact absurd (show 7 ≤ (Grammar.Operator.logical op).rung from tight) (by omega)
  | @binaryLeft op | @binaryRight op =>
    have bounds := (Grammar.Operator.binary op).rung_bounds
    exact absurd (show 7 ≤ (Grammar.Operator.binary op).rung from tight) (by omega)

theorem Below.sizeOf_lt (below : Below e step part) : sizeOf part < sizeOf e := by
  cases below with
  | @argument callee es _ member =>
    have smaller := List.sizeOf_lt_of_mem member
    rw [call.sizeOf_spec]
    omega
  | _ => decreasing_tactic

/-- Where nothing is entered on the way down from an operand, all operators on it stand in front of
that operand. -/
theorem Path.count_le_prefixes (path : e.Path run) (outside : ∀ step ∈ run, step.enters = false)
    (canonical : e.Canonical) (tight : 7 ≤ e.level) : run.count .operand ≤ e.prefixes := by
  induction path with
  | here => exact Nat.zero_le _
  | @down e step part steps below path ih =>
    obtain ⟨first, others⟩ := List.forall_mem_cons.mp outside
    cases step with
    | grouping | argument | value => cases first
    | operand =>
      cases below
      rw [List.count_cons_self]
      exact Nat.succ_le_succ (ih others canonical.2 canonical.1)
    | side =>
      have tighter := below.tight canonical tight
      have none := ih others (below.canonical canonical) (by omega)
      rw [prefixes_eq_zero tighter] at none
      rw [List.count_cons_of_ne (by decide)]
      exact Nat.le_trans none (Nat.zero_le _)

theorem Path.count_le (path : e.Path run) (outside : ∀ step ∈ run, step.enters = false)
    (canonical : e.Canonical) (fits : e.Fits limit depth) (room : depth ≤ limit) :
    depth + run.count .operand ≤ limit := by
  induction path with
  | here => exact room
  | @down e step part steps below path ih =>
    obtain ⟨first, others⟩ := List.forall_mem_cons.mp outside
    cases step with
    | grouping | argument | value => cases first
    | operand =>
      cases below
      have further := path.count_le_prefixes others canonical.2 canonical.1
      have bound := fits.1
      rw [List.count_cons_self]
      omega
    | side =>
      rw [List.count_cons_of_ne (by decide)]
      exact ih others (below.canonical canonical) (below.inside first fits)

theorem within_of_fits (canonical : e.Canonical) (fits : e.Fits limit depth) (room : depth ≤ limit) :
    e.Within limit depth := by
  intro front run path outside
  induction front generalizing e depth with
  | nil => exact path.count_le outside canonical fits room
  | cons step front ih =>
    cases path with
    | down below path =>
      cases enters : step.enters with
      | true =>
        obtain ⟨deeper, fits'⟩ := below.entered enters fits
        have bound := ih (below.canonical canonical) fits' deeper path
        rw [List.countP_cons_of_pos enters]
        omega
      | false =>
        rw [List.countP_cons_of_neg (by rw [enters]; decide)]
        exact ih (below.canonical canonical) (below.inside enters fits) room path

theorem Within.entered (within : e.Within limit depth) (below : Below e step part)
    (enters : step.enters = true) :
    part.Within limit (depth + 1) := by
  intro front run path outside
  have bound := within (step :: front) run (.down below path) outside
  rw [List.countP_cons_of_pos enters] at bound
  omega

theorem Within.inside (within : e.Within limit depth) (below : Below e step part)
    (enters : step.enters = false) :
    part.Within limit depth := by
  intro front run path outside
  have bound := within (step :: front) run (.down below path) outside
  rwa [List.countP_cons_of_neg (by rw [enters]; decide)] at bound

theorem Within.room (within : e.Within limit depth) : depth ≤ limit := within [] [] .here nofun

theorem path_prefixes (e : Expr) : e.Path (List.replicate e.prefixes .operand) := by
  cases e with
  | unary op operand => exact .down .operand (path_prefixes operand)
  | _ => exact .here

theorem Within.prefixes_le (within : e.Within limit depth) : depth + e.prefixes ≤ limit := by
  have bound := within [] (List.replicate e.prefixes .operand) (path_prefixes e)
    fun step member => List.eq_of_mem_replicate member ▸ rfl
  rwa [List.count_replicate_self] at bound

theorem fits_of_within {depth : Nat} (e : Expr) (within : e.Within limit depth) : e.Fits limit depth := by
  have enter (step : Descent) (part : Expr) (below : Below e step part) (enters : step.enters = true) :
      depth < limit ∧ part.Fits limit (depth + 1) :=
    have _smaller := below.sizeOf_lt
    ⟨(within.entered below enters).room, fits_of_within part (within.entered below enters)⟩
  have stay (step : Descent) (part : Expr) (below : Below e step part) (enters : step.enters = false) :
      part.Fits limit depth :=
    have _smaller := below.sizeOf_lt
    fits_of_within part (within.inside below enters)
  cases e with
  | literal | var | thisRef | superRef => trivial
  | assign => exact enter _ _ .assigned rfl
  | getAttr object => exact stay .side object .getObject rfl
  | setAttr => exact ⟨stay _ _ .setObject rfl, enter _ _ .setValue rfl⟩
  | logical => exact ⟨stay _ _ .logicalLeft rfl, stay _ _ .logicalRight rfl⟩
  | binary => exact ⟨stay _ _ .binaryLeft rfl, stay _ _ .binaryRight rfl⟩
  | unary => exact ⟨within.prefixes_le, stay _ _ .operand rfl⟩
  | call => exact ⟨stay _ _ .callee rfl, fitsAll_iff.mpr fun _ member => enter _ _ (.argument member) rfl⟩
  | grouping => exact enter _ _ .grouping rfl
termination_by sizeOf e

/-- The limit to nesting, told by ways down, is the one that derivations keep. -/
theorem within_iff_fits (canonical : e.Canonical) :
    e.Within limit depth ↔ depth ≤ limit ∧ e.Fits limit depth :=
  ⟨fun within => ⟨within.room, fits_of_within e within⟩, fun ⟨room, fits⟩ =>
    within_of_fits canonical fits room⟩

end

end Expr

end LoxFrontEnd
