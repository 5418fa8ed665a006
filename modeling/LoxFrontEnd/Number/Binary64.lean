/-!
Double precision numbers. A finite magnitude is a whole multiple of the smallest positive one,
`2 ^ (-1074)`, so two finite numbers are equal exactly when their multiples and signs are.
Quotients are read to the nearest magnitude; a half goes to the even neighbour.
-/

namespace LoxFrontEnd

namespace Binary64

/-- How many units, each the smallest positive magnitude, make up one. -/
def unitsPerOne : Nat := Nat.pow 2 1074

/-- The first magnitude, in units, that is too large to be finite. -/
def overflow : Nat := Nat.pow 2 2098

/-- The distance, in units, between neighbouring magnitudes at `units`: 53 binary digits are kept. -/
def spacing (units : Nat) : Nat := Nat.pow 2 (units.log2 - 52)

/-- The multiples of the smallest magnitude that are magnitudes of a finite number. -/
def Fits (units : Nat) : Prop := units < overflow ∧ spacing units ∣ units

instance (units : Nat) : Decidable (Fits units) :=
  inferInstanceAs (Decidable (_ ∧ _))

end Binary64

/-- A double precision number. Zero has a sign, and all undefined results are one `nan`. -/
inductive Binary64 where
  | nan
  | infinite (negative : Bool)
  | finite (negative : Bool) (units : Nat) (fits : Binary64.Fits units)
  deriving DecidableEq

namespace Binary64

/-- The whole number nearest to a quotient; a half goes to the even neighbour. -/
def roundDiv (num den : Nat) : Nat :=
  let low := num / den
  let remainder := 2 * (num % den)
  if remainder < den ∨ (remainder = den ∧ low % 2 = 0) then low else low + 1

/-- The magnitude `units`, or infinity where it is too large to be finite. -/
def ofUnits (negative : Bool) (units : Nat) : Binary64 :=
  if fits : Fits units then .finite negative units fits else .infinite negative

/-- The number nearest to the quotient of `num` by `den`, on the side of zero that `negative` says. -/
def ofQuotient (negative : Bool) (num den : Nat) : Binary64 :=
  let scaled := num * unitsPerOne
  let step := spacing (scaled / den)
  ofUnits negative (roundDiv scaled (den * step) * step)

instance : Inhabited Binary64 := ⟨ofUnits false 0⟩

end Binary64

end LoxFrontEnd
