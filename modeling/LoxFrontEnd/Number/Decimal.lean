import LoxFrontEnd.Number.Binary64

/-!
Decimal numerals and the shortest one that stands for a double precision magnitude: with the
fewest digits that read back as it, and among those the nearest, the upper one at a tie.
-/

namespace LoxFrontEnd

/-- The value `coefficient * 10 ^ exponent`. -/
structure Decimal where
  coefficient : Nat
  exponent : Int
  deriving DecidableEq, Repr

namespace Decimal

/-- The numeral with `whole` before the point and `fraction` behind it, both decimal digits. -/
def ofDigits (whole fraction : List Char) : Decimal :=
  ⟨Nat.ofDigitChars 10 (whole ++ fraction) 0, -fraction.length⟩

/-- The quotient of two whole numbers that a numeral stands for. -/
def quotient (d : Decimal) : Nat × Nat :=
  (d.coefficient * Nat.pow 10 d.exponent.toNat, Nat.pow 10 (-d.exponent).toNat)

/-- Reading a numeral is correctly rounded. -/
def toBinary64 (d : Decimal) (negative : Bool) : Binary64 :=
  .ofQuotient negative d.quotient.1 d.quotient.2

/-- The same value without zeros at the end of its coefficient. -/
def trim (d : Decimal) : Decimal :=
  if d.coefficient = 0 then ⟨0, 0⟩
  else if d.coefficient % 10 = 0 then trim ⟨d.coefficient / 10, d.exponent + 1⟩
  else d
termination_by d.coefficient

/-- The number of decimal digits of a whole number. -/
def digitCount (n : Nat) : Nat := (Nat.toDigits 10 n).length

/-- Where the point stands in the digits of a positive magnitude: its value lies in
`[10 ^ (p - 1), 10 ^ p)`. -/
def pointOfUnits (units : Nat) : Int :=
  if Binary64.unitsPerOne ≤ units then digitCount (units / Binary64.unitsPerOne)
  else 1 - digitCount ((Binary64.unitsPerOne - 1) / units)

/-- How often `10 ^ exponent` goes into a magnitude, as a quotient of whole numbers. -/
def gridQuotient (units : Nat) (exponent : Int) : Nat × Nat :=
  (units * Nat.pow 10 (-exponent).toNat, Binary64.unitsPerOne * Nat.pow 10 exponent.toNat)

/-- The neighbours of a magnitude among the multiples of `10 ^ exponent`, the nearer one first
and at a tie the upper one. -/
def neighbours (units : Nat) (exponent : Int) : List Decimal :=
  let (num, den) := gridQuotient units exponent
  let low := num / den
  if 2 * (num % den) < den then [⟨low, exponent⟩, ⟨low + 1, exponent⟩]
  else [⟨low + 1, exponent⟩, ⟨low, exponent⟩]

/-- All the digits of a magnitude. -/
def exact (units : Nat) : Decimal :=
  ⟨units * Nat.pow 5 1074, -1074⟩

/-- The shortest numeral that reads back as the magnitude `units`. -/
def shortest (units : Nat) : Decimal :=
  let point := pointOfUnits units
  let candidates := (List.range 17).flatMap fun fewer : Nat => neighbours units (point - 1 - fewer)
  let hit := candidates.find? fun d => d.toBinary64 false = .ofUnits false units
  (hit.getD (exact units)).trim

end Decimal

end LoxFrontEnd
