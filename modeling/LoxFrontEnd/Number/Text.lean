import LoxFrontEnd.Number.Decimal

/-!
Written forms of double precision numbers. The shortest digits are laid out with a point among
them or, where the form says so, with a power of ten behind them.
-/

namespace LoxFrontEnd

/-- The choices of a written form. -/
structure NumberForm where
  /-- Whether a numeral is written without an exponent when its point stands at this place:
  `1` stands for a point behind the first digit, `0` for one in front of it. -/
  positional : Int → Bool
  /-- What follows the digits of a whole number that is written without an exponent. -/
  wholeEnd : List Char

namespace NumberForm

/-- Trees show every digit up to the point and no exponent. -/
def plain : NumberForm := ⟨fun _ => true, []⟩

/-- The log marks whole numbers by `.0`, and writes numbers below `10 ^ (-4)` and from
`10 ^ 16` on with an exponent. -/
def marked : NumberForm := ⟨fun point => -3 ≤ point ∧ point ≤ 16, ['.', '0']⟩

end NumberForm

namespace Decimal

/-- The digits with the point in its place. -/
def positionalText (d : Decimal) (wholeEnd : List Char) : List Char :=
  let digits := Nat.toDigits 10 d.coefficient
  let point := digits.length + d.exponent
  if 0 ≤ d.exponent then digits ++ List.replicate d.exponent.toNat '0' ++ wholeEnd
  else if 0 < point then digits.take point.toNat ++ '.' :: digits.drop point.toNat
  else '0' :: '.' :: List.replicate (-point).toNat '0' ++ digits

/-- The digits with the point behind the first one, and a power of ten. -/
def exponentText (d : Decimal) : List Char :=
  let digits := Nat.toDigits 10 d.coefficient
  let power := digits.length + d.exponent - 1
  let mantissa := if digits.length ≤ 1 then digits else digits.take 1 ++ '.' :: digits.drop 1
  mantissa ++ 'e' :: (toString power).toList

def text (d : Decimal) (form : NumberForm) : List Char :=
  if form.positional (digitCount d.coefficient + d.exponent) then d.positionalText form.wholeEnd
  else d.exponentText

end Decimal

namespace Binary64

/-- The mark in front of a number below zero. -/
def signText (negative : Bool) : List Char :=
  if negative then ['-'] else []

def chars (x : Binary64) (form : NumberForm) : List Char :=
  match x with
  | .nan => ['N', 'a', 'N']
  | .infinite negative => signText negative ++ ['i', 'n', 'f']
  | .finite negative units _ => signText negative ++ (Decimal.shortest units).text form

/-- The written form of a number. -/
def text (x : Binary64) (form : NumberForm) : String :=
  String.ofList (x.chars form)

/-- Reads a number written without an exponent, or the name of a number that is not finite. -/
def ofText (text : String) : Binary64 :=
  let (negative, magnitude) :=
    match text.toList with
    | '-' :: cs => (true, cs)
    | cs => (false, cs)
  match magnitude with
  | ['N', 'a', 'N'] => .nan
  | ['i', 'n', 'f'] => .infinite negative
  | cs => (Decimal.ofDigits (cs.takeWhile (· ≠ '.')) ((cs.dropWhile (· ≠ '.')).drop 1)).toBinary64 negative

/-- The digits end where they read back, and no point follows a whole number. -/
example : (["0.1", "9007199254740993", "1000000", "0.0000001", "-0"].map fun source =>
    (ofText source).text .plain) = ["0.1", "9007199254740992", "1000000", "0.0000001", "-0"] := by
  decide +kernel

/-- The exponent comes in at `10 ^ 16` and below `10 ^ (-4)`. -/
example : (["1", "9999999999999998", "10000000000000000", "0.0001", "0.00001"].map fun source =>
    (ofText source).text .marked) = ["1.0", "9999999999999998.0", "1e16", "0.0001", "1e-5"] := by
  decide +kernel

end Binary64

end LoxFrontEnd
