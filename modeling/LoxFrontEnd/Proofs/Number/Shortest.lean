import LoxFrontEnd.Number.Text
import LoxFrontEnd.Proofs.Lexical.Grammar

/-!
The written form of a number is a numeral that reads back as the number. Rounding depends on the value
of a quotient only, so that digits may be moved between a coefficient and its power of ten; and where
no short numeral reads back, all the digits of the magnitude do.
-/

namespace LoxFrontEnd

namespace Binary64

variable {num den num' den' units : Nat}

theorem roundDiv_mul_left {factor : Nat} (positive : 0 < factor) :
    roundDiv (factor * num) (factor * den) = roundDiv num den := by
  have double : 2 * (factor * (num % den)) = factor * (2 * (num % den)) := Nat.mul_left_comm ..
  simp only [roundDiv, Nat.mul_div_mul_left num den positive, Nat.mul_mod_mul_left, double,
    Nat.mul_lt_mul_left positive, Nat.mul_left_cancel_iff positive]

theorem roundDiv_mul_self (positive : 0 < den) (low : Nat) : roundDiv (den * low) den = low := by
  simp only [roundDiv, Nat.mul_mod_right, Nat.mul_div_cancel_left low positive, Nat.mul_zero,
    positive, true_or, if_true]

theorem ofQuotient_mul_left {factor : Nat} (positive : 0 < factor) (negative : Bool) :
    ofQuotient negative (factor * num) (factor * den) = ofQuotient negative num den := by
  simp only [ofQuotient, Nat.mul_assoc factor, Nat.mul_div_mul_left _ _ positive,
    roundDiv_mul_left positive]

/-- Quotients of the same value are read as the same number. -/
theorem ofQuotient_congr (positive : 0 < den) (positive' : 0 < den') (same : num * den' = num' * den)
    (negative : Bool) : ofQuotient negative num den = ofQuotient negative num' den' := by
  calc ofQuotient negative num den
      = ofQuotient negative (den' * num) (den' * den) := (ofQuotient_mul_left positive' negative).symm
    _ = ofQuotient negative (den * num') (den * den') := by
      rw [Nat.mul_comm den' num, same, Nat.mul_comm num', Nat.mul_comm den']
    _ = ofQuotient negative num' den' := ofQuotient_mul_left positive negative

/-- A quotient that is a magnitude is read as it is. -/
theorem ofQuotient_exact (fits : Fits units) (positive : 0 < den) (same : num * unitsPerOne = den * units)
    (negative : Bool) : ofQuotient negative num den = .finite negative units fits := by
  obtain ⟨low, isUnits⟩ := fits.2
  have spaced : 0 < den * spacing units := Nat.mul_pos positive (Nat.pow_pos (by decide))
  have multiple : den * units = den * spacing units * low := by rw [Nat.mul_assoc, ← isUnits]
  have rounded : roundDiv (den * units) (den * spacing units) = low := by
    rw [multiple, roundDiv_mul_self spaced]
  rw [ofQuotient, same, Nat.mul_div_cancel_left _ positive, rounded, Nat.mul_comm low, ← isUnits,
    ofUnits, dif_pos fits]

/-- Without a sign no number below zero is read, and no undefined one. -/
theorem ofQuotient_cases (num den : Nat) :
    (∃ units fits, ofQuotient false num den = .finite false units fits) ∨
      ofQuotient false num den = .infinite false := by
  rw [ofQuotient, ofUnits]
  split
  next fits => exact Or.inl ⟨_, fits, rfl⟩
  next => exact Or.inr rfl

end Binary64

namespace Decimal

open Binary64 Lexical

variable {d d' : Decimal} {units : Nat}

theorem quotient_pos (d : Decimal) : 0 < d.quotient.2 := Nat.pow_pos (by decide)

theorem toBinary64_congr (same : d.quotient.1 * d'.quotient.2 = d'.quotient.1 * d.quotient.2)
    (negative : Bool) :
    d.toBinary64 negative = d'.toBinary64 negative :=
  ofQuotient_congr d.quotient_pos d'.quotient_pos same negative

/-- A zero at the end of the coefficient may go to the power of ten. -/
theorem toBinary64_shift (coefficient : Nat) (exponent : Int) (negative : Bool) :
    (Decimal.mk (10 * coefficient) exponent).toBinary64 negative =
      (Decimal.mk coefficient (exponent + 1)).toBinary64 negative := by
  refine toBinary64_congr ?_ negative
  rcases Int.lt_or_le exponent 0 with below | above
  · have up : exponent.toNat = 0 ∧ (exponent + 1).toNat = 0 := by omega
    have down : (-exponent).toNat = (-(exponent + 1)).toNat + 1 := by omega
    simp only [quotient, up, down, Nat.pow_eq, Nat.pow_zero, Nat.mul_one, Nat.pow_succ]
    ac_rfl
  · have up : (exponent + 1).toNat = exponent.toNat + 1 := by omega
    have down : (-exponent).toNat = 0 ∧ (-(exponent + 1)).toNat = 0 := by omega
    simp only [quotient, up, down, Nat.pow_eq, Nat.pow_zero, Nat.mul_one, Nat.pow_succ]
    ac_rfl

theorem toBinary64_zero (exponent : Int) (negative : Bool) :
    (Decimal.mk 0 exponent).toBinary64 negative = (Decimal.mk 0 0).toBinary64 negative :=
  toBinary64_congr (by simp only [quotient, Nat.zero_mul]) negative

theorem toBinary64_trim (d : Decimal) (negative : Bool) :
    d.trim.toBinary64 negative = d.toBinary64 negative := by
  fun_induction trim d with
  | case1 d zero =>
    obtain ⟨coefficient, exponent⟩ := d
    obtain rfl : coefficient = 0 := zero
    exact (toBinary64_zero exponent negative).symm
  | case2 d _ ends ih =>
    rw [ih, ← toBinary64_shift, Nat.mul_div_cancel' (Nat.dvd_of_mod_eq_zero ends)]
  | case3 => rfl

/-- Zero is trimmed to one digit. -/
theorem exponent_trim (zero : d.trim.coefficient = 0) : d.trim.exponent = 0 := by
  fun_induction trim d with
  | case1 => rfl
  | case2 d _ _ ih => exact ih zero
  | case3 d other => exact absurd zero other

theorem quotient_neg (coefficient places : Nat) :
    (Decimal.mk coefficient (-(places : Int))).quotient = (coefficient, Nat.pow 10 places) := by
  have up : (-(places : Int)).toNat = 0 := by omega
  rw [quotient, up, Int.neg_neg, Int.toNat_natCast]
  exact congrArg (Prod.mk · _) (Nat.mul_one coefficient)

theorem pow_ten (places : Nat) : Nat.pow 10 places = Nat.pow 5 places * Nat.pow 2 places :=
  Nat.mul_pow 5 2 places

/-- Halving goes on for as many places as there are in a unit, so with so many places a magnitude is
read exactly. -/
theorem toBinary64_places (fits : Fits units) {places : Nat} (one : unitsPerOne = Nat.pow 2 places)
    (negative : Bool) :
    (Decimal.mk (units * Nat.pow 5 places) (-(places : Int))).toBinary64 negative =
      .finite negative units fits := by
  refine ofQuotient_exact fits (quotient_pos _) ?_ negative
  rw [quotient_neg, pow_ten, one]
  dsimp only
  ac_rfl

/-- The digits that are shown read back as the magnitude. -/
theorem toBinary64_shortest (fits : Fits units) :
    (shortest units).toBinary64 false = .finite false units fits := by
  rw [shortest, toBinary64_trim]
  generalize hit : List.find? _ _ = found
  cases found with
  | none =>
    have digits : exact units = ⟨units * Nat.pow 5 1074, -((1074 : Nat) : Int)⟩ := rfl
    rw [Option.getD_none, digits]
    exact toBinary64_places fits unitsPerOne.eq_1 false
  | some d =>
    have back := List.find?_some hit
    rw [decide_eq_true_eq, ofUnits, dif_pos fits] at back
    exact back

theorem toBinary64_ofDigits (whole fraction : List Char) (negative : Bool) :
    (ofDigits whole fraction).toBinary64 negative =
      (Decimal.mk (Nat.ofDigitChars 10 (whole ++ fraction) 0) (-(fraction.length : Int))).toBinary64
        negative := rfl

/-- A text is a numeral of this value. -/
def Shows (text : List Char) (d : Decimal) : Prop :=
  ∃ whole decimals, Numeral text whole decimals ∧ ¬ LeadingZero whole ∧
    ∀ negative, (ofDigits whole decimals).toBinary64 negative = d.toBinary64 negative

theorem digits_toDigits (n : Nat) : Digits (Nat.toDigits 10 n) :=
  ⟨List.ne_nil_of_length_pos Nat.length_toDigits_pos, fun _ member =>
    Nat.isDigit_of_mem_toDigits (by decide) (by decide) member⟩

theorem value_toDigits (n : Nat) : Nat.ofDigitChars 10 (Nat.toDigits 10 n) 0 = n :=
  Nat.ofDigitChars_toDigits (by decide) (by decide)

theorem isDigit_of_mem_zeros {n : Nat} {c : Char} (member : c ∈ List.replicate n '0') :
    c.isDigit = true := by
  rw [List.eq_of_mem_replicate member]
  rfl

/-- The first digit of a positive number is not zero. -/
theorem head_toDigits {n : Nat} (positive : 0 < n) :
    ∃ c others, Nat.toDigits 10 n = c :: others ∧ c ≠ '0' := by
  induction n using Nat.strongRecOn with
  | _ n ih =>
    rcases Nat.lt_or_ge n 10 with one | more
    · have small : ∀ n, n < 10 → 0 < n → n.digitChar ≠ '0' := by decide
      exact ⟨_, [], Nat.toDigits_of_lt_base one, small n one positive⟩
    · obtain ⟨c, others, same, other⟩ := ih (n / 10) (by omega) (by omega)
      rw [Nat.toDigits_of_base_le (by decide) more, same]
      exact ⟨c, _, rfl, other⟩

theorem not_leadingZero_toDigits (n : Nat) : ¬ LeadingZero (Nat.toDigits 10 n) := by
  rintro ⟨d, others, leading⟩
  rcases Nat.eq_zero_or_pos n with rfl | positive
  · cases leading
  · obtain ⟨c, _, same, other⟩ := head_toDigits positive
    exact other (List.cons.inj (same.symm.trans leading)).1

/-- Digits with zeros behind them, as many as the power of ten has. -/
theorem shows_whole {coefficient places : Nat} (trimmed : coefficient = 0 → places = 0) :
    Shows (Nat.toDigits 10 coefficient ++ List.replicate places '0') ⟨coefficient, places⟩ := by
  have digits := digits_toDigits coefficient
  refine ⟨_, [], .whole ⟨List.append_ne_nil_of_left_ne_nil digits.1 _, fun c member => ?_⟩, ?_,
    fun negative => ?_⟩
  · rcases List.mem_append.mp member with digit | zero
    · exact digits.2 c digit
    · exact isDigit_of_mem_zeros zero
  · rcases Nat.eq_zero_or_pos coefficient with zero | positive
    · rw [trimmed zero, List.replicate_zero, List.append_nil]
      exact not_leadingZero_toDigits coefficient
    · obtain ⟨c, others, same, other⟩ := head_toDigits positive
      rintro ⟨d, more, leading⟩
      rw [same] at leading
      exact other (List.cons.inj leading).1
  · rw [toBinary64_ofDigits, List.append_nil, Nat.ofDigitChars_append, value_toDigits,
      Nat.ofDigitChars_replicate_zero]
    refine toBinary64_congr ?_ negative
    have down : (-(places : Int)).toNat = 0 := by omega
    simp only [quotient, down, Int.toNat_natCast, List.length_nil, Int.natCast_zero, Int.neg_zero,
      Int.toNat_zero, Nat.pow_eq]
    ac_rfl

/-- The point stands among the digits. -/
theorem shows_among {coefficient point places : Nat} (front : 0 < point) (behind : 0 < places)
    (length : (Nat.toDigits 10 coefficient).length = point + places) :
    Shows ((Nat.toDigits 10 coefficient).take point ++ '.' :: (Nat.toDigits 10 coefficient).drop point)
      ⟨coefficient, -(places : Int)⟩ := by
  have digits := digits_toDigits coefficient
  have left : ((Nat.toDigits 10 coefficient).take point).length = point := by rw [List.length_take]; omega
  have right : ((Nat.toDigits 10 coefficient).drop point).length = places := by rw [List.length_drop]; omega
  refine ⟨_, _, .decimal ⟨List.ne_nil_of_length_pos (by omega), fun c member => ?_⟩
    ⟨List.ne_nil_of_length_pos (by omega), fun c member => ?_⟩, ?_, fun negative => ?_⟩
  · exact digits.2 c (List.mem_of_mem_take member)
  · exact digits.2 c (List.mem_of_mem_drop member)
  · rintro ⟨d, others, leading⟩
    refine not_leadingZero_toDigits coefficient ⟨d, others ++ (Nat.toDigits 10 coefficient).drop point, ?_⟩
    calc Nat.toDigits 10 coefficient
        = (Nat.toDigits 10 coefficient).take point ++ (Nat.toDigits 10 coefficient).drop point :=
          (List.take_append_drop ..).symm
      _ = _ := by rw [leading]; rfl
  · rw [toBinary64_ofDigits, List.take_append_drop, value_toDigits, right]

/-- The point stands in front of the digits, with zeros between. -/
theorem shows_below {coefficient zeros places : Nat}
    (length : (Nat.toDigits 10 coefficient).length + zeros = places) :
    Shows ('0' :: '.' :: (List.replicate zeros '0' ++ Nat.toDigits 10 coefficient))
      ⟨coefficient, -(places : Int)⟩ := by
  have digits := digits_toDigits coefficient
  have some : List.replicate zeros '0' ++ Nat.toDigits 10 coefficient ≠ [] :=
    List.append_ne_nil_of_right_ne_nil _ digits.1
  have zero : Digits ['0'] := ⟨List.cons_ne_nil _ _, List.forall_mem_singleton.mpr rfl⟩
  refine ⟨['0'], _, .decimal zero ⟨some, fun c member => ?_⟩, ?_, fun negative => ?_⟩
  · rcases List.mem_append.mp member with zero | digit
    · exact isDigit_of_mem_zeros zero
    · exact digits.2 c digit
  · rintro ⟨d, others, leading⟩
    cases leading
  · have right : (List.replicate zeros '0' ++ Nat.toDigits 10 coefficient).length = places := by
      rw [List.length_append, List.length_replicate]
      omega
    have value :
        Nat.ofDigitChars 10 (['0'] ++ (List.replicate zeros '0' ++ Nat.toDigits 10 coefficient)) 0 =
        coefficient := by
      show Nat.ofDigitChars 10 (List.replicate (zeros + 1) '0' ++ Nat.toDigits 10 coefficient) 0 =
        coefficient
      rw [Nat.ofDigitChars_append, Nat.ofDigitChars_replicate_zero, Nat.mul_zero, value_toDigits]
    rw [toBinary64_ofDigits, value, right]

/-- Without an exponent, trimmed digits are a numeral of the same value. -/
theorem shows_positionalText (d : Decimal) (trimmed : d.coefficient = 0 → d.exponent = 0) :
    Shows (d.positionalText []) d := by
  obtain ⟨coefficient, exponent⟩ := d
  rw [positionalText]
  dsimp only at trimmed ⊢
  by_cases whole : 0 ≤ exponent
  · obtain ⟨places, rfl⟩ := Int.eq_ofNat_of_zero_le whole
    rw [if_pos whole, List.append_nil, Int.toNat_natCast]
    exact shows_whole fun zero => Int.ofNat_eq_zero.mp (trimmed zero)
  · obtain ⟨places, rfl⟩ : ∃ places : Nat, exponent = -(places : Int) := ⟨(-exponent).toNat, by omega⟩
    rw [if_neg whole]
    by_cases among : 0 < ((Nat.toDigits 10 coefficient).length : Int) + -(places : Int)
    · rw [if_pos among]
      exact shows_among (by omega) (by omega) (by omega)
    · rw [if_neg among]
      exact shows_below (by omega)

end Decimal

namespace Binary64

open Lexical

/-- A finite number without a sign is shown as a numeral that stands for it. -/
theorem numeral_chars {units : Nat} (fits : Fits units) :
    ∃ whole decimals, Numeral (chars (.finite false units fits) .plain) whole decimals ∧
      ¬ LeadingZero whole ∧
      (Decimal.ofDigits whole decimals).toBinary64 false = .finite false units fits := by
  obtain ⟨whole, decimals, numeral, noZero, same⟩ :=
    Decimal.shows_positionalText (Decimal.shortest units) fun zero => Decimal.exponent_trim zero
  exact ⟨whole, decimals, numeral, noZero, (same false).trans (Decimal.toBinary64_shortest fits)⟩

end Binary64

end LoxFrontEnd
