import OneUnknown.Rational.Rounding
import OneUnknown.Solution.Value
import OneUnknown.Proofs.Meaning
import Mathlib.Algebra.Order.Archimedean.Basic
import Mathlib.Tactic.Linarith
/-!
# Rounding

What is left of a value after rounding has a mantissa of exactly so many digits, so rounding it
again changes nothing.  That is so as long as the number of digits fits into a signed machine word.

* `Rational.decimalExponent_spec`: the exponent of the leading digit;
* `Rational.roundMagnitude_spec`: the mantissa of a rounded value;
* `Rational.rounded_rounded` and `Rational.rounded_neg`: rounding twice, and with the other sign;
* `Value.recorded_recorded`: a recorded value is recorded as it is.
-/

namespace OneUnknown

namespace Rational

/-! ## Exponents -/

theorem tenPower_eq (exponent : Int) : tenPower exponent = (10 : Rat) ^ exponent := by
  rw [tenPower]
  split
  · rename_i h
    rw [← zpow_natCast, ← zpow_neg, show -(exponent.natAbs : Int) = exponent by omega]
  · rename_i h
    rw [← zpow_natCast, show (exponent.natAbs : Int) = exponent by omega]

theorem lt_ten_pow_digitCount (n : Nat) : n < 10 ^ digitCount n :=
  (Nat.length_toDigits_le_iff (by decide) Nat.length_toDigits_pos).1 le_rfl

theorem ten_pow_digitCount_le {n : Nat} (h : 0 < n) : 10 ^ (digitCount n - 1) ≤ n := by
  rcases Nat.eq_zero_or_pos (digitCount n - 1) with hzero | hpos
  · rw [hzero]
    exact h
  · by_contra hlt
    have := (Nat.length_toDigits_le_iff (b := 10) (by decide) hpos).2 (not_le.1 hlt)
    have hcount : digitCount n ≤ digitCount n - 1 := this
    omega

/-- A positive natural number between two powers of ten. -/
theorem digitCount_spec {n : Nat} (h : 0 < n) :
    (10 : Rat) ^ ((digitCount n : Int) - 1) ≤ n ∧ (n : Rat) < (10 : Rat) ^ (digitCount n : Int) := by
  have hcount : 0 < digitCount n := Nat.length_toDigits_pos
  constructor
  · rw [show (digitCount n : Int) - 1 = ((digitCount n - 1 : Nat) : Int) by omega, zpow_natCast]
    exact_mod_cast ten_pow_digitCount_le h
  · rw [zpow_natCast]
    exact_mod_cast lt_ten_pow_digitCount n

/-- The leading digit of a positive value stands at its decimal exponent. -/
theorem decimalExponent_spec {value : Rat} (h : 0 < value) :
    (10 : Rat) ^ decimalExponent value ≤ value ∧
      value < (10 : Rat) ^ (decimalExponent value + 1) := by
  have hten : (10 : Rat) ≠ 0 := by norm_num
  have hnum : 0 < value.num.natAbs := Int.natAbs_pos.2 (Rat.num_pos.2 h).ne'
  obtain ⟨hnum₁, hnum₂⟩ := digitCount_spec hnum
  obtain ⟨hden₁, hden₂⟩ := digitCount_spec value.den_pos
  have hden : (0 : Rat) < value.den := Nat.cast_pos.2 value.den_pos
  have hvalue : value = (value.num.natAbs : Rat) / (value.den : Rat) := by
    conv_lhs => rw [← Rat.num_div_den value]
    rw [← Int.cast_natCast value.num.natAbs, Int.natAbs_of_nonneg (Rat.num_pos.2 h).le]
  set a : Int := (digitCount value.num.natAbs : Int) with ha
  set b : Int := (digitCount value.den : Int) with hb
  have hbelow : (10 : Rat) ^ (a - b - 1) ≤ value := by
    rw [hvalue, le_div_iff₀ hden]
    calc (10 : Rat) ^ (a - b - 1) * value.den
        ≤ (10 : Rat) ^ (a - b - 1) * (10 : Rat) ^ b :=
          mul_le_mul_of_nonneg_left hden₂.le (zpow_nonneg (by norm_num) _)
      _ = (10 : Rat) ^ (a - 1) := by rw [← zpow_add₀ hten]; congr 1; omega
      _ ≤ value.num.natAbs := hnum₁
  have habove : value < (10 : Rat) ^ (a - b + 1) := by
    rw [hvalue, div_lt_iff₀ hden]
    calc (value.num.natAbs : Rat) < (10 : Rat) ^ a := hnum₂
      _ = (10 : Rat) ^ (a - b + 1) * (10 : Rat) ^ (b - 1) := by
        rw [← zpow_add₀ hten]; congr 1; omega
      _ ≤ (10 : Rat) ^ (a - b + 1) * value.den :=
          mul_le_mul_of_nonneg_left hden₁ (zpow_nonneg (by norm_num) _)
  rw [decimalExponent]
  simp only [tenPower_eq, ← ha, ← hb]
  split
  · rename_i hle
    exact ⟨hle, habove⟩
  · rename_i hlt
    exact ⟨hbelow, by rw [sub_add_cancel]; exact not_le.1 hlt⟩

theorem decimalExponent_eq {value : Rat} {exponent : Int} (hbelow : (10 : Rat) ^ exponent ≤ value)
    (habove : value < (10 : Rat) ^ (exponent + 1)) : decimalExponent value = exponent := by
  obtain ⟨hbelow', habove'⟩ :=
    decimalExponent_spec (lt_of_lt_of_le (zpow_pos (by norm_num) _) hbelow)
  have hone : (1 : Rat) < 10 := by norm_num
  have h₁ := (zpow_lt_zpow_iff_right₀ hone).1 (hbelow.trans_lt habove')
  have h₂ := (zpow_lt_zpow_iff_right₀ hone).1 (hbelow'.trans_lt habove)
  omega

/-! ## Mantissas -/

@[simp] theorem roundHalfEven_intCast (m : Int) : roundHalfEven (m : Rat) = m := by
  simp [roundHalfEven]

theorem le_roundHalfEven {value : Rat} {m : Int} (h : (m : Rat) ≤ value) :
    m ≤ roundHalfEven value := by
  have hfloor := Rat.le_floor_iff.2 h
  rw [roundHalfEven]
  split <;> omega

theorem roundHalfEven_le {value : Rat} {m : Int} (h : value < m) : roundHalfEven value ≤ m := by
  have hfloor := Rat.floor_lt_iff.2 h
  rw [roundHalfEven]
  split <;> omega

/-- Rounding does not take away more than half of a unit. -/
theorem le_roundHalfEven_add_half (value : Rat) : value ≤ roundHalfEven value + 1 / 2 := by
  have hlt := Rat.lt_floor_add_one value
  push_cast at hlt
  rw [roundHalfEven]
  split
  · push_cast
    linarith
  · rename_i h
    have := not_lt.1 (not_or.1 h).1
    linarith

/-- The mantissa of a positive value before a carry is shifted into the exponent. -/
theorem mantissa_spec {value : Rat} (h : 0 < value) (digits : Nat) (hdigits : 0 < digits) :
    (10 : Rat) ^ (digits - 1) ≤
        value / tenPower (decimalExponent value - ((digits : Int) - 1)) ∧
      value / tenPower (decimalExponent value - ((digits : Int) - 1)) < (10 : Rat) ^ digits := by
  have hten : (10 : Rat) ≠ 0 := by norm_num
  obtain ⟨hbelow, habove⟩ := decimalExponent_spec h
  have hpos : (0 : Rat) < (10 : Rat) ^ (decimalExponent value - ((digits : Int) - 1)) :=
    zpow_pos (by norm_num) _
  rw [tenPower_eq, le_div_iff₀ hpos, div_lt_iff₀ hpos, ← zpow_natCast, ← zpow_natCast,
    ← zpow_add₀ hten, ← zpow_add₀ hten]
  constructor
  · rwa [show ((digits - 1 : Nat) : Int) + (decimalExponent value - ((digits : Int) - 1)) =
      decimalExponent value by omega]
  · rwa [show (digits : Int) + (decimalExponent value - ((digits : Int) - 1)) =
      decimalExponent value + 1 by omega]

theorem digitWord_of_lt {digits : Nat} (hword : digits < 2 ^ 63) : digitWord digits = digits := by
  have hsize : UInt64.size = 2 ^ 64 := rfl
  exact Int.bmod_eq_of_le_mul_two (by omega) (by omega)

theorem digitWord_neg {digits : Nat} (hword : 2 ^ 63 ≤ digits) (hsize : digits < 2 ^ 64) :
    digitWord digits < 0 := by
  unfold digitWord Int.bmod UInt64.size
  dsimp only
  split <;> omega

/-- Rounding to a number of digits that fits into a machine word. -/
theorem roundMagnitude_of_lt {digits : Nat} (hword : digits < 2 ^ 63) (value : Rat) :
    roundMagnitude value digits =
      let exponent := decimalExponent value - ((digits : Int) - 1)
      let mantissa := roundHalfEven (value / tenPower exponent)
      if mantissa = 10 ^ digits then ⟨mantissa / 10, exponent + 1⟩ else ⟨mantissa, exponent⟩ := by
  have hnum : (tenPower digits).num = 10 ^ digits := by
    rw [tenPower_eq, zpow_natCast, Rat.num_pow]
    rfl
  rw [roundMagnitude, digitWord_of_lt hword, hnum]

/-- The mantissa of a rounded value has exactly so many digits, and a carry does not change the
value. -/
theorem roundMagnitude_spec {value : Rat} (h : 0 < value) (digits : Nat) (hdigits : 0 < digits)
    (hword : digits < 2 ^ 63) :
    (10 : Int) ^ (digits - 1) ≤ (roundMagnitude value digits).mantissa ∧
      (roundMagnitude value digits).mantissa < (10 : Int) ^ digits ∧
      (roundMagnitude value digits).value =
        roundHalfEven (value / tenPower (decimalExponent value - ((digits : Int) - 1))) *
          tenPower (decimalExponent value - ((digits : Int) - 1)) := by
  obtain ⟨hbelow, habove⟩ := mantissa_spec h digits hdigits
  have h₁ := le_roundHalfEven (m := 10 ^ (digits - 1)) (by push_cast; exact hbelow)
  have h₂ := roundHalfEven_le (m := 10 ^ digits) (by push_cast; exact habove)
  have hpow : (10 : Int) ^ digits = 10 * 10 ^ (digits - 1) := by
    rw [← pow_succ', Nat.sub_add_cancel hdigits]
  have hpos : (0 : Int) < 10 ^ (digits - 1) := by positivity
  rw [roundMagnitude_of_lt hword]
  dsimp only
  split
  · rename_i hcarry
    rw [hcarry, hpow, Int.mul_ediv_cancel_left _ (by decide)]
    refine ⟨le_rfl, by dsimp only; omega, ?_⟩
    rw [Scaled.value, tenPower_eq, tenPower_eq, zpow_add_one₀ (by norm_num)]
    push_cast
    ring
  · rename_i hcarry
    exact ⟨h₁, lt_of_le_of_ne h₂ hcarry, rfl⟩

/-- A value that is written with so many digits is rounded to itself. -/
theorem roundMagnitude_of_digits {mantissa exponent : Int} {digits : Nat} (hdigits : 0 < digits)
    (hword : digits < 2 ^ 63) (hbelow : (10 : Int) ^ (digits - 1) ≤ mantissa)
    (habove : mantissa < (10 : Int) ^ digits) :
    roundMagnitude ((mantissa : Rat) * tenPower exponent) digits = ⟨mantissa, exponent⟩ := by
  have hten : (10 : Rat) ≠ 0 := by norm_num
  have hpos : (0 : Rat) < (10 : Rat) ^ exponent := zpow_pos (by norm_num) _
  have hexponent : decimalExponent ((mantissa : Rat) * tenPower exponent) =
      exponent + ((digits : Int) - 1) := by
    rw [tenPower_eq]
    refine decimalExponent_eq ?_ ?_
    · rw [add_comm, zpow_add₀ hten, show (digits : Int) - 1 = ((digits - 1 : Nat) : Int) by omega,
        zpow_natCast]
      exact mul_le_mul_of_nonneg_right (by exact_mod_cast hbelow) hpos.le
    · rw [show exponent + ((digits : Int) - 1) + 1 = (digits : Int) + exponent by omega,
        zpow_add₀ hten, zpow_natCast]
      exact mul_lt_mul_of_pos_right (by exact_mod_cast habove) hpos
  rw [roundMagnitude_of_lt hword, hexponent, add_sub_cancel_right]
  dsimp only
  rw [tenPower_eq, mul_div_cancel_right₀ _ hpos.ne', roundHalfEven_intCast, if_neg habove.ne]

/-- Nothing is rounded to the other side of zero, however many digits are kept. -/
theorem mantissa_roundMagnitude_nonneg {value : Rat} (h : 0 < value) (digits : Nat) :
    0 ≤ (roundMagnitude value digits).mantissa := by
  have hpower : (0 : Rat) ≤ tenPower (decimalExponent value - (digitWord digits - 1)) := by
    rw [tenPower_eq]
    exact zpow_nonneg (by norm_num) _
  have hmantissa := le_roundHalfEven (m := 0) (by simpa using div_nonneg h.le hpower)
  rw [roundMagnitude]
  split
  · exact Int.ediv_nonneg hmantissa (by decide)
  · exact hmantissa

/-! ## Rounded values -/

@[simp] theorem rounded_zero : rounded 0 = 0 := by
  simp [rounded, roundSignificant, Scaled.value]

theorem rounded_of_pos {value : Rat} (h : 0 < value) :
    rounded value = (roundMagnitude value significantDigits).value := by
  rw [rounded, roundSignificant, if_neg h.ne', if_neg h.not_gt, magnitude_eq_abs, abs_of_pos h]

@[simp] theorem rounded_neg (value : Rat) : rounded (-value) = -rounded value := by
  have hpos {value : Rat} (h : 0 < value) : rounded (-value) = -rounded value := by
    rw [rounded_of_pos h, rounded, roundSignificant, if_neg (neg_ne_zero.2 h.ne'),
      if_pos (neg_lt_zero.2 h), magnitude_eq_abs, abs_neg, abs_of_pos h, Scaled.value, Scaled.value]
    push_cast
    rw [neg_mul]
  rcases lt_trichotomy value 0 with h | rfl | h
  · rw [← neg_neg (rounded (-value)), ← hpos (neg_pos.2 h), neg_neg]
  · simp
  · exact hpos h

/-- Rounding makes a positive value smaller by half of it at most. -/
theorem le_two_mul_rounded {value : Rat} (h : 0 < value) : value ≤ 2 * rounded value := by
  have hpos : (0 : Rat) < tenPower (decimalExponent value - ((significantDigits : Int) - 1)) := by
    rw [tenPower_eq]
    exact zpow_pos (by norm_num) _
  obtain ⟨hbelow, -⟩ := mantissa_spec h significantDigits (by decide)
  obtain ⟨-, -, hvalue⟩ := roundMagnitude_spec h significantDigits (by decide) (by decide)
  have hhalf := le_roundHalfEven_add_half
    (value / tenPower (decimalExponent value - ((significantDigits : Int) - 1)))
  have hone : (1 : Rat) ≤ (10 : Rat) ^ (significantDigits - 1) := one_le_pow₀ (by norm_num)
  rw [rounded_of_pos h, hvalue, ← mul_assoc, ← div_le_iff₀ hpos]
  linarith

theorem rounded_pos {value : Rat} (h : 0 < value) : 0 < rounded value := by
  linarith [le_two_mul_rounded h]

/-- Rounding twice is rounding once. -/
@[simp] theorem rounded_rounded (value : Rat) : rounded (rounded value) = rounded value := by
  have hpos {value : Rat} (h : 0 < value) : rounded (rounded value) = rounded value := by
    obtain ⟨hbelow, habove, -⟩ := roundMagnitude_spec h significantDigits (by decide) (by decide)
    have hrounded := rounded_pos h
    rw [rounded_of_pos hrounded, rounded_of_pos h]
    exact congrArg Scaled.value (roundMagnitude_of_digits (by decide) (by decide) hbelow habove)
  rcases lt_trichotomy value 0 with h | rfl | h
  · rw [← neg_inj, ← rounded_neg, ← rounded_neg, hpos (neg_pos.2 h)]
  · simp
  · exact hpos h

end Rational

/-! ## Recorded values -/

theorem Number.rounded_ofRat (value : Rat) :
    (Number.ofRat value).rounded = Number.ofRat (Rational.rounded value) := by
  rw [Number.rounded, Number.value_ofRat]

@[simp] theorem Number.rounded_rounded (n : Number) : n.rounded.rounded = n.rounded := by
  rw [Number.rounded, Number.rounded, Number.value_ofRat, Rational.rounded_rounded]

@[simp] theorem Range.rounded_rounded (r : Range) : r.rounded.rounded = r.rounded := by
  simp [Range.rounded, Function.comp_def]

/-- A recorded value is recorded as it is. -/
@[simp] theorem Value.recorded_recorded (value : Value) : value.recorded.recorded = value.recorded := by
  cases value <;> simp [Value.recorded]

end OneUnknown
