import OneUnknown.Proofs.Rounding
import Mathlib.Data.Int.Log
/-!
# The nearest decimal

A rounded value is the nearest multiple of the last place that is kept, and the even multiple where
two are equally near.  A value in a higher decade is rounded to no less than the power of ten
between them, so rounding keeps the order of all values.

* `Rational.IsNearest`: the nearest integer, the even one of two equally near;
* `Rational.isNearest_iff`: it is what a value is rounded to;
* `Rational.roundMagnitude_le_roundMagnitude`: rounding keeps the order, also across decades;
* `Rational.mantissa_roundSignificant_of_neg`: what is left where the number of digits wraps around;
* `Rational.roundSignificant_isNearest`: the result.
-/

namespace OneUnknown

namespace Rational

/-- The integer nearest to a value, and the even one if two are equally near. -/
structure IsNearest (value : Rat) (n : Int) : Prop where
  near : |value - n| ≤ 1 / 2
  even : |value - n| = 1 / 2 → Even n

/-! ## The nearest integer -/

theorem isNearest_roundHalfEven (value : Rat) : IsNearest value (roundHalfEven value) := by
  have hbelow := Rat.floor_le value
  have habove := Rat.lt_floor_add_one value
  push_cast at habove
  rw [roundHalfEven]
  split
  · rename_i hup
    have hle : 1 / 2 ≤ value - (value.floor : Rat) := by
      rcases hup with hlt | ⟨heq, -⟩
      · exact hlt.le
      · exact heq.ge
    have hdistance : |value - ((value.floor + 1 : Int) : Rat)| = value.floor + 1 - value := by
      rw [abs_sub_comm]
      push_cast
      exact abs_of_nonneg (by linarith)
    refine ⟨by linarith, fun htie => ?_⟩
    rcases hup with hlt | ⟨-, hodd⟩
    · linarith
    · exact (Int.odd_iff.2 hodd).add_one
  · rename_i hdown
    obtain ⟨hle, htie⟩ := not_or.1 hdown
    have hdistance : |value - (value.floor : Rat)| = value - value.floor :=
      abs_of_nonneg (by linarith)
    rw [← hdistance] at hle htie
    refine ⟨not_lt.1 hle, fun heq => Int.even_iff.2 ?_⟩
    have hodd : ¬ value.floor % 2 = 1 := fun hodd => htie ⟨heq, hodd⟩
    omega

/-- Two integers that are equally near are neighbours, and only one of them is even. -/
theorem IsNearest.unique {value : Rat} {n m : Int} (hn : IsNearest value n)
    (hm : IsNearest value m) : n = m := by
  have hle {n m : Int} (hn : IsNearest value n) (hm : IsNearest value m) : n ≤ m := by
    by_contra hlt
    have hstep : (m : Rat) + 1 ≤ n := by exact_mod_cast not_le.1 hlt
    obtain ⟨hn₁, -⟩ := abs_le.1 hn.near
    obtain ⟨-, hm₂⟩ := abs_le.1 hm.near
    have hvalue : value - n = -(1 / 2) := by linarith
    have hvalue' : value - m = 1 / 2 := by linarith
    have hn₂ := hn.even (by rw [hvalue]; norm_num)
    have hm₁ := hm.even (by rw [hvalue']; norm_num)
    have hnext : n = m + 1 := by
      have : (n : Rat) = m + 1 := by linarith
      exact_mod_cast this
    rw [hnext, Int.even_add_one] at hn₂
    exact hn₂ hm₁
  exact le_antisymm (hle hn hm) (hle hm hn)

theorem isNearest_iff {value : Rat} {n : Int} : IsNearest value n ↔ n = roundHalfEven value := by
  constructor
  · intro h
    exact h.unique (isNearest_roundHalfEven value)
  · rintro rfl
    exact isNearest_roundHalfEven value

theorem IsNearest.neg {value : Rat} {n : Int} (h : IsNearest value n) :
    IsNearest (-value) (-n) := by
  have hdistance : |-value - ((-n : Int) : Rat)| = |value - n| := by
    rw [← abs_neg]
    push_cast
    congr 1
    ring
  refine ⟨hdistance ▸ h.near, fun heq => ?_⟩
  exact (h.even (hdistance ▸ heq)).neg

@[simp] theorem roundHalfEven_neg (value : Rat) : roundHalfEven (-value) = -roundHalfEven value :=
  (isNearest_iff.1 (isNearest_roundHalfEven value).neg).symm

theorem roundHalfEven_le_roundHalfEven {value larger : Rat} (h : value ≤ larger) :
    roundHalfEven value ≤ roundHalfEven larger := by
  have hfloor : value.floor ≤ larger.floor := Rat.le_floor_iff.2 ((Rat.floor_le value).trans h)
  rcases hfloor.lt_or_eq with hlt | heq
  · calc roundHalfEven value ≤ value.floor + 1 :=
        roundHalfEven_le (by exact_mod_cast Rat.lt_floor_add_one value)
      _ ≤ larger.floor := hlt
      _ ≤ roundHalfEven larger := le_roundHalfEven (Rat.floor_le larger)
  · -- Between the same two integers only what is left above the lower one decides.
    rw [roundHalfEven, roundHalfEven, heq]
    split
    · rename_i hup
      rw [if_pos]
      rcases hup with hlt | ⟨htie, hodd⟩
      · exact .inl (by linarith)
      · rcases h.lt_or_eq with hlt | rfl
        · exact .inl (by linarith)
        · exact .inr ⟨htie, hodd⟩
    · split <;> omega

/-! ## Decades -/

theorem log_eq_decimalExponent {value : Rat} (h : 0 < value) :
    Int.log 10 value = decimalExponent value := by
  refine (decimalExponent_eq ?_ ?_).symm
  · exact_mod_cast Int.zpow_log_le_self (b := 10) (by norm_num) h
  · exact_mod_cast Int.lt_zpow_succ_log_self (b := 10) (by norm_num) value

theorem decimalExponent_le_decimalExponent {value larger : Rat} (hvalue : 0 < value)
    (h : value ≤ larger) : decimalExponent value ≤ decimalExponent larger := by
  rw [← log_eq_decimalExponent hvalue, ← log_eq_decimalExponent (hvalue.trans_le h)]
  exact Int.log_mono_right hvalue h

/-- The exponents of the last place that is kept and of the first one. -/
theorem tenPower_last_mul {digits : Nat} (hdigits : 0 < digits) (exponent : Int) :
    (10 : Rat) ^ (digits - 1) * tenPower (exponent - ((digits : Int) - 1)) = 10 ^ exponent ∧
      (10 : Rat) ^ digits * tenPower (exponent - ((digits : Int) - 1)) = 10 ^ (exponent + 1) := by
  have hten : (10 : Rat) ≠ 0 := by norm_num
  constructor
  · rw [tenPower_eq, ← zpow_natCast, ← zpow_add₀ hten]
    congr 1
    omega
  · rw [tenPower_eq, ← zpow_natCast, ← zpow_add₀ hten]
    congr 1
    omega

/-- A rounded value stays in its decade, or is the power of ten behind it. -/
theorem roundMagnitude_within {value : Rat} (h : 0 < value) {digits : Nat} (hdigits : 0 < digits)
    (hword : digits < 2 ^ 63) :
    (10 : Rat) ^ decimalExponent value ≤ (roundMagnitude value digits).value ∧
      (roundMagnitude value digits).value ≤ 10 ^ (decimalExponent value + 1) := by
  obtain ⟨-, -, hvalue⟩ := roundMagnitude_spec h digits hdigits hword
  obtain ⟨hbelow, habove⟩ := mantissa_spec h digits hdigits
  obtain ⟨hfirst, hnext⟩ := tenPower_last_mul hdigits (decimalExponent value)
  have hpos : (0 : Rat) ≤ tenPower (decimalExponent value - ((digits : Int) - 1)) := by
    rw [tenPower_eq]
    exact zpow_nonneg (by norm_num) _
  have h₁ := le_roundHalfEven (m := 10 ^ (digits - 1)) (by push_cast; exact hbelow)
  have h₂ := roundHalfEven_le (m := 10 ^ digits) (by push_cast; exact habove)
  rw [hvalue, ← hfirst, ← hnext]
  exact ⟨mul_le_mul_of_nonneg_right (by exact_mod_cast h₁) hpos,
    mul_le_mul_of_nonneg_right (by exact_mod_cast h₂) hpos⟩

theorem roundMagnitude_le_roundMagnitude {value larger : Rat} (hvalue : 0 < value)
    (h : value ≤ larger) {digits : Nat} (hdigits : 0 < digits) (hword : digits < 2 ^ 63) :
    (roundMagnitude value digits).value ≤ (roundMagnitude larger digits).value := by
  have hlarger := hvalue.trans_le h
  rcases (decimalExponent_le_decimalExponent hvalue h).lt_or_eq with hlt | heq
  · calc (roundMagnitude value digits).value
        ≤ 10 ^ (decimalExponent value + 1) := (roundMagnitude_within hvalue hdigits hword).2
      _ ≤ 10 ^ decimalExponent larger := zpow_le_zpow_right₀ (by norm_num) hlt
      _ ≤ (roundMagnitude larger digits).value := (roundMagnitude_within hlarger hdigits hword).1
  · have hpos : (0 : Rat) < tenPower (decimalExponent larger - ((digits : Int) - 1)) := by
      rw [tenPower_eq]
      exact zpow_pos (by norm_num) _
    rw [(roundMagnitude_spec hvalue digits hdigits hword).2.2,
      (roundMagnitude_spec hlarger digits hdigits hword).2.2, heq]
    refine mul_le_mul_of_nonneg_right ?_ hpos.le
    exact_mod_cast roundHalfEven_le_roundHalfEven (div_le_div_of_nonneg_right h hpos.le)

/-! ## All values -/

theorem roundSignificant_of_pos {value : Rat} (h : 0 < value) (digits : Nat) :
    roundSignificant value digits = roundMagnitude value digits := by
  rw [roundSignificant, if_neg h.ne', if_neg h.not_gt, magnitude_eq_abs, abs_of_pos h]

theorem roundSignificant_neg_of_pos {value : Rat} (h : 0 < value) (digits : Nat) :
    roundSignificant (-value) digits =
      ⟨-(roundMagnitude value digits).mantissa, (roundMagnitude value digits).exponent⟩ := by
  rw [roundSignificant, if_neg (neg_ne_zero.2 h.ne'), if_pos (neg_lt_zero.2 h), magnitude_eq_abs,
    abs_neg, abs_of_pos h]

theorem rounded_mono : Monotone rounded := by
  have hpos {value larger : Rat} (hvalue : 0 < value) (h : value ≤ larger) :
      rounded value ≤ rounded larger := by
    rw [rounded_of_pos hvalue, rounded_of_pos (hvalue.trans_le h)]
    exact roundMagnitude_le_roundMagnitude hvalue h (by decide) (by decide)
  have hnonneg {value : Rat} (h : 0 ≤ value) : 0 ≤ rounded value := by
    rcases h.lt_or_eq with hlt | rfl
    · exact (rounded_pos hlt).le
    · exact rounded_zero.ge
  intro value larger h
  rcases lt_or_ge 0 value with hvalue | hvalue
  · exact hpos hvalue h
  · rcases lt_or_ge larger 0 with hlarger | hlarger
    · have := hpos (neg_pos.2 hlarger) (neg_le_neg h)
      rw [rounded_neg, rounded_neg] at this
      exact neg_le_neg_iff.1 this
    · have := hnonneg (neg_nonneg.2 hvalue)
      rw [rounded_neg] at this
      exact (neg_nonneg.1 this).trans (hnonneg hlarger)

/-- What a value is rounded to has exactly so many digits and its sign, and is the nearest multiple
of the last place that is kept. -/
theorem roundSignificant_spec {value : Rat} (hvalue : value ≠ 0) {digits : Nat}
    (hdigits : 0 < digits) (hword : digits < 2 ^ 63) :
    10 ^ (digits - 1) ≤ |(roundSignificant value digits).mantissa| ∧
      |(roundSignificant value digits).mantissa| < 10 ^ digits ∧
      (0 < (roundSignificant value digits).mantissa ↔ 0 < value) ∧
      (roundSignificant value digits).value =
        roundHalfEven (value / 10 ^ (Int.log 10 |value| - digits + 1)) *
          10 ^ (Int.log 10 |value| - digits + 1) := by
  have hpos {value : Rat} (h : 0 < value) :
      10 ^ (digits - 1) ≤ (roundMagnitude value digits).mantissa ∧
        (roundMagnitude value digits).mantissa < 10 ^ digits ∧
        (roundMagnitude value digits).value =
          roundHalfEven (value / 10 ^ (Int.log 10 |value| - digits + 1)) *
            10 ^ (Int.log 10 |value| - digits + 1) := by
    obtain ⟨hbelow, habove, hrounded⟩ := roundMagnitude_spec h digits hdigits hword
    refine ⟨hbelow, habove, ?_⟩
    rw [abs_of_pos h]
    rwa [tenPower_eq, ← log_eq_decimalExponent h, ← sub_add] at hrounded
  have hone : (0 : Int) < 10 ^ (digits - 1) := by positivity
  rcases lt_or_gt_of_ne hvalue with hneg | h
  · obtain ⟨magnitude, rfl⟩ : ∃ magnitude, value = -magnitude := ⟨-value, (neg_neg value).symm⟩
    have h := neg_lt_zero.1 hneg
    obtain ⟨hbelow, habove, hrounded⟩ := hpos h
    have hmantissa := hone.trans_le hbelow
    rw [roundSignificant_neg_of_pos h, abs_neg, abs_of_pos hmantissa, abs_neg]
    refine ⟨hbelow, habove, ?_, ?_⟩
    · simp only [Left.neg_pos_iff]
      exact ⟨fun hlt => absurd hlt hmantissa.not_gt, fun hlt => absurd hlt h.not_gt⟩
    · rw [neg_div, roundHalfEven_neg, Int.cast_neg, neg_mul, ← hrounded, Scaled.value,
        Scaled.value, Int.cast_neg, neg_mul]
  · obtain ⟨hbelow, habove, hrounded⟩ := hpos h
    have hmantissa := hone.trans_le hbelow
    rw [roundSignificant_of_pos h, abs_of_pos hmantissa]
    exact ⟨hbelow, habove, ⟨fun _ => h, fun _ => hmantissa⟩, hrounded⟩

/-- Nothing is left of a value where the number of digits is negative. -/
theorem mantissa_roundMagnitude_of_neg {value : Rat} (h : 0 < value) {digits : Nat}
    (hneg : digitWord digits < 0) : (roundMagnitude value digits).mantissa = 0 := by
  have hten : (10 : Rat) ≠ 0 := by norm_num
  set exponent := decimalExponent value - (digitWord digits - 1) with hexponent
  have hpos : (0 : Rat) < tenPower exponent := by
    rw [tenPower_eq]
    exact zpow_pos (by norm_num) _
  have htenth : value / tenPower exponent < 1 / 2 :=
    calc value / tenPower exponent < 10 ^ (-1 : Int) := by
          rw [div_lt_iff₀ hpos, tenPower_eq, ← zpow_add₀ hten]
          refine (decimalExponent_spec h).2.trans_le (zpow_le_zpow_right₀ (by norm_num) ?_)
          omega
      _ < 1 / 2 := by norm_num
  have hzero : roundHalfEven (value / tenPower exponent) = 0 := by
    have hdistance : |value / tenPower exponent - (0 : Int)| = value / tenPower exponent := by
      rw [Int.cast_zero, sub_zero, abs_of_pos (div_pos h hpos)]
    exact (isNearest_iff.1
      ⟨hdistance.trans_le htenth.le, fun htie => absurd (hdistance ▸ htie) htenth.ne⟩).symm
  -- No carry, because a power of ten is not zero.
  have hnum : (0 : Int) ≠ (tenPower (digitWord digits)).num := by
    rw [tenPower_eq]
    exact (Rat.num_pos.2 (zpow_pos (by norm_num) _)).ne
  rw [roundMagnitude, ← hexponent, hzero, if_neg hnum]

theorem mantissa_roundSignificant_of_neg (value : Rat) {digits : Nat}
    (hneg : digitWord digits < 0) : (roundSignificant value digits).mantissa = 0 := by
  rcases lt_trichotomy value 0 with hvalue | rfl | hvalue
  · obtain ⟨magnitude, rfl⟩ : ∃ magnitude, value = -magnitude := ⟨-value, (neg_neg value).symm⟩
    have h := neg_lt_zero.1 hvalue
    rw [roundSignificant_neg_of_pos h, mantissa_roundMagnitude_of_neg h hneg]
    rfl
  · rfl
  · rw [roundSignificant_of_pos hvalue, mantissa_roundMagnitude_of_neg hvalue hneg]

/-- Rounding to so many significant digits takes the nearest multiple of the last place that is
kept, the even one of two, with so many digits and the sign of the value, if the number of digits
fits into a signed machine word; if it wraps around, nothing is left of the value.  Rounding to the
digits that are recorded changes nothing the second time, and keeps signs and order. -/
theorem roundSignificant_isNearest (value : Rat) (digits : Nat) :
    (value ≠ 0 → 1 ≤ digits → digits < 2 ^ 63 →
      ∃ nearest : Int,
        (∀ n, IsNearest (value / 10 ^ (Int.log 10 |value| - digits + 1)) n ↔ n = nearest) ∧
        10 ^ (digits - 1) ≤ |(roundSignificant value digits).mantissa| ∧
        |(roundSignificant value digits).mantissa| < 10 ^ digits ∧
        (0 < (roundSignificant value digits).mantissa ↔ 0 < value) ∧
        ((roundSignificant value digits).mantissa : Rat) *
            10 ^ (roundSignificant value digits).exponent =
          nearest * 10 ^ (Int.log 10 |value| - digits + 1)) ∧
      (2 ^ 63 < digits → digits < 2 ^ 64 → (roundSignificant value digits).mantissa = 0) ∧
      rounded (rounded value) = rounded value ∧ rounded (-value) = -rounded value ∧
      ∀ larger, value ≤ larger → rounded value ≤ rounded larger := by
  refine ⟨fun hvalue hdigits hword => ?_, fun hword hsize => ?_, rounded_rounded value,
    rounded_neg value, fun larger h => rounded_mono h⟩
  · obtain ⟨hbelow, habove, hsign, hrounded⟩ := roundSignificant_spec hvalue hdigits hword
    rw [Scaled.value, tenPower_eq] at hrounded
    exact ⟨_, fun n => isNearest_iff, hbelow, habove, hsign, hrounded⟩
  · exact mantissa_roundSignificant_of_neg value (digitWord_neg hword.le hsize)

/-- A tie whose even neighbour has one digit more. -/
theorem roundSignificant_isNearest_carry :
    (-199 / 2 : Rat) ≠ 0 ∧ 1 ≤ 2 ∧ 2 < 2 ^ 63 ∧ roundSignificant (-199 / 2) 2 = ⟨-10, 1⟩ ∧
      ∃ nearest : Int,
        (∀ n, IsNearest ((-199 / 2) / 10 ^ (Int.log 10 |(-199 / 2 : Rat)| - (2 : Nat) + 1)) n ↔
          n = nearest) ∧
        10 ^ (2 - 1) ≤ |(-10 : Int)| ∧ |(-10 : Int)| < 10 ^ 2 ∧
        (0 < (-10 : Int) ↔ (0 : Rat) < -199 / 2) ∧
        ((-10 : Int) : Rat) * 10 ^ (1 : Int) =
          nearest * 10 ^ (Int.log 10 |(-199 / 2 : Rat)| - (2 : Nat) + 1) := by
  have hrounded : roundSignificant (-199 / 2) 2 = ⟨-10, 1⟩ := by decide +kernel
  have hvalue : (-199 / 2 : Rat) ≠ 0 := by norm_num
  have hnearest :=
    (roundSignificant_isNearest (-199 / 2) 2).1 hvalue (by norm_num) (by norm_num)
  rw [hrounded] at hnearest
  exact ⟨hvalue, by norm_num, by norm_num, hrounded, hnearest⟩

/-- The largest number of digits that there is wraps around to a negative one, and nothing is left
of the value. -/
theorem roundSignificant_wraps :
    ∃ digits, 1 ≤ digits ∧ digits < 2 ^ 64 ∧ roundSignificant 1 digits = ⟨0, 2⟩ ∧
      ¬10 ^ (digits - 1) ≤ |(roundSignificant 1 digits).mantissa| := by
  have hrounded : roundSignificant 1 (2 ^ 64 - 1) = ⟨0, 2⟩ := by decide +kernel
  refine ⟨2 ^ 64 - 1, by norm_num, by norm_num, hrounded, not_le.2 ?_⟩
  rw [hrounded, abs_zero]
  exact pow_pos (by norm_num) _

end Rational

end OneUnknown
