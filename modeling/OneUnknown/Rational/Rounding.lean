import OneUnknown.Rational.Power
/-!
# Rounding to significant digits

Values are rounded where they are recorded or shown, never in between.  Rounding is to a number
of significant decimal digits, and a half goes to the even neighbour.

* `Rational.tenPower`: `10 ^ e` for any integer `e`;
* `Rational.decimalExponent`: the `e` with `10 ^ e ≤ q < 10 ^ (e + 1)`;
* `Rational.digitWord`: how many digits are kept, as it is computed with;
* `Rational.roundSignificant`: the rounding, as `mantissa * 10 ^ exponent`;
* `Rational.rounded`: the rounding to `significantDigits` digits, as a value.
-/

namespace OneUnknown

/-- A decimal `mantissa * 10 ^ exponent`. -/
structure Scaled where
  mantissa : Int
  exponent : Int
  deriving DecidableEq, Repr

namespace Rational

/-- How many significant digits a recorded value keeps. -/
def significantDigits : Nat := 12

/-- `10 ^ exponent`, for exponents of either sign. -/
def tenPower (exponent : Int) : Rat :=
  if exponent < 0 then ((10 : Rat) ^ exponent.natAbs)⁻¹ else (10 : Rat) ^ exponent.natAbs

/-- How many decimal digits a number is written with. -/
def digitCount (n : Nat) : Nat := (Nat.toDigits 10 n).length

/-- The exponent of the leading decimal digit of a positive value.  The difference of the digit
counts of numerator and denominator is that exponent or the next one. -/
def decimalExponent (value : Rat) : Int :=
  let estimate := (digitCount value.num.natAbs : Int) - (digitCount value.den : Int)
  if tenPower estimate ≤ value then estimate else estimate - 1

/-- The nearest integer, the even one of two equally near. -/
def roundHalfEven (value : Rat) : Int :=
  let below := value.floor
  let remainder := value - (below : Rat)
  if 1 / 2 < remainder ∨ (remainder = 1 / 2 ∧ below % 2 = 1) then below + 1 else below

/-- A number of digits as a signed machine word of 64 bits, around which large numbers wrap. -/
def digitWord (digits : Nat) : Int := (digits : Int).bmod UInt64.size

/-- Round a positive value to `digits` significant digits.  Rounding up may carry into one more
digit, which is then shifted into the exponent. -/
def roundMagnitude (value : Rat) (digits : Nat) : Scaled :=
  let exponent := decimalExponent value - (digitWord digits - 1)
  let mantissa := roundHalfEven (value / tenPower exponent)
  if mantissa = (tenPower (digitWord digits)).num then ⟨mantissa / 10, exponent + 1⟩
  else ⟨mantissa, exponent⟩

/-- Round a value to `digits` significant digits, keeping its sign. -/
def roundSignificant (value : Rat) (digits : Nat) : Scaled :=
  if value = 0 then ⟨0, 0⟩
  else
    let rounded := roundMagnitude (magnitude value) digits
    if value < 0 then ⟨-rounded.mantissa, rounded.exponent⟩ else rounded

end Rational

/-- The value of a scaled decimal. -/
def Scaled.value (s : Scaled) : Rat :=
  (s.mantissa : Rat) * Rational.tenPower s.exponent

namespace Rational

/-- The value rounded to the number of digits that a recorded value keeps. -/
def rounded (value : Rat) : Rat :=
  (roundSignificant value significantDigits).value

end Rational

end OneUnknown
