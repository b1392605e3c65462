import OneUnknown.Rational.Rounding
/-!
# Decimal text of rationals

Two ways to write a value in decimal digits.

* `Rational.plain` is how a number is written inside an expression: positional, exact when the
  decimal expansion ends, and otherwise rounded to `significantDigits` digits.
* `Rational.scientific` is how a result is shown: rounded to a given number of digits, without
  fractional trailing zeros, and with an exponent (`1.6E+15`) when the digits do not reach the
  units place or the value is very small.

Texts are lists of characters, so that what is read can be compared with what is written.
-/

namespace OneUnknown

/-- Decimal digits with the exponent of the last one: `digits * 10 ^ exponent`. -/
structure Digits where
  digits : List Char
  exponent : Int
  deriving DecidableEq, Repr

namespace Digits

/-- Drop up to `places` zeros from the front of reversed digits.  Gives the places that are left
and the digits. -/
def dropZeros : (places : Nat) → (reversed : List Char) → Nat × List Char
  | places + 1, '0' :: rest => dropZeros places rest
  | places, reversed => (places, reversed)

/-- Drop trailing zeros that stand after the decimal point. -/
def trimmed (d : Digits) : Digits :=
  let places := (-d.exponent).toNat
  let (left, reversed) := dropZeros places d.digits.reverse
  ⟨reversed.reverse, d.exponent + ((places : Int) - (left : Int))⟩

/-- All digits in place, with zeros filled in up to the decimal point. -/
def positional (d : Digits) : List Char :=
  if 0 ≤ d.exponent then d.digits ++ List.replicate d.exponent.toNat '0'
  else
    let point := (d.digits.length : Int) + d.exponent
    if 0 < point then d.digits.take point.toNat ++ '.' :: d.digits.drop point.toNat
    else '0' :: '.' :: (List.replicate (-point).toNat '0' ++ d.digits)

/-- One digit before the decimal point, and the exponent of that digit after `E`. -/
def exponential (digits : List Char) (exponent : Int) : List Char :=
  let power := 'E' :: (if exponent < 0 then '-' else '+') :: Nat.toDigits 10 exponent.natAbs
  match digits with
  | [] => power
  | [first] => first :: power
  | first :: rest => first :: '.' :: (rest ++ power)

end Digits

namespace Rational

/-- The digits of a number, as a text. -/
def natText (n : Nat) : List Char := Nat.toDigits 10 n

/-- A minus sign for negative values. -/
def signText (value : Rat) : List Char := if value < 0 then ['-'] else []

/-- Divide a positive number by `divisor` as often as that is exact.  Gives how often, and what
is left. -/
def divideOut (divisor : Nat) : (fuel n : Nat) → Nat × Nat
  | 0, n => (0, n)
  | fuel + 1, n =>
    if n ≠ 0 ∧ n % divisor = 0 then
      let (times, rest) := divideOut divisor fuel (n / divisor)
      (times + 1, rest)
    else (0, n)

/-- How many decimal places a fraction in lowest terms with this denominator needs, if its
decimal expansion ends. -/
def terminatingPlaces (denominator : Nat) : Option Nat :=
  let (twos, odd) := divideOut 2 (denominator.log2 + 1) denominator
  let (fives, rest) := divideOut 5 (odd.log2 + 1) odd
  if rest = 1 then some (max twos fives) else none

/-- A value that is not negative, in positional digits. -/
def plainMagnitude (value : Rat) : List Char :=
  match terminatingPlaces value.den with
  | some places =>
    let scaled := value.num.natAbs * Nat.pow 10 places / value.den
    Digits.positional ⟨natText scaled, -(places : Int)⟩
  | none =>
    let rounded := roundSignificant value significantDigits
    (Digits.trimmed ⟨natText rounded.mantissa.natAbs, rounded.exponent⟩).positional

/-- A value the way it is written in an expression. -/
def plain (value : Rat) : List Char :=
  signText value ++ plainMagnitude (magnitude value)

/-- The smallest exponent of a leading digit that is still shown positionally. -/
def leastPositional : Int := -6

/-- The digits of a rounded magnitude, positional or with an exponent. -/
def scientificDigits (d : Digits) : List Char :=
  let leading := d.exponent + (d.digits.length : Int) - 1
  if 0 < d.exponent then
    Digits.exponential (d.digits.reverse.dropWhile (· == '0')).reverse leading
  else if leading < leastPositional then Digits.exponential d.trimmed.digits leading
  else d.trimmed.positional

/-- A value the way a result is shown, rounded to `digits` significant digits. -/
def scientific (value : Rat) (digits : Nat) : List Char :=
  let rounded := roundSignificant value digits
  if rounded.mantissa = 0 then ['0']
  else signText value ++ scientificDigits ⟨natText rounded.mantissa.natAbs, rounded.exponent⟩

/-- A value as a quotient of two integers, or as one integer. -/
def quotientText (value : Rat) : List Char :=
  signText value ++ natText value.num.natAbs ++
    (if value.den = 1 then [] else '/' :: natText value.den)

end Rational

/-- The text of an evaluation error. -/
def EvaluationError.message : EvaluationError → String
  | .divisionByZero => "division by zero"
  | .inexactPower base exponent =>
    String.ofList (Rational.plain base) ++ "^" ++ String.ofList (Rational.plain exponent)
      ++ " has no exact value"
  | .exponentTooLarge exponent =>
    "the exponent " ++ String.ofList (Rational.quotientText exponent)
      ++ " is too large to evaluate"

end OneUnknown
