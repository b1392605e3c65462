/-!
# Exact powers and roots

Powers of rationals are computed only when the answer is a rational.  The file holds

* `EvaluationError`: the reasons why a value does not exist or is refused;
* `Rational.floorRoot`: the integer part of an `n`-th root, bit by bit;
* `Rational.exactRoot`: the `n`-th root of a rational, where that is rational;
* `Rational.power` and `Rational.signedPower`: `b ^ (p / q)`, with the sign of `b` inside the
  power or outside of it.
-/

namespace OneUnknown

/-- Why an exact value could not be computed. -/
inductive EvaluationError where
  /-- A quotient by zero, or a negative power of zero. -/
  | divisionByZero
  /-- The base has no rational root of the index that the exponent asks for. -/
  | inexactPower (base exponent : Rat)
  /-- The exponent is beyond `Rational.maxExponent`. -/
  | exponentTooLarge (exponent : Rat)
  deriving DecidableEq, Repr

namespace Rational

/-- The distance of a value from zero. -/
def magnitude (value : Rat) : Rat :=
  if value < 0 then -value else value

/-- The quotient of two values, refused when the divisor is zero. -/
def divide (left right : Rat) : Except EvaluationError Rat :=
  if right = 0 then .error .divisionByZero else .ok (left / right)

/-! ## Integer roots -/

/-- The power of a natural number.  The powers of `0` and `1` are read off, so that a large
exponent costs nothing there. -/
def natPower (base n : Nat) : Nat :=
  if base ≤ 1 then (if n = 0 then 1 else base) else Nat.pow base n

/-- The power of a rational.  The powers of `0`, `1` and `-1` are read off, so that a large
exponent costs nothing there. -/
def wholePower (base : Rat) (n : Nat) : Rat :=
  if base = 0 then (if n = 0 then 1 else 0)
  else if base = 1 then 1
  else if base = -1 then (if n % 2 = 0 then 1 else -1)
  else base ^ n

/-- Decide the lowest `k` bits of the root, from the highest of them down.  With
`root ^ n ≤ value < (root + 2 ^ k) ^ n` before, the answer `r` has `r ^ n ≤ value < (r + 1) ^ n`. -/
def rootBits (value n : Nat) : (k root : Nat) → Nat
  | 0, root => root
  | k + 1, root =>
    let candidate := root + Nat.pow 2 k
    if natPower candidate n ≤ value then rootBits value n k candidate
    else rootBits value n k root

/-- The largest natural number whose `n`-th power is at most `value`. -/
def floorRoot (value n : Nat) : Nat :=
  rootBits value n (value.log2 / n + 1) 0

/-- The `n`-th root of a natural number, where that is a natural number. -/
def exactNatRoot (value n : Nat) : Option Nat :=
  let root := floorRoot value n
  if natPower root n = value then some root else none

/-- The real `n`-th root of `value`, where there is one and it is rational.  Of two even roots it
is the one that is not negative. -/
def exactRoot (value : Rat) (n : Nat) : Option Rat :=
  if n = 0 ∨ (value < 0 ∧ n % 2 = 0) then none
  else do
    let top ← exactNatRoot value.num.natAbs n
    let bottom ← exactNatRoot value.den n
    let root := (top : Rat) / (bottom : Rat)
    some (if value < 0 then -root else root)

/-! ## Powers -/

/-- The largest exponent, and the largest index of a root, that is evaluated. -/
def maxExponent : Nat := 10000

/-- `base` raised to a whole exponent. -/
def integerPower (base : Rat) (exponent : Int) : Except EvaluationError Rat :=
  if maxExponent < exponent.natAbs then .error (.exponentTooLarge (exponent : Rat))
  else if exponent < 0 then
    if base = 0 then .error .divisionByZero else .ok (base⁻¹ ^ exponent.natAbs)
  else .ok (base ^ exponent.natAbs)

/-- `base` raised to `exponent`.  A whole exponent always has an exact answer; for `p / q` the
base needs an exact `q`-th root. -/
def power (base exponent : Rat) : Except EvaluationError Rat :=
  if exponent.den = 1 then integerPower base exponent.num
  else if maxExponent < exponent.den then .error (.exponentTooLarge exponent)
  else
    match exactRoot base exponent.den with
    | some root => integerPower root exponent.num
    | none => .error (.inexactPower base exponent)

/-- The magnitude of `base` raised to `exponent`, with the sign of `base` put back: a bare
`-5 ^ 2` is `-(5 ^ 2)`. -/
def signedPower (base exponent : Rat) : Except EvaluationError Rat := do
  let value ← power (magnitude base) exponent
  return if base < 0 then -value else value

end Rational

end OneUnknown
