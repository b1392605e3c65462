/-!
# Divisors of a coefficient

Common factors are looked for among the divisors of the coefficients.  `Divisors` is such a
set of divisors, or the reason why there is none to look at: zero is divisible by everything,
and a coefficient beyond a limit is not searched.  `Divisors.shared` and `Divisors.pooled` are
the divisors of a sum and of a product.

The divisors of one value are found by trial division, which squares every candidate.  The passes
do it in machine words of 64 bits, and nothing is found if a square does not fit into one.

* `Rational.divisors`: the divisors of a value, from a search with numbers of any size;
* `Rational.wordDivisors`: the search in machine words, which the passes use.
-/

namespace OneUnknown

/-- The positive divisors that are considered of a coefficient. -/
inductive Divisors where
  /-- Every number divides: the coefficient is zero. -/
  | unconstrained
  /-- Exactly these numbers divide. -/
  | known (found : List Nat)
  /-- The coefficient is too large to be searched. -/
  | tooLarge
  deriving DecidableEq, Repr

namespace Divisors

/-- Only the trivial divisor. -/
def onlyOne : Divisors := .known [1]

/-- What divides both of two summands. -/
def shared : Divisors → Divisors → Divisors
  | .tooLarge, _ | _, .tooLarge => .tooLarge
  | .unconstrained, other | other, .unconstrained => other
  | .known left, .known right => .known (left.filter fun d => right.contains d)

/-- What divides at least one of two factors. -/
def pooled : Divisors → Divisors → Divisors
  | .tooLarge, _ | _, .tooLarge => .tooLarge
  | .unconstrained, _ | _, .unconstrained => .unconstrained
  | .known left, .known right => .known (left ++ right.filter fun d => !left.contains d)

/-- The largest divisor to cancel, `1` where no set of divisors is known. -/
def greatest : Divisors → Nat
  | .known found => found.foldl max 1
  | .unconstrained | .tooLarge => 1

end Divisors

namespace Rational

/-- The divisors of `n` from `candidate` up to the square root of `n`, ascending.  The search
stops by itself at the square root; `fuel` only has to be large enough not to stop it before. -/
def trialDivisors (n : Nat) : (fuel candidate : Nat) → List Nat
  | 0, _ => []
  | fuel + 1, candidate =>
    if candidate * candidate ≤ n then
      if n % candidate = 0 then candidate :: trialDivisors n fuel (candidate + 1)
      else trialDivisors n fuel (candidate + 1)
    else []

/-- The search in machine words: nothing if a square that it needs does not fit into one. -/
def wordTrialDivisors (n : Nat) : (fuel candidate : Nat) → Option (List Nat)
  | 0, _ => some []
  | fuel + 1, candidate =>
    if UInt64.size ≤ candidate * candidate then none
    else if candidate * candidate ≤ n then
      if n % candidate = 0 then
        (wordTrialDivisors n fuel (candidate + 1)).map fun larger => candidate :: larger
      else wordTrialDivisors n fuel (candidate + 1)
    else some []

/-- The divisors up to the square root, ascending, and their cofactors. -/
def withCofactors (n : Nat) (small : List Nat) : List Nat :=
  small ++ ((small.filter fun d => d * d < n).reverse.map fun d => n / d)

/-- All positive divisors of a positive number, ascending. -/
def natDivisors (n : Nat) : List Nat := withCofactors n (trialDivisors n n 1)

/-- The positive divisors of a coefficient whose magnitude is below `limit`.  A value with a
fractional part has the trivial divisor only. -/
def divisors (value : Rat) (limit : Nat) : Divisors :=
  if value = 0 then .unconstrained
  else if value.den ≠ 1 then .onlyOne
  else if limit ≤ value.num.natAbs then .tooLarge
  else .known (natDivisors value.num.natAbs)

/-- The same with a search in machine words, which may find nothing. -/
def wordDivisors (value : Rat) (limit : Nat) : Option Divisors :=
  if value = 0 then some .unconstrained
  else if value.den ≠ 1 then some .onlyOne
  else if limit ≤ value.num.natAbs then some .tooLarge
  else
    (wordTrialDivisors value.num.natAbs value.num.natAbs 1).map fun small =>
      .known (withCofactors value.num.natAbs small)

end Rational

end OneUnknown
