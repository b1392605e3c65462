import OneUnknown.Equation.Sides
import OneUnknown.Evaluation
import OneUnknown.Expression.Summands
import OneUnknown.Rational.Divisors
import OneUnknown.Trace
/-!
# Dividing by a common factor

A sum is divided by dividing each of its summands, and a product by dividing one factor: the
first one that divides evenly, or else the first one.

* `Sequence.summandsWith`: the summands of a sequence whose nodes carry a second component;
* `Sequence.divisors`: the numbers that divide every summand of a sequence;
* `Node.dividesEvenly`: whether a term can be divided without leaving the integers;
* `Sequence.dividedBy`: the quotient of a sequence;
* `Sides.cancelled`: an equation without the largest common factor of its two sides.

Divisors and quotients go down into parentheses and numerators.
-/

namespace OneUnknown

/-- The summands of a sequence whose nodes carry a second component each. -/
def Sequence.summandsWith (nodes : List (Node × α)) : List (List (Node × α)) :=
  (nodes.splitOnP fun node => node.1.isOperator .add).filter fun summand => !summand.isEmpty

/-! ## Divisors -/

/-- What divides a product: what divides one of its factors. -/
def productDivisors (factors : List (Node × Divisors)) : Divisors :=
  (factors.filter fun factor => factor.1.isTerm).foldl
    (fun found factor => found.pooled factor.2) .onlyOne

/-- What divides a sum: what divides all of its summands. -/
def sumDivisors (nodes : List (Node × Divisors)) : Divisors :=
  match (Sequence.summandsWith nodes).map productDivisors with
  | [] => .onlyOne
  | first :: rest => rest.foldl Divisors.shared first

mutual
/-- The divisors of a term, unless the search for them overflows.  A power is divisible by what
divides its base, if the exponent is a positive integer. -/
def Node.divisors (limit : Nat) : Node → Option Divisors
  | .group v n p =>
    if v.isSome || p.isEmpty || (positiveIntegerPower? p).isSome then
      Rational.wordDivisors n.value limit
    else some .onlyOne
  | .paren b p _ =>
    if p.isEmpty || (positiveIntegerPower? p).isSome then
      (Sequence.factorDivisors limit b).map sumDivisors
    else some .onlyOne
  | .fraction t _ => (Sequence.factorDivisors limit t).map sumDivisors
  | .operator _ | .relation _ => some .onlyOne

/-- The nodes of a sequence with their divisors. -/
def Sequence.factorDivisors (limit : Nat) : List Node → Option (List (Node × Divisors))
  | [] => some []
  | n :: ns => do
    let found ← n.divisors limit
    let rest ← Sequence.factorDivisors limit ns
    return (n, found) :: rest
end

/-- The numbers that divide every summand of a sequence, unless the search for them overflows.
Coefficients from `limit` on are not searched. -/
def Sequence.divisors (limit : Nat) (nodes : List Node) : Option Divisors :=
  (Sequence.factorDivisors limit nodes).map sumDivisors

/-! ## Even division -/

/-- Whether every summand has a factor that divides evenly. -/
def sumDividesEvenly (nodes : List (Node × Bool)) : Bool :=
  (Sequence.summandsWith nodes).all fun summand => summand.any Prod.snd

mutual
/-- Whether the coefficient of a group, or one factor of every summand of a parenthesis or a
numerator, is a multiple of the divisor. -/
def Node.dividesEvenly (divisor : Rat) : Node → Bool
  | .group _ n _ => (n.value / divisor).den = 1
  | .paren b _ _ => sumDividesEvenly (Sequence.evenFactors divisor b)
  | .fraction t _ => sumDividesEvenly (Sequence.evenFactors divisor t)
  | .operator _ | .relation _ => false

/-- The nodes of a sequence, each with whether it divides evenly. -/
def Sequence.evenFactors (divisor : Rat) : List Node → List (Node × Bool)
  | [] => []
  | n :: ns => (n, n.dividesEvenly divisor) :: Sequence.evenFactors divisor ns
end

/-! ## Quotients -/

/-- The exponent that is left of a power, as a sequence. -/
def remainingPower (exponent : Nat) : List Node :=
  if exponent = 1 then [] else [Node.constant (exponent : Rat)]

/-- A term that cannot be divided itself: its value is, or it is multiplied by the reciprocal. -/
def scaledQuotient (divisor : Rat) (node : Node) : List Node :=
  match node.asGroup?.map Group.value with
  | some (.ok value) => [Node.constant (value / divisor)]
  | _ => [Node.constant divisor⁻¹, .operator .multiply, node]

/-- The quotient of a number with a power: `b ^ n / d` is `(b / d) * b ^ (n - 1)`. -/
def powerQuotient (divisor : Rat) (n : Number) (power : List Node) : List Node :=
  match positiveIntegerPower? power with
  | none => scaledQuotient divisor (.group none n power)
  | some 1 => [Node.constant (n.value / divisor)]
  | some exponent =>
    let base := Rational.magnitude n.value
    let quotient := base / divisor
    let remaining := Node.group none (Number.ofRat base) (remainingPower (exponent - 1))
    let divided :=
      if quotient = 1 then [remaining]
      else [Node.constant quotient, .operator .multiply, remaining]
    if n.negative then Sequence.negatedSummand divided else divided

/-- The quotient of a parenthesis whose content has the quotient `divided`: `(a) ^ n / d` is
`(a / d) * (a) ^ (n - 1)`. -/
def parenQuotient (divisor : Rat) (divided body power : List Node) (negative : Bool) : List Node :=
  let exponent := if power.isEmpty then some 1 else positiveIntegerPower? power
  match exponent with
  | none => scaledQuotient divisor (.paren body power negative)
  | some 1 => [.paren divided [] negative]
  | some exponent =>
    let quotient := Sequence.asFactor divided
    let remaining :=
      if exponent = 2 then Sequence.asFactor body
      else .paren body (remainingPower (exponent - 1)) false
    [if negative then quotient.negated else quotient, .operator .multiply, remaining]

/-- The first node with a property, replaced by the sequence it carries. -/
def replaceFirst? (property : Node → Bool) : List (Node × List Node) → Option (List Node)
  | [] => none
  | (node, quotient) :: rest =>
    if property node then some (quotient ++ rest.map Prod.fst)
    else (replaceFirst? property rest).map fun replaced => node :: replaced

/-- The quotient of a product whose factors carry their own quotients. -/
def productQuotient (divisor : Rat) (factors : List (Node × List Node)) : List Node :=
  match replaceFirst? (fun node => node.isTerm && node.dividesEvenly divisor) factors with
  | some replaced => replaced
  | none =>
    match replaceFirst? Node.isTerm factors with
    | some replaced => replaced
    | none => factors.map Prod.fst

/-- The quotient of a sum whose factors carry their own quotients. -/
def sumQuotient (divisor : Rat) (nodes : List (Node × List Node)) : List Node :=
  Sequence.join ((Sequence.summandsWith nodes).map (productQuotient divisor))

mutual
/-- The quotient of a term, as factors of a product. -/
def Node.quotient (divisor : Rat) : Node → List Node
  | .group v n p =>
    if v.isSome || p.isEmpty then [.group v (Number.ofRat (n.value / divisor)) p]
    else powerQuotient divisor n p
  | .paren b p negative =>
    parenQuotient divisor (sumQuotient divisor (Sequence.quotients divisor b)) b p negative
  | .fraction t b => [.fraction (sumQuotient divisor (Sequence.quotients divisor t)) b]
  | .operator op => [.operator op]
  | .relation r => [.relation r]

/-- The nodes of a sequence with their quotients. -/
def Sequence.quotients (divisor : Rat) : List Node → List (Node × List Node)
  | [] => []
  | n :: ns => (n, n.quotient divisor) :: Sequence.quotients divisor ns
end

/-- The sequence with every summand divided. -/
def Sequence.dividedBy (divisor : Rat) (nodes : List Node) : List Node :=
  sumQuotient divisor (Sequence.quotients divisor nodes)

/-! ## Common factors -/

/-- Divide both sides by the largest integer that divides all of their summands.  Coefficients
from `limit` on are not searched, and then nothing is cancelled. -/
def Sides.cancelled (limit : Nat) (s : Sides) : Except Halt Sides := do
  let left ← searched (Sequence.divisors limit s.left)
  let right ← searched (Sequence.divisors limit s.right)
  let common := (left.shared right).greatest
  if common ≤ 1 then return s
  else
    return ⟨Sequence.dividedBy (common : Rat) s.left, s.relation,
      Sequence.dividedBy (common : Rat) s.right⟩

end OneUnknown
