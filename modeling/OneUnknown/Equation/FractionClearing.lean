import OneUnknown.Equation.Quotient
import OneUnknown.Equation.Sides
/-!
# Clearing fractions

One step deals with the first fraction among the factors of the two sides.  Numerator and
denominator are divided by their greatest common divisor; a denominator that is one then
disappears, and otherwise, if there was nothing to cancel, both sides are multiplied by it.

* `FractionSpot`: the summands of a side around its first fraction;
* `signedFraction`, `reduceFraction`: the fraction with a positive denominator, and in lower terms;
* `Sides.withoutFraction`: one step.
-/

namespace OneUnknown

/-- The summands of a side around its first fraction. -/
structure FractionSpot where
  /-- The summands before the one with the fraction. -/
  before : List (List Node)
  /-- The factors before the fraction. -/
  leading : List Node
  top : List Node
  bottom : List Node
  /-- The factors after the fraction. -/
  trailing : List Node
  /-- The summands after the one with the fraction. -/
  after : List (List Node)

namespace FractionSpot

/-- The first fraction of one summand. -/
def inSummand? : List Node → Option FractionSpot
  | [] => none
  | .fraction top bottom :: rest => some ⟨[], [], top, bottom, rest, []⟩
  | node :: rest => (inSummand? rest).map fun spot => { spot with leading := node :: spot.leading }

/-- The first fraction of a side. -/
def inSummands? : List (List Node) → Option FractionSpot
  | [] => none
  | summand :: rest =>
    match inSummand? summand with
    | some spot => some { spot with after := rest }
    | none => (inSummands? rest).map fun spot => { spot with before := summand :: spot.before }

/-- The side with a node in place of the fraction. -/
def fill (spot : FractionSpot) (node : Node) : List (List Node) :=
  spot.before ++ (spot.leading ++ node :: spot.trailing) :: spot.after

end FractionSpot

/-- Multiply a summand by a number. -/
def scaledSummand (factor : Rat) : List Node → List Node
  | [] => []
  | .group v n p :: rest =>
    if v.isSome || p.isEmpty then .group v (Number.ofRat (n.value * factor)) p :: rest
    else Node.constant factor :: .operator .multiply :: .group v n p :: rest
  | first :: rest => Node.constant factor :: .operator .multiply :: first :: rest

/-- The side with a node in place of the fraction, and all other summands multiplied by a
number. -/
def FractionSpot.fillScaled (spot : FractionSpot) (factor : Rat) (node : Node) : List (List Node) :=
  spot.before.map (scaledSummand factor) ++
    (spot.leading ++ node :: spot.trailing) :: spot.after.map (scaledSummand factor)

/-- A fraction after its common divisor has been cancelled; the denominator is positive. -/
structure ReducedFraction where
  numerator : List Node
  denominator : Rat
  /-- Whether anything was cancelled. -/
  cancelled : Bool

/-- Numerator and denominator of a fraction as they are before anything is cancelled: a numerator
without a variable is evaluated, and the denominator becomes positive.  It has to be a number other
than zero. -/
def signedFraction (top bottom : List Node) : Except SolveError (List Node × Rat) := do
  if Sequence.hasVariable bottom then .error .variableDenominator
  else
    let numerator ←
      if Sequence.hasVariable top then pure top
      else do
        let value ← Sequence.evaluate top
        pure [Node.constant value]
    let denominator ← Sequence.evaluate bottom
    if denominator = 0 then .error .divisionByZero
    else if denominator < 0 then
      return (Sequence.negated numerator, Rational.magnitude denominator)
    else return (numerator, denominator)

/-- Cancel the greatest common divisor of numerator and denominator. -/
def reduceFraction (limit : Nat) (top bottom : List Node) : Except Halt ReducedFraction := do
  let (numerator, denominator) ← (signedFraction top bottom).mapError .failed
  let divisors ← searched (Sequence.divisors limit numerator)
  let others ← searched (Rational.wordDivisors denominator limit)
  let common := (divisors.shared others).greatest
  if common ≤ 1 then return ⟨numerator, denominator, false⟩
  else return ⟨Sequence.dividedBy (common : Rat) numerator, denominator / (common : Rat), true⟩

/-- One step on the side with the fraction, and the same on the other side. -/
def FractionSpot.cleared (limit : Nat) (spot : FractionSpot) (other : List (List Node)) :
    Except Halt (List Node × List Node) := do
  let reduced ← reduceFraction limit spot.top spot.bottom
  if reduced.denominator = 1 then
    return (Sequence.join (spot.fill (Sequence.asFactor reduced.numerator)), Sequence.join other)
  else if reduced.cancelled then
    match Node.fraction? reduced.numerator [Node.constant reduced.denominator] with
    | some fraction => return (Sequence.join (spot.fill fraction), Sequence.join other)
    | none => .error (.failed .divisionByZero)
  else
    let numerator := Sequence.asFactor reduced.numerator
    return (Sequence.join (spot.fillScaled reduced.denominator numerator),
      Sequence.join (other.map (scaledSummand reduced.denominator)))

/-- Deal with the first fraction of an equation, the left side first. -/
def Sides.withoutFraction (limit : Nat) (s : Sides) : Except Halt Sides :=
  let left := Sequence.summands s.left
  let right := Sequence.summands s.right
  match FractionSpot.inSummands? left with
  | some spot => do
    let (left, right) ← spot.cleared limit right
    return ⟨left, s.relation, right⟩
  | none =>
    match FractionSpot.inSummands? right with
    | some spot => do
      let (right, left) ← spot.cleared limit left
      return ⟨left, s.relation, right⟩
    | none => .ok s

end OneUnknown
