import OneUnknown.Equation.Sides
import OneUnknown.Evaluation
import OneUnknown.Expression.Positions
import OneUnknown.Expression.Summands
import OneUnknown.Solution.Basic
import OneUnknown.Trace
/-!
# Products that are zero

`a · b · … = 0` holds exactly when one of the factors is zero.  Each factor with the unknown
becomes an equation of its own, and what solves one of them solves the product.

* `Sides.zeroProduct?`: the product, if the other side is zero;
* `isFactorable`: whether it can be taken apart;
* `factorEquations`: the equations of its factors;
* `mergeFactors`: their solutions as one.
-/

namespace OneUnknown

/-- Whether a side is the value zero.  A side with a variable is not. -/
def isZeroSide (side : List Node) : Except SolveError Bool :=
  if Sequence.hasVariable side then .ok false
  else do
    let value ← Sequence.evaluate side
    return value = 0

/-- The side opposite of a zero, for an equation. -/
def Sides.zeroProduct? (s : Sides) : Except SolveError (Option (List Node)) :=
  if s.relation ≠ .equal then .ok none
  else do
    if ← isZeroSide s.right then return some s.left
    else if ← isZeroSide s.left then return some s.right
    else return none

/-- Whether a factor is zero exactly when its content is: `(a)^0` and `(a)^-1` are not. -/
def vanishesWithContent : List Node → Bool
  | [.paren _ p _] => p.isEmpty || (positiveIntegerPower? p).isSome
  | _ => true

/-- Whether a side is a product of at least two factors, or the power of a parenthesis, that can be
taken apart. -/
def isFactorable (product : List Node) : Bool :=
  let positions := Positions.ofNodes product
  let powered := positions.powers.length = 1 ∧ positions.parentheses = positions.powers
  positions.onlyMultiplication && !positions.parentheses.isEmpty
    && (1 ≤ (positions.operator .multiply).length || powered)
    && (Sequence.factors product).all vanishesWithContent

/-- The equation that says that a factor is zero. -/
def factorEquation (factor : List Node) : List Node :=
  let content :=
    match factor with
    | [.paren b _ _] => b
    | other => other
  content ++ [.relation .equal, Node.constant 0]

/-- The equations of the factors with a variable. -/
def factorEquations (product : List Node) : List (List Node) :=
  ((Sequence.factors product).filter Sequence.hasVariable).map factorEquation

/-- The values of a solution, each with its unknown. -/
def Solution.entries (s : Solution) : List (Char × Value) :=
  s.bindings.flatMap fun (name, binding) => binding.values.map fun value => (name, value)

/-- Add the values of one factor to what was found before.  Nothing is left if the factor is zero
for every value of the unknown. -/
def addEntries (found : Solution) : List (Char × Value) → Option Solution
  | [] => some found
  | (_, .noSolution) :: rest => addEntries found rest
  | (_, .trueForAll _) :: _ => none
  | (name, value) :: rest => addEntries (found.record name value) rest

/-- Solve the equations of the factors one after the other and merge their solutions. -/
def mergeFactors (solve : List Node → Traced Solution) (unknown : Char) (found : Solution) :
    List (List Node) → Traced Solution
  | [] =>
    pure (if (found.get? unknown).isNone then found.record unknown .noSolution else found)
  | equation :: rest => do
    let solution ← solve equation
    match addEntries found solution.entries with
    | some found => mergeFactors solve unknown found rest
    | none => pure (Solution.only unknown (.trueForAll unknown))

end OneUnknown
