import OneUnknown.Equation.Sides
import OneUnknown.Evaluation
import OneUnknown.Expression.Sign
import OneUnknown.Solution.Basic
/-!
# Equations that can be solved directly

The equation or inequality `c · x ^ n = k`, with a number on one side and a single group with the
variable on the other, is solved without further rewriting.

* `exactQuotient`: the solution of `c · x = k`, kept as a fraction where possible;
* `rootValue`: a root that is no rational;
* `isolate`: all values of the unknown;
* `Sides.closedForm?`: the solution of an equation, if it has this form.
-/

namespace OneUnknown

/-- `constant / coefficient`.  Where both are integers and the quotient is not, it is kept as a
fraction in lowest terms. -/
def exactQuotient (coefficient constant : Rat) : Except SolveError Value :=
  let quotient := constant / coefficient
  if quotient.den = 1 ∨ coefficient.den ≠ 1 ∨ constant.den ≠ 1 then .ok (Value.ofRat quotient)
  else
    let top := [Node.constant (quotient.num : Rat)]
    let bottom := [Node.constant (quotient.den : Rat)]
    match Node.fraction? top bottom with
    | some _ => .ok (.fraction top bottom)
    | none => .error .divisionByZero

/-- The `n`-th root of a natural number, with the power `1 / n` where it is not exact. -/
def integerRoot (value n : Nat) : Node :=
  match Rational.exactRoot (value : Rat) n with
  | some root => Node.constant root
  | none =>
    .group none (Number.ofRat (Rational.rounded (value : Rat)))
      [Node.constant 1, .operator .divide, Node.constant (n : Rat)]

/-- The `n`-th root of a positive value that is no rational.  Of a fraction, numerator and
denominator have roots of their own. -/
def rootValue (value : Rat) (n : Nat) : Value :=
  if value.den = 1 then .root (integerRoot value.num.natAbs n)
  else .quotient (integerRoot value.num.natAbs n) (integerRoot value.den n)

/-- A value with the other sign. -/
def Value.negated : Value → Value
  | .number n => .number n.negated
  | .root node => .root node.negated
  | .quotient top bottom => .quotient top.negated bottom
  | value => value

/-- The real solutions of `x ^ exponent = quotient`, for an exponent above one. -/
def rootsOf (quotient : Rat) (exponent : Nat) : List Value :=
  if quotient = 0 then [Value.ofRat quotient]
  else if exponent % 2 = 0 ∧ quotient < 0 then [.noSolution]
  else
    let magnitude := Rational.magnitude quotient
    let root :=
      match Rational.exactRoot magnitude exponent with
      | some root => Value.ofRat root
      | none => rootValue magnitude exponent
    if exponent % 2 = 0 then [root, root.negated]
    else if quotient < 0 then [root.negated]
    else [root]

/-- The values of the unknown for which `coefficient · x ^ exponent` stands in the relation to
`constant`. -/
def isolate (coefficient : Rat) (exponent : Nat) (relation : Relation) (constant : Rat)
    (name : Char) : Except SolveError (List Value) :=
  if coefficient = 0 then
    .ok [if relation.holds 0 constant then .trueForAll name else .noSolution]
  else if relation = .notEqual then .error (.unsupported .notEqual)
  else
    let relation := if coefficient < 0 then relation.flipped else relation
    let quotient := constant / coefficient
    if exponent = 1 then
      match Range.ofRelation? relation quotient with
      | some range => .ok [.range range]
      | none => (exactQuotient coefficient constant).map fun value => [value]
    else if relation ≠ .equal then .error (.unsupported .powerInequality)
    else if Rational.maxExponent < exponent then
      .error (.evaluation (.exponentTooLarge (exponent : Rat)))
    else .ok (rootsOf quotient exponent)

/-- The exponent of a variable, if it is a positive integer. -/
def Group.wholeExponent? (g : Group) : Option Nat :=
  if g.power.isEmpty then some 1 else positiveIntegerPower? g.power

/-- The equation as a group with the variable, the relation, and the side without it. -/
def Sides.termAndConstant? (s : Sides) : Option (Group × Relation × List Node) :=
  match Sequence.variableTerm? s.left, Sequence.variableTerm? s.right with
  | some term, none =>
    if Sequence.hasVariable s.right then none else some (term, s.relation, s.right)
  | none, some term =>
    if Sequence.hasVariable s.left then none else some (term, s.relation.flipped, s.left)
  | _, _ => none

/-- The solution of an equation that has the form `c · x ^ n = k`; nothing for any other. -/
def Sides.closedForm? (name : Char) (s : Sides) : Except SolveError (Option Solution) :=
  match s.termAndConstant? with
  | none => .ok none
  | some (term, relation, other) =>
    match term.wholeExponent? with
    | none => .ok none
    | some exponent => do
      let constant ← Sequence.evaluate other
      let values ← isolate term.coefficient exponent relation constant name
      return some (Solution.ofValues name values)

end OneUnknown
