import OneUnknown.Text.ParseError
import OneUnknown.Text.Printer
/-!
# Why a problem is not solved

Every way in which solving can fail is a constructor of `SolveError`, and `SolveError.message` is
its text.  Some of them carry the sequence at which it happened.
-/

namespace OneUnknown

/-- Problems of the right kind whose solution is not attempted. -/
inductive Unsupported where
  /-- The relation `≠` beside a variable. -/
  | notEqual
  /-- An inequality between a power of the variable and a number. -/
  | powerInequality
  /-- A power of a sum in parentheses. -/
  | powerOfSum
  /-- A power of a term in parentheses that is no positive integer. -/
  | fractionalPower
  deriving DecidableEq, Repr

/-- The text of what is not supported. -/
def Unsupported.text : Unsupported → String
  | notEqual => "\"≠\" with a variable"
  | powerInequality => "inequalities on a power of the variable"
  | powerOfSum => "raising a parenthesized sum to a power"
  | fractionalPower => "non-integer powers of a term"

/-- Why a problem is not solved. -/
inductive SolveError where
  | parse (reason : ParseError)
  /-- A power that has no exact value.  Divisions by zero have their own constructor. -/
  | evaluation (reason : EvaluationError)
  | divisionByZero
  /-- A relation in a parenthesis, a power or a fraction. -/
  | relationInGroup
  | unsupportedProblem
  /-- More than one relation beside a variable. -/
  | multipleRelations
  | mixedVariables
  | variableDenominator
  | unsupported (what : Unsupported)
  /-- A sequence in which terms and operators do not alternate, or a variable where a number is
  needed. -/
  | malformed (nodes : List Node)
  /-- A division with nothing to divide, or nothing to divide by. -/
  | missingOperand
  /-- The rewriting came to no end. -/
  | notConverged (last : List Node)
  deriving DecidableEq, Repr

namespace SolveError

/-- The failure of a problem in which an evaluation fails. -/
def ofEvaluation : EvaluationError → SolveError
  | .divisionByZero => divisionByZero
  | reason => evaluation reason

/-- The text of a failure. -/
def message : SolveError → String
  | parse _ => "unable to parse the input"
  | evaluation _ => "evaluation failed"
  | divisionByZero => "division by zero"
  | relationInGroup => "relational operators can't appear inside powers or parentheses"
  | unsupportedProblem => "this kind of problem isn't supported"
  | multipleRelations =>
    "an equation with a variable may only contain one relational operator"
  | mixedVariables => "terms with different variables can't be combined"
  | variableDenominator => "a variable can't appear in a denominator"
  | unsupported what => "not supported: " ++ what.text
  | malformed nodes => "malformed expression \"" ++ String.ofList (Sequence.text nodes) ++ "\""
  | missingOperand => "malformed expression \"a division is missing an operand\""
  | notConverged last =>
    "no solution found, gave up at \"" ++ String.ofList (Sequence.text last) ++ "\""

end SolveError

/-- A computation on rationals, as a step of solving a problem. -/
def exactly (result : Except EvaluationError α) : Except SolveError α :=
  result.mapError SolveError.ofEvaluation

end OneUnknown
