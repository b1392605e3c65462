import OneUnknown.Product
/-!
# Kinds of problems

A sequence is an expression to evaluate, a comparison to decide, or an equation to solve for its
one unknown.  All terms with the unknown have to share one key after products are multiplied out,
because the rewriting cannot isolate the unknown in `x^2 + x = 0`.
-/

namespace OneUnknown

/-- What is to be done with a sequence. -/
inductive ProblemKind where
  /-- No variable and no relation: evaluate it. -/
  | arithmetic
  /-- No variable: compare the sides. -/
  | comparison
  /-- An equation or inequality in one unknown. -/
  | equation (unknown : Char)
  deriving DecidableEq, Repr

/-- The kind of a cleaned sequence. -/
def ProblemKind.of (nodes : List Node) : Except SolveError ProblemKind :=
  if nodes.isEmpty then .error .unsupportedProblem
  else
    match Sequence.unknowns nodes, nodes.any Node.isRelation with
    | [], false => .ok .arithmetic
    | [], true => .ok .comparison
    | _ :: _ :: _, _ => .error .mixedVariables
    | [_], false => .error .unsupportedProblem
    | [unknown], true => do
      let multiplied ← Sequence.multiplied nodes
      if (Sequence.variableKeys [] multiplied).length = 1 then return .equation unknown
      else .error .unsupportedProblem

end OneUnknown
