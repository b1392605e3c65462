import OneUnknown.Expression.Sign
import OneUnknown.SolveError
/-!
# Cleaning: every operator is explicit

A cleaned sequence has no `-` operator and no two adjacent terms, at any depth, and no relation
below the top level.  A `-` operator becomes a `+`, and the term after it changes its sign.
Between two adjacent terms the operator that is implied is put in: `*` before a parenthesis
without a minus sign, and `+` otherwise.
-/

namespace OneUnknown

/-- The operator that is implied between a term and this one after it. -/
def Node.impliedOperator : Node → Operator
  | .paren _ _ false => .multiply
  | _ => .add

/-- The cleaned rest of a sequence, put after a cleaned term.  `afterTerm` says whether a term
stands directly before it. -/
def placeTerm (afterTerm : Bool) (term : Node) (rest : List Node) : List Node :=
  if afterTerm then .operator term.impliedOperator :: term :: rest else term :: rest

mutual
/-- A cleaned node: everything inside of it is cleaned. -/
def Node.cleaned : Node → Except SolveError Node
  | .group v n p => do
    let power ← Sequence.cleanedFrom true false false p
    return .group v n power
  | .paren b p negative => do
    let body ← Sequence.cleanedFrom true false false b
    let power ← Sequence.cleanedFrom true false false p
    return .paren body power negative
  | .fraction t b => do
    let top ← Sequence.cleanedFrom true false false t
    let bottom ← Sequence.cleanedFrom true false false b
    match Node.fraction? top bottom with
    | some quotient => return quotient
    | none => .error .divisionByZero
  | .operator op => .ok (.operator op)
  | .relation r => .ok (.relation r)

/-- The rest of a sequence, cleaned.  `nested` says whether it is inside of a node, `afterTerm`
whether a term stands directly before it, and `negate` whether the next term changes its sign. -/
def Sequence.cleanedFrom (nested afterTerm negate : Bool) :
    List Node → Except SolveError (List Node)
  | [] => .ok []
  | .relation r :: rest =>
    if nested then .error .relationInGroup
    else do
      let rest ← Sequence.cleanedFrom nested false negate rest
      return .relation r :: rest
  | .operator .subtract :: rest => do
    let rest ← Sequence.cleanedFrom nested false (!negate) rest
    return .operator .add :: rest
  | .operator op :: rest => do
    let rest ← Sequence.cleanedFrom nested false negate rest
    return .operator op :: rest
  | term :: rest => do
    let term ← term.cleaned
    let term := if negate then term.negated else term
    let rest ← Sequence.cleanedFrom nested true false rest
    return placeTerm afterTerm term rest
end

/-- The sequence with every operator explicit. -/
def Sequence.cleaned (nodes : List Node) : Except SolveError (List Node) :=
  Sequence.cleanedFrom false false false nodes

end OneUnknown
