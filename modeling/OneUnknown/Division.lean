import OneUnknown.SolveError
/-!
# Divisions as fractions

Before an equation is rewritten, every `a / b` in it becomes a fraction, at the top level and
inside of parentheses.  Powers and fractions that are there already stay as they are.
-/

namespace OneUnknown

/-- The fraction of two terms.  A divisor that is the number zero is refused. -/
def Node.over (top bottom : Node) : Except SolveError Node :=
  match Node.fraction? [top] [bottom] with
  | some quotient => .ok quotient
  | none => .error .divisionByZero

mutual
/-- A node without `/` operators in it, if it is a parenthesis. -/
def Node.withFractions : Node → Except SolveError Node
  | .paren b p negative => do
    let body ← Sequence.withFractionsAfter none b
    return .paren body p negative
  | .group v n p => .ok (.group v n p)
  | .fraction t b => .ok (.fraction t b)
  | .operator op => .ok (.operator op)
  | .relation r => .ok (.relation r)

/-- The rest of a sequence after `held`, which is the numerator if a division follows. -/
def Sequence.withFractionsAfter (held : Option Node) : List Node → Except SolveError (List Node)
  | [] => .ok held.toList
  | .operator .divide :: rest =>
    match held, rest with
    | some top, bottom :: rest =>
      if top.isTerm then do
        let bottom ← bottom.withFractions
        if bottom.isTerm then do
          let fraction ← top.over bottom
          Sequence.withFractionsAfter (some fraction) rest
        else .error .missingOperand
      else .error .missingOperand
    | _, _ => .error .missingOperand
  | node :: rest => do
    let node ← node.withFractions
    let rest ← Sequence.withFractionsAfter (some node) rest
    return held.toList ++ rest
end

/-- The sequence with every division written as a fraction. -/
def Sequence.withFractions (nodes : List Node) : Except SolveError (List Node) :=
  Sequence.withFractionsAfter none nodes

end OneUnknown
