import OneUnknown.Expression.Node
/-!
# Changing the sign of an expression

A sum changes its sign when the first factor of each of its summands does.
`Node.startsSummand` says which terms those are, `Node.negated` changes the sign of one term, and
`Sequence.negated` that of a whole sequence.
-/

namespace OneUnknown

/-- Whether a term begins a new summand after `previous`.  Beside an explicit operator or
relation, two adjacent terms are added unless the second is a parenthesis without a minus sign:
`2(x + 1)` is a product. -/
def Node.startsSummand (previous : Option Node) : Node → Bool
  | .operator _ | .relation _ => false
  | node =>
    match previous with
    | none => true
    | some (.operator op) => !op.bindsTighter
    | some (.relation _) => true
    | some _ =>
      match node with
      | .paren _ _ negative => negative
      | _ => true

mutual
/-- A term with the other sign: that of its number, that of its parenthesis, or that of the
numerator.  Operators and relations stay. -/
def Node.negated : Node → Node
  | .group v n p => .group v n.negated p
  | .paren b p negative => .paren b p (!negative)
  | .fraction t b => .fraction (Sequence.negatedAfter none t) b
  | .operator op => .operator op
  | .relation r => .relation r

/-- The sequence that follows `previous`, with every summand negated. -/
def Sequence.negatedAfter (previous : Option Node) : List Node → List Node
  | [] => []
  | n :: ns =>
    (if n.startsSummand previous then n.negated else n) :: Sequence.negatedAfter (some n) ns
end

/-- A sequence with every summand negated. -/
def Sequence.negated (nodes : List Node) : List Node := Sequence.negatedAfter none nodes

end OneUnknown
