import OneUnknown.Expression.Sign
/-!
# Summands and factors

A side of an equation is a sum of products.  `Sequence.summands` cuts it at its `+` operators and
`Sequence.join` puts summands together again; a side without summands is the number zero.
-/

namespace OneUnknown.Sequence

/-- The products that a side adds up.  Nothing between two operators is no summand. -/
def summands (side : List Node) : List (List Node) :=
  (side.splitOnP (Node.isOperator .add)).filter fun summand => !summand.isEmpty

/-- The factors of a product. -/
def factors (product : List Node) : List (List Node) :=
  product.splitOnP (Node.isOperator .multiply)

/-- The side that adds up the given summands. -/
def join (parts : List (List Node)) : List Node :=
  let kept := parts.filter fun summand => !summand.isEmpty
  if kept.isEmpty then [Node.constant 0] else [Node.operator .add].intercalate kept

/-- A sequence as one factor: a lone node as it is, and anything else in parentheses. -/
def asFactor : List Node → Node
  | [node] => node
  | nodes => .paren nodes [] false

/-- A product with the other sign: its first factor changes. -/
def negatedSummand : List Node → List Node
  | [] => []
  | first :: rest => first.negated :: rest

end OneUnknown.Sequence
