import OneUnknown.Expression.Number
import OneUnknown.Expression.Symbol
/-!
# Expressions as sequences of nodes

An expression or an equation is a flat sequence of nodes: terms, operators and relations in the
order in which they are written.  Terms nest: a power, the content of a parenthesis and the two
halves of a fraction are sequences again.

* `Node`: one element of a sequence, with decidable equality;
* `Group`: the term `number · letter ^ power` on its own;
* `TermKey`: what two groups share when they can be added up.
-/

namespace OneUnknown

/-- One element of an expression. -/
inductive Node where
  /-- The term `number · letter ^ power`.  Without a letter the power applies to the number.
  An empty power stands for the exponent one. -/
  | group (letter : Option Char) (number : Number) (power : List Node)
  /-- A binary operator. -/
  | operator (op : Operator)
  /-- A parenthesis with its exponent and a minus sign in front of it. -/
  | paren (body power : List Node) (negative : Bool)
  /-- A fraction. -/
  | fraction (top bottom : List Node)
  /-- A relation between two sides. -/
  | relation (rel : Relation)
  deriving Repr

/-- A sequence of nodes: an expression, or an equation. -/
abbrev Sequence := List Node

/-! ## Equality of nodes -/

mutual
/-- Whether two nodes are the same. -/
def Node.same : Node → Node → Bool
  | .group v n p, .group v' n' p' => v = v' && n = n' && Sequence.same p p'
  | .operator op, .operator op' => op = op'
  | .paren b p s, .paren b' p' s' => Sequence.same b b' && Sequence.same p p' && s = s'
  | .fraction t b, .fraction t' b' => Sequence.same t t' && Sequence.same b b'
  | .relation r, .relation r' => r = r'
  | _, _ => false

/-- Whether two sequences are the same. -/
def Sequence.same : List Node → List Node → Bool
  | [], [] => true
  | n :: ns, n' :: ns' => Node.same n n' && Sequence.same ns ns'
  | _, _ => false
end

mutual
theorem Node.same_iff (a b : Node) : Node.same a b = true ↔ a = b := by
  cases a <;> cases b <;>
    simp [Node.same, Sequence.same_iff, and_assoc]

theorem Sequence.same_iff (a b : List Node) : Sequence.same a b = true ↔ a = b := by
  cases a <;> cases b <;> simp [Sequence.same, Node.same_iff, Sequence.same_iff]
end

instance : DecidableEq Node := fun a b => decidable_of_iff _ (Node.same_iff a b)

/-! ## Groups -/

/-- The term `number · letter ^ power`. -/
structure Group where
  letter : Option Char
  number : Number
  power : List Node
  deriving DecidableEq, Repr

/-- What two groups share when they can be added up: everything but the number. -/
structure TermKey where
  letter : Option Char
  power : List Node
  deriving DecidableEq, Repr

namespace Group

/-- A plain number. -/
def constant (value : Rat) : Group := ⟨none, Number.ofRat value, []⟩

/-- The group as an element of a sequence. -/
def toNode (g : Group) : Node := .group g.letter g.number g.power

/-- A zero that is written out: neither a variable nor a power. -/
def isPlaceholder (g : Group) : Bool := g.letter = none ∧ g.power = [] ∧ g.number.isZero

/-- A plain number, with neither a variable nor a power. -/
def isConstant (g : Group) : Bool := g.letter = none ∧ g.power = []

/-- Groups that can be added up by their coefficients.  The power of a plain number applies to
the number, so `5 ^ 2` is not one of them. -/
def isAddable (g : Group) : Bool := g.letter ≠ none ∨ g.power = []

/-- The signed number in front. -/
def coefficient (g : Group) : Rat := g.number.value

/-- The key under which like terms are collected. -/
def key (g : Group) : TermKey := ⟨g.letter, g.power⟩

/-- The group with the other sign. -/
def negated (g : Group) : Group := { g with number := g.number.negated }

/-- The group with another coefficient. -/
def withCoefficient (g : Group) (value : Rat) : Group := { g with number := Number.ofRat value }

end Group

/-- A term of this key whose coefficient is zero. -/
def TermKey.zeroTerm (key : TermKey) : Group := ⟨key.letter, Number.zero, key.power⟩

namespace Node

/-- A plain number. -/
def constant (value : Rat) : Node := (Group.constant value).toNode

/-- The group in a node, if it is one. -/
def asGroup? : Node → Option Group
  | .group v n p => some ⟨v, n, p⟩
  | _ => none

/-- Whether the node has a value, as opposed to an operator or a relation. -/
def isTerm : Node → Bool
  | .group .. | .paren .. | .fraction .. => true
  | .operator _ | .relation _ => false

/-- Whether the node is a parenthesis. -/
def isParen : Node → Bool
  | .paren .. => true
  | _ => false

/-- Whether the node is a fraction. -/
def isFraction : Node → Bool
  | .fraction .. => true
  | _ => false

/-- Whether the node is a relation. -/
def isRelation : Node → Bool
  | .relation _ => true
  | _ => false

/-- Whether the node is this operator. -/
def isOperator (op : Operator) : Node → Bool
  | .operator op' => op' = op
  | _ => false

/-- Whether the node is a term with a minus sign of its own.  A fraction has none. -/
def isNegative : Node → Bool
  | .group _ n _ => n.negative
  | .paren _ _ negative => negative
  | _ => false

/-- Whether the node carries an exponent. -/
def isPowered : Node → Bool
  | .group _ _ power | .paren _ power _ => power ≠ []
  | _ => false

/-- The fraction of two sequences, refused when the denominator is written as the number zero.
A denominator that merely evaluates to zero is not noticed here. -/
def fraction? (top bottom : List Node) : Option Node :=
  match bottom with
  | [.group v n p] => if Group.isPlaceholder ⟨v, n, p⟩ then none else some (.fraction top bottom)
  | _ => some (.fraction top bottom)

end Node

end OneUnknown
