import OneUnknown.Equation.LikeTerms
import OneUnknown.Product
/-!
# Removing parentheses

Parentheses without variables are evaluated, those around a single term are dropped, a summand
that is one parenthesis is added to its side, and a product with one parenthesis is multiplied
out.

* `Group.raised`: the power of a group;
* `expandedSummand`: a summand without its parenthesis;
* `Node.simplified`: a node whose contents have been simplified first;
* `Sequence.expanded`: a side with its parentheses removed as far as one pass does it.
-/

namespace OneUnknown

/-! ## Multiplying out -/

/-- The power of a group: `(c · x ^ e) ^ n` is `c ^ n · x ^ (e · n)`. -/
def Group.raised (g : Group) (power : List Node) : Except SolveError Group :=
  match positiveIntegerPower? power,
    (if g.power.isEmpty then some 1 else positiveIntegerPower? g.power) with
  | some n, some e =>
    .ok
      ⟨g.letter, Number.ofRat (Rational.wholePower g.coefficient n),
        Group.powerOf ((e : Rat) * (n : Rat))⟩
  | _, _ => .error (.unsupported .fractionalPower)

/-- The product of a group with a summand. -/
def distributed (multiplier : Group) (summand : List Node) : Except SolveError (List Node) := do
  let product ←
    match summand with
    | [node] => multiplier.toNode.multiply node
    | _ => pure none
  match product with
  | some product => return [product]
  | none =>
    if multiplier.isConstant && multiplier.coefficient = 1 then return summand
    else return multiplier.toNode :: .operator .multiply :: summand

/-- The product of some groups with another one, if it is a single group. -/
def productOf (start : Group) : List Group → Except SolveError (Option Group)
  | [] => .ok (some start)
  | g :: rest => do
    match ← start.multiply g with
    | some product => productOf product rest
    | none => return none

/-- The parenthesis without a power in a product whose other factors are all groups, with those
groups.  Nothing for any other product. -/
def loneParen? (factors : List (List Node)) : Option (List Node × Bool × List Group) :=
  match factors.filterMap (fun factor => match factor with
    | [.paren b p negative] => some (b, p, negative)
    | _ => none) with
  | [(body, [], negative)] =>
    let groups := factors.filterMap fun factor => factor.head?.bind Node.asGroup?
    if factors.all (fun factor => factor.length = 1) && groups.length + 1 = factors.length then
      some (body, negative, groups)
    else none
  | _ => none

/-- The summands that take the place of a summand when its parenthesis is removed; the summand
itself, if that is not possible. -/
def expandedSummand (summand : List Node) : Except SolveError (List (List Node)) :=
  match summand with
  | [.paren body [] negative] =>
    let inner := Sequence.summands body
    .ok (if negative then inner.map Sequence.negatedSummand else inner)
  | _ =>
    match loneParen? (Sequence.factors summand) with
    | none => .ok [summand]
    | some (body, negative, groups) => do
      match ← productOf (Group.constant 1) groups with
      | none => return [summand]
      | some multiplier =>
        let multiplier := if negative then multiplier.negated else multiplier
        (Sequence.summands body).mapM (distributed multiplier)

/-! ## Simplifying -/

/-- A side whose nodes are simplified and whose parentheses are removed. -/
def expandWith (simplify : Node → Except SolveError Node) (side : List Node) :
    Except SolveError (List Node) := do
  let parts ← (Sequence.summands side).mapM fun summand => do
    let summand ← summand.mapM simplify
    expandedSummand summand
  return Sequence.join parts.flatten

/-- A sequence inside of a node: a number if it has no variables, and otherwise with products
multiplied out, parentheses removed and like terms added up. -/
def simplifyWith (simplify : Node → Except SolveError Node) (nodes : List Node) :
    Except SolveError (List Node) := do
  if Sequence.hasVariable nodes then
    let nodes ← Sequence.multiplied nodes
    let nodes ← expandWith simplify nodes
    return Sequence.collected nodes
  else
    let value ← Sequence.evaluate nodes
    return [Node.constant value]

/-- A parenthesis whose content has been simplified. -/
def simplifiedParen (body power : List Node) (negative : Bool) : Except SolveError Node :=
  if !Sequence.hasVariable body && !Sequence.hasVariable power then do
    let value ← Sequence.evaluate [.paren body power negative]
    return Node.constant value
  else if power.isEmpty then
    match body with
    | [single] =>
      if single.isTerm then .ok (if negative then single.negated else single)
      else .ok (.paren body power negative)
    | _ => .ok (.paren body power negative)
  else
    match Sequence.variableTerm? body with
    | some g => do
      let raised ← g.raised power
      return (if negative then raised.negated else raised).toNode
    | none => .error (.unsupported .powerOfSum)

/-- A node whose contents have been simplified first, down to the given depth. -/
def Node.simplified : (depth : Nat) → Node → Except SolveError Node
  | depth + 1, .paren b p negative => do
    let body ← simplifyWith (Node.simplified depth) b
    simplifiedParen body p negative
  | depth + 1, .fraction t b => do
    let top ← simplifyWith (Node.simplified depth) t
    let bottom ← simplifyWith (Node.simplified depth) b
    match Node.fraction? top bottom with
    | some quotient => return quotient
    | none => .error .divisionByZero
  | _, node => .ok node

mutual
/-- How deep parentheses and fractions are nested in a node. -/
def Node.depth : Node → Nat
  | .paren b _ _ => Sequence.depth b + 1
  | .fraction t b => max (Sequence.depth t) (Sequence.depth b) + 1
  | .group .. | .operator _ | .relation _ => 0

/-- How deep parentheses and fractions are nested in a sequence. -/
def Sequence.depth : List Node → Nat
  | [] => 0
  | n :: ns => max n.depth (Sequence.depth ns)
end

/-- The side with its parentheses removed, one summand at a time. -/
def Sequence.expanded (side : List Node) : Except SolveError (List Node) :=
  expandWith (Node.simplified (Sequence.depth side)) side

end OneUnknown
